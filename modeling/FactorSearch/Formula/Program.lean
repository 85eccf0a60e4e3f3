import FactorSearch.Vocabulary

/-!
# Programs

A program is a list of tokens in postfix order: operands come before the operator that takes them.
It is well formed when running it on a stack never finds too few values and leaves exactly one.
`validate` gives the first reason why it is not, or the formula in prefix notation.
-/

set_option autoImplicit false

namespace FactorSearch

/-- Tokens in postfix order. -/
abbrev Program : Type := List Token

inductive Rejection where
  | empty
  | unknownToken (position id : Nat)
  | underflow (position required depth : Nat)
  | unclosed (depth : Nat)
  | tooLong (length limit : Nat)
  deriving DecidableEq, Repr

namespace Rejection

def text : Rejection → String
  | empty => "empty program"
  | unknownToken position id => s!"unknown token id {id} at position {position}"
  | underflow position required depth =>
    s!"stack underflow at position {position}: operator needs {required} operands, " ++
      s!"stack holds {depth}"
  | unclosed depth => s!"program leaves {depth} values on the stack"
  | tooLong length limit => s!"program length {length} exceeds maximum {limit}"

end Rejection

namespace Program

/-- The number of values on the stack after the tokens, from `depth` values before the token at
`position`. -/
def depthAfter (v : Vocabulary) (position depth : Nat) : Program → Except Rejection Nat
  | [] => .ok depth
  | token :: rest =>
    match v.arity? token with
    | none => .error (.unknownToken position token.index)
    | some arity =>
      if depth < arity then .error (.underflow position arity depth)
      else depthAfter v (position + 1) (depth - arity + 1) rest

def stackDepth (v : Vocabulary) (program : Program) : Except Rejection Nat :=
  if program.isEmpty then .error .empty
  else
    match depthAfter v 0 0 program with
    | .error reason => .error reason
    | .ok depth => if depth = 1 then .ok depth else .error (.unclosed depth)

def renderCall (name : String) (operands : List String) : String :=
  if operands.isEmpty then name else name ++ "(" ++ ", ".intercalate operands ++ ")"

def renderOnto (v : Vocabulary) (stack : List String) : Program → Option (List String)
  | [] => some stack
  | token :: rest =>
    match v.entry? token with
    | none => none
    | some entry =>
      if stack.length < entry.arity then none
      else
        let operands := (stack.take entry.arity).reverse
        renderOnto v (renderCall entry.name operands :: stack.drop entry.arity) rest

/-- The formula of a program in prefix notation, such as `ADD(RET, MA5(VOL))`; none when the
tokens do not form exactly one expression. -/
def canonical? (v : Vocabulary) (program : Program) : Option String :=
  match renderOnto v [] program with
  | some [formula] => some formula
  | _ => none

def validate (v : Vocabulary) (limit : Nat) (program : Program) : Except Rejection String :=
  if limit < program.length then .error (.tooLong program.length limit)
  else
    match stackDepth v program with
    | .error reason => .error reason
    | .ok _ =>
      match canonical? v program with
      | some formula => .ok formula
      | none => .error .empty

end Program

end FactorSearch
