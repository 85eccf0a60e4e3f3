import FactorSearch.Features
import FactorSearch.Formula.Program

/-!
# The stack machine

Running a program on a feature set: a leaf pushes its panel and an operator replaces its operands
by its value.  The value that is left at the end is the factor.
-/

set_option autoImplicit false

namespace FactorSearch

namespace StackMachine

variable {α : Type} [Scalar α] {periods instruments : Nat}

/-- The stack after one token, the latest value first. -/
@[specialize] def step (v : Vocabulary) (features : FeatureSet α periods instruments)
    (position : Nat) (stack : List (Panel α periods instruments)) (token : Token) :
    Result (List (Panel α periods instruments)) :=
  match v.entry? token with
  | none => .error (.internal (.unknownToken token.index position))
  | some entry =>
    match entry.feature? with
    | some name => do
      let panel ← features.panel name
      return panel :: stack
    | none =>
      if stack.length < entry.arity then .error (.internal (.stackUnderflow position entry.name))
      else do
        let value ← entry.operator.apply (stack.take entry.arity).reverse
        return value :: stack.drop entry.arity

@[specialize] def runFrom (v : Vocabulary) (features : FeatureSet α periods instruments)
    (position : Nat) (stack : List (Panel α periods instruments)) :
    Program → Result (List (Panel α periods instruments))
  | [] => .ok stack
  | token :: rest =>
    match step v features position stack token with
    | .error failure => .error failure
    | .ok next => runFrom v features (position + 1) next rest

@[specialize] def run (v : Vocabulary) (features : FeatureSet α periods instruments)
    (program : Program) : Result (Panel α periods instruments) :=
  match runFrom v features 0 [] program with
  | .error failure => .error failure
  | .ok [factor] => .ok factor
  | .ok stack => .error (.internal (.stackResidue stack.length))

end StackMachine

end FactorSearch
