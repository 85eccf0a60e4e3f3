import FactorSearch.Decoding.ClosingCost
import FactorSearch.Vocabulary

/-!
# The decoding grammar

Which actions a decoder may take next so that it still ends in a well formed program.  An action is
the index of a token, or one more for stopping.  A token is offered when the stack can take it and
can afterwards be reduced to one value within the remaining length; stopping is offered when one
value is left.
-/

set_option autoImplicit false

namespace FactorSearch

structure DecodeState where
  depth : Nat
  length : Nat
  deriving DecidableEq, Repr

namespace DecodeState

def initial : DecodeState := ⟨0, 0⟩

end DecodeState

/-- The arities of the tokens, the longest program, and the closing costs up to the deepest stack
that a program of that length can reach. -/
structure Grammar where
  arities : Array Nat
  maxLength : Nat
  closingCosts : Array (Option Nat)

namespace Grammar

def ofVocabulary (v : Vocabulary) (maxLength : Nat) : Grammar where
  arities := v.arities.toArray
  maxLength := maxLength
  closingCosts := Decoding.closingCosts v.distinctArities (maxLength + v.maxArity)

def vocabularySize (g : Grammar) : Nat := g.arities.size

def actionCount (g : Grammar) : Nat := g.arities.size + 1

def stop (g : Grammar) : Nat := g.arities.size

/-- The fewest tokens that reduce a stack of `depth` values to one. -/
def closingCost? (g : Grammar) (depth : Nat) : Option Nat := g.closingCosts[depth]?.getD none

def closable (g : Grammar) (depth budget : Nat) : Bool :=
  match g.closingCost? depth with
  | some cost => cost ≤ budget
  | none => false

def offersToken (g : Grammar) (state : DecodeState) (arity : Nat) : Bool :=
  if state.length < g.maxLength then
    match Decoding.depthAfter? state.depth arity with
    | some next => g.closable next (g.maxLength - state.length - 1)
    | none => false
  else false

def offersStop (state : DecodeState) : Bool := state.depth = 1 && 1 ≤ state.length

/-- For every action whether it may come next, stopping last. -/
def mask (g : Grammar) (state : DecodeState) : List Bool :=
  g.arities.toList.map (g.offersToken state) ++ [offersStop state]

/-- The state after an action; none for stopping and for a token that the stack cannot take. -/
def advance? (g : Grammar) (state : DecodeState) (action : Nat) : Option DecodeState :=
  match g.arities[action]? with
  | none => none
  | some arity =>
    if state.depth + 1 < arity then none
    else some ⟨state.depth + 1 - arity, state.length + 1⟩

end Grammar

end FactorSearch
