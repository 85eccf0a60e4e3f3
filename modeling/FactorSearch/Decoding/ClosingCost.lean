/-!
# Closing costs

How few tokens reduce a stack of some depth to exactly one value.  A token of arity `k` needs depth
at least `k` and moves depth `d` to `d - k + 1`.  The table holds the costs of the depths from zero
to a limit, found by relaxing every depth until nothing changes; depths above the limit are not
explored, and `none` stands for a depth that cannot be closed.
-/

set_option autoImplicit false

namespace FactorSearch

namespace Decoding

def depthAfter? (depth arity : Nat) : Option Nat :=
  if depth < arity then none else some (depth - arity + 1)

def cheaper : Option Nat → Option Nat → Option Nat
  | none, b => b
  | a, none => a
  | some a, some b => some (Nat.min a b)

def costThrough (table : Array (Option Nat)) (depth arity : Nat) : Option Nat :=
  match depthAfter? depth arity with
  | none => none
  | some next => (table[next]?.getD none).map (· + 1)

/-- The table after one more token has been allowed at each depth from one on. -/
def relax (arities : List Nat) (table : Array (Option Nat)) : Array (Option Nat) :=
  Array.ofFn fun depth : Fin table.size =>
    if depth.val = 0 then table[depth]
    else arities.foldl (fun best arity => cheaper best (costThrough table depth arity)) table[depth]

def relaxUntilStable (arities : List Nat) : Nat → Array (Option Nat) → Array (Option Nat)
  | 0, table => table
  | fuel + 1, table =>
    let next := relax arities table
    if next = table then table else relaxUntilStable arities fuel next

/-- The table of closing costs of the depths `0..limit`. -/
def closingCosts (arities : List Nat) (limit : Nat) : Array (Option Nat) :=
  let start : Array (Option Nat) :=
    Array.ofFn fun depth : Fin (limit + 1) => if depth.val = 1 then some 0 else none
  relaxUntilStable arities (limit + 1) start

end Decoding

end FactorSearch
