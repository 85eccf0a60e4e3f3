import FactorSearch.Failure

/-!
# Shape of a policy network

A policy reads the actions so far with one attention layer, passes the result through a tower of
residual layers, and scores every action.  The width is the product of the number of attention
heads and the width of a head.  `Coordinate` names every trainable number of such a network.
-/

set_option autoImplicit false

namespace FactorSearch

namespace Policy

/-- The counts that fix a network: tokens, longest program, attention heads and their width, and
residual layers. -/
structure Shape where
  vocabulary : Nat
  maxLength : Nat
  heads : Nat
  headWidth : Nat
  layers : Nat
  deriving DecidableEq, Repr

namespace Shape

@[reducible] def width (s : Shape) : Nat := s.heads * s.headWidth

@[reducible] def actions (s : Shape) : Nat := s.vocabulary + 1

@[reducible] def start (s : Shape) : Nat := s.vocabulary

def create (vocabulary maxLength width heads layers : Nat) : Result Shape :=
  if width = 0 ∨ heads = 0 ∨ width % heads ≠ 0 then
    .error (.configuration (.headsDoNotDivide width heads))
  else if vocabulary = 0 ∨ maxLength = 0 then .error (.configuration .emptyPolicy)
  else .ok ⟨vocabulary, maxLength, heads, width / heads, layers⟩

def column (s : Shape) (head : Fin s.heads) (entry : Fin s.headWidth) : Fin s.width :=
  ⟨head.val * s.headWidth + entry.val, by
    have h : (head.val + 1) * s.headWidth ≤ s.heads * s.headWidth :=
      Nat.mul_le_mul_right _ head.isLt
    have e := entry.isLt
    simp only [width]
    rw [Nat.add_mul, Nat.one_mul] at h
    omega⟩

def headOf (s : Shape) (column : Fin s.width) : Fin s.heads :=
  ⟨column.val / s.headWidth,
    Nat.div_lt_of_lt_mul (Nat.lt_of_lt_of_eq column.isLt (Nat.mul_comm _ _))⟩

end Shape

/-- A trainable number: its tensor, and its place in it. -/
inductive Coordinate (s : Shape) where
  | token (row : Fin s.actions) (column : Fin s.width)
  | position (row : Fin (s.maxLength + 1)) (column : Fin s.width)
  | depth (row : Fin (s.maxLength + 2)) (column : Fin s.width)
  | query (row column : Fin s.width)
  | key (row column : Fin s.width)
  | value (row column : Fin s.width)
  | mixing (row column : Fin s.width)
  | layerWeight (layer : Fin s.layers) (row column : Fin s.width)
  | layerBias (layer : Fin s.layers) (column : Fin s.width)
  | outputWeight (row : Fin s.width) (action : Fin s.actions)
  | outputBias (action : Fin s.actions)
  deriving DecidableEq

namespace Coordinate

variable {s : Shape}

/-- The number of the tensor, in the order of the constructors; the layers alternate between
weight and bias. -/
def tensor : Coordinate s → Nat
  | token _ _ => 0
  | position _ _ => 1
  | depth _ _ => 2
  | query _ _ => 3
  | key _ _ => 4
  | value _ _ => 5
  | mixing _ _ => 6
  | layerWeight l _ _ => 7 + 2 * l.val
  | layerBias l _ => 8 + 2 * l.val
  | outputWeight _ _ => 7 + 2 * s.layers
  | outputBias _ => 8 + 2 * s.layers

def offset : Coordinate s → Nat
  | token i j => i.val * s.width + j.val
  | position i j => i.val * s.width + j.val
  | depth i j => i.val * s.width + j.val
  | query i j => i.val * s.width + j.val
  | key i j => i.val * s.width + j.val
  | value i j => i.val * s.width + j.val
  | mixing i j => i.val * s.width + j.val
  | layerWeight _ i j => i.val * s.width + j.val
  | layerBias _ j => j.val
  | outputWeight i a => i.val * s.actions + a.val
  | outputBias a => a.val

end Coordinate

end Policy

end FactorSearch
