import FactorSearch.Scalar

/-!
# Panels

A panel holds one scalar for every period and instrument.  The counts are part of the type, so
operations on panels of one grid keep the grid.  A `Grid` is a panel whose counts are found at
run time.  Rows are periods; a period's cells in instrument order are its `row`.
-/

set_option autoImplicit false

namespace FactorSearch

structure Panel (α : Type) (periods instruments : Nat) where
  rows : Vector (Vector α instruments) periods

namespace Panel

variable {α β γ δ : Type} {periods instruments : Nat}

@[inline] def cell (x : Panel α periods instruments) (t : Fin periods) (i : Fin instruments) : α :=
  x.rows[t][i]

@[inline] def ofFn (f : Fin periods → Fin instruments → α) : Panel α periods instruments :=
  ⟨Vector.ofFn fun t => Vector.ofFn fun i => f t i⟩

@[simp] theorem cell_ofFn (f : Fin periods → Fin instruments → α) (t : Fin periods)
    (i : Fin instruments) : (ofFn f).cell t i = f t i := by
  simp [cell, ofFn]

@[ext] theorem ext {x y : Panel α periods instruments}
    (cells : ∀ t i, x.cell t i = y.cell t i) : x = y := by
  cases x with
  | mk xs =>
    cases y with
    | mk ys =>
      congr 1
      apply Vector.ext
      intro t ht
      apply Vector.ext
      intro i hi
      exact cells ⟨t, ht⟩ ⟨i, hi⟩

def fill (value : α) : Panel α periods instruments := ofFn fun _ _ => value

def row (x : Panel α periods instruments) (t : Fin periods) : List α := x.rows[t].toList

def toRows (x : Panel α periods instruments) : List (List α) := x.rows.toList.map Vector.toList

def cells (x : Panel α periods instruments) : List α := x.toRows.flatten

@[inline] def map (f : α → β) (x : Panel α periods instruments) : Panel β periods instruments :=
  ofFn fun t i => f (x.cell t i)

@[inline] def map₂ (f : α → β → γ) (x : Panel α periods instruments)
    (y : Panel β periods instruments) : Panel γ periods instruments :=
  ofFn fun t i => f (x.cell t i) (y.cell t i)

@[inline] def map₃ (f : α → β → γ → δ) (x : Panel α periods instruments)
    (y : Panel β periods instruments) (z : Panel γ periods instruments) :
    Panel δ periods instruments :=
  ofFn fun t i => f (x.cell t i) (y.cell t i) (z.cell t i)

/-- A function of whole rows, at every period.  It is meant to keep the length of a row; a cell
that it leaves out gets `default`. -/
@[inline] def mapRows (default : β) (f : List α → List β) (x : Panel α periods instruments) :
    Panel β periods instruments :=
  ⟨x.rows.map fun r =>
    let out := (f r.toList).toArray
    Vector.ofFn fun i => out[i.val]?.getD default⟩

def ofRows (default : α) (rows : List (List α)) : Panel α periods instruments :=
  let table := (rows.map List.toArray).toArray
  ofFn fun t i => ((table[t.val]?.getD #[])[i.val]?).getD default

end Panel

structure Grid (α : Type) where
  periods : Nat
  instruments : Nat
  panel : Panel α periods instruments

namespace Grid

variable {α : Type}

def shape (g : Grid α) : Nat × Nat := (g.periods, g.instruments)

def fit? (g : Grid α) (periods instruments : Nat) : Option (Panel α periods instruments) :=
  if h : g.periods = periods ∧ g.instruments = instruments then
    some (h.1 ▸ h.2 ▸ g.panel)
  else none

end Grid

end FactorSearch
