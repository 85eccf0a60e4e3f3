import FactorSearch.Operator
import Mathlib.Data.List.Forall2

/-!
# What a kernel reads

The value of an operator in a period depends on its operands in that period and in as many before
it as the operator looks back; and unless the operator compares instruments, the value for an
instrument depends on that instrument alone.  Each statement is about two evaluations on panels
that may have different numbers of periods: where the operands agree on what is read, the values
agree.
-/

set_option autoImplicit false

namespace FactorSearch

/-- The last `memory` periods up to `t` matched with those up to `u`. -/
def Before (memory t u s r : Nat) : Prop := ∃ back, back ≤ memory ∧ s + back = t ∧ r + back = u

/-- Periods from which a look `memory` back ends alike: both have so many before them, or both are
as far from the start. -/
def Aligned (memory t u : Nat) : Prop := t = u ∨ memory ≤ t ∧ memory ≤ u

theorem before_zero_iff (t u s r : Nat) : Before 0 t u s r ↔ s = t ∧ r = u := by
  constructor
  · intro given
    obtain ⟨back, none, first, second⟩ := given
    omega
  · intro given
    obtain ⟨rfl, rfl⟩ := given
    exact ⟨0, Nat.le_refl 0, rfl, rfl⟩

theorem Before.trans {memory more total t u s r s' r' : Nat} (near : Before memory t u s r)
    (far : Before more s r s' r') (enough : memory + more ≤ total) : Before total t u s' r' := by
  obtain ⟨back, short, first, second⟩ := near
  obtain ⟨again, short', first', second'⟩ := far
  exact ⟨back + again, by omega, by omega, by omega⟩

theorem Aligned.mono {memory total t u : Nat} (aligned : Aligned total t u)
    (fewer : memory ≤ total) : Aligned memory t u := by
  rcases aligned with same | ⟨deep, deep'⟩
  · exact Or.inl same
  · exact Or.inr ⟨Nat.le_trans fewer deep, Nat.le_trans fewer deep'⟩

theorem Aligned.before {memory more total t u s r : Nat} (aligned : Aligned total t u)
    (enough : memory + more ≤ total) (near : Before memory t u s r) : Aligned more s r := by
  obtain ⟨back, short, first, second⟩ := near
  rcases aligned with same | ⟨deep, deep'⟩
  · exact Or.inl (by omega)
  · exact Or.inr ⟨by omega, by omega⟩

namespace Operator

/-- How many periods before its own an operator reads. -/
def lookBack : Operator → Nat
  | delay k | delta k => k
  | mean w | deviation w | decay w | highest w => w - 1
  | _ => 0

/-- An operator that reads all instruments of a period. -/
def Crosses (operator : Operator) : Prop := operator = .rank ∨ operator = .zScore

end Operator

variable {α : Type} {periods others instruments : Nat}

namespace Panel

def Agree (columns : Fin instruments → Prop) (matched : Nat → Nat → Prop)
    (x : Panel α periods instruments) (y : Panel α others instruments) : Prop :=
  ∀ (s : Fin periods) (r : Fin others), matched s r → ∀ i, columns i → x.cell s i = y.cell r i

variable {columns : Fin instruments → Prop} {matched : Nat → Nat → Prop}
  {x x' x'' : Panel α periods instruments} {y y' y'' : Panel α others instruments}

theorem Agree.mono {fewer : Nat → Nat → Prop} (agree : Agree columns matched x y)
    (included : ∀ s r, fewer s r → matched s r) : Agree columns fewer x y := by
  intro s r near
  exact agree s r (included s r near)

theorem Agree.map {β : Type} (agree : Agree columns matched x y) (f : α → β) :
    Agree columns matched (x.map f) (y.map f) := by
  intro s r near i inside
  simp only [Panel.map, cell_ofFn]
  rw [agree s r near i inside]

theorem Agree.map₂ {β : Type} (agree : Agree columns matched x y)
    (agree' : Agree columns matched x' y') (f : α → α → β) :
    Agree columns matched (x.map₂ f x') (y.map₂ f y') := by
  intro s r near i inside
  simp only [Panel.map₂, cell_ofFn]
  rw [agree s r near i inside, agree' s r near i inside]

theorem Agree.map₃ {β : Type} (agree : Agree columns matched x y)
    (agree' : Agree columns matched x' y') (agree'' : Agree columns matched x'' y'')
    (f : α → α → α → β) : Agree columns matched (x.map₃ f x' x'') (y.map₃ f y' y'') := by
  intro s r near i inside
  simp only [Panel.map₃, cell_ofFn]
  rw [agree s r near i inside, agree' s r near i inside, agree'' s r near i inside]

theorem Agree.mapRows {β : Type} (agree : Agree columns matched x y) (all : ∀ i, columns i)
    (default : β) (f : List α → List β) :
    Agree columns matched (x.mapRows default f) (y.mapRows default f) := by
  intro s r near i _
  have row : x.rows[s] = y.rows[r] := Vector.ext fun j inside =>
    agree s r near ⟨j, inside⟩ (all ⟨j, inside⟩)
  simp only [Fin.getElem_fin] at row
  simp only [Panel.mapRows, cell, Fin.getElem_fin, Vector.getElem_map, row]

variable [Scalar α]

/-- Windows that reach back over agreeing cells are the same. -/
theorem Agree.window? {w : Nat} {t : Fin periods} {u : Fin others}
    (agree : Agree columns (Before (w - 1) t u) x y) (aligned : Aligned (w - 1) t u)
    (i : Fin instruments) (inside : columns i) : x.window? w t i = y.window? w u i := by
  have reach : (0 < w ∧ w ≤ t.val + 1) ↔ (0 < w ∧ w ≤ u.val + 1) := by
    rcases aligned with same | ⟨deep, deep'⟩
    · rw [same]
    · omega
  simp only [Panel.window?]
  by_cases long : 0 < w ∧ w ≤ t.val + 1
  · have long' := reach.mp long
    have cells : ∀ j : Fin w, x.cell ⟨t.val + 1 - w + j.val, by omega⟩ i =
        y.cell ⟨u.val + 1 - w + j.val, by omega⟩ i := by
      intro j
      exact agree _ _ ⟨w - 1 - j.val, by omega, by dsimp only; omega, by dsimp only; omega⟩ i inside
    rw [dif_pos long, dif_pos long', funext cells]
  · rw [dif_neg long, dif_neg fun long' => long (reach.mpr long')]

theorem Agree.rolling {w t u : Nat} (agree : Agree columns (Before (w - 1) t u) x y)
    (aligned : Aligned (w - 1) t u) (f : List α → α) :
    Agree columns (Before 0 t u) (Kernel.rolling w f x) (Kernel.rolling w f y) := by
  intro s r here i inside
  obtain ⟨rfl, rfl⟩ := (before_zero_iff ..).mp here
  simp only [Kernel.rolling, cell_ofFn]
  rw [agree.window? aligned i inside]

end Panel

/-- Where the operands agree as far back as the operator looks, the values agree. -/
theorem Operator.apply_agree [Scalar α] (operator : Operator)
    {columns : Fin instruments → Prop} {t u : Nat} (aligned : Aligned operator.lookBack t u)
    (isolated : operator.Crosses → ∀ i, columns i)
    (xs : List (Panel α periods instruments)) (ys : List (Panel α others instruments))
    (count : xs.length = operator.arity)
    (agree : List.Forall₂ (Panel.Agree columns (Before operator.lookBack t u)) xs ys)
    (x : Panel α periods instruments) (y : Panel α others instruments)
    (first : operator.apply xs = .ok x) (second : operator.apply ys = .ok y) :
    Panel.Agree columns (Before 0 t u) x y := by
  cases operator with
  | feature name =>
    rw [List.length_eq_zero_iff.mp count] at first
    contradiction
  | gate =>
    obtain ⟨a, b, c, rfl⟩ := List.length_eq_three.mp count
    obtain _ | ⟨one, _ | ⟨two, _ | ⟨three, _ | _⟩⟩⟩ := agree
    cases first
    cases second
    exact one.map₃ two three _
  | add | sub | mul | div | max | min =>
    obtain ⟨a, b, rfl⟩ := List.length_eq_two.mp count
    obtain _ | ⟨one, _ | ⟨two, _ | _⟩⟩ := agree
    cases first
    cases second
    exact one.map₂ two _
  | neg | abs | sign =>
    obtain ⟨a, rfl⟩ := List.length_eq_one_iff.mp count
    obtain _ | ⟨one, _ | _⟩ := agree
    cases first
    cases second
    exact one.map _
  | rank | zScore =>
    obtain ⟨a, rfl⟩ := List.length_eq_one_iff.mp count
    obtain _ | ⟨one, _ | _⟩ := agree
    cases first
    cases second
    exact one.mapRows (isolated (by simp [Operator.Crosses])) _ _
  | delay | delta | mean | deviation | decay | highest =>
    obtain ⟨a, rfl⟩ := List.length_eq_one_iff.mp count
    obtain _ | ⟨one, _ | _⟩ := agree
    cases first
    cases second
    exact one.rolling aligned _

end FactorSearch
