import FactorSearch.Operator
import FactorSearch.Proofs.Kernel.FlatPeriods
import FactorSearch.Proofs.Kernel.Windows
import FactorSearch.Proofs.Statistics.Symmetry

/-!
# Missing cells and kernels

A cell that is missing in an operand is missing in the value of every operator but one.  Elementwise
kernels compute with it, windowed kernels have it in their window, and cross-sectional kernels keep
it.  A gate alone passes over a missing cell, in the branch that it does not select.
-/

set_option autoImplicit false

namespace FactorSearch

open Double

variable {periods instruments : Nat} {t : Fin periods} {i : Fin instruments}

/-! ## Elementwise kernels -/

namespace Panel

theorem missing_map {f : Float → Float} (strict : ∀ a, Missing a → Missing (f a))
    {x : Panel Float periods instruments} (missing : Missing (x.cell t i)) :
    Missing ((x.map f).cell t i) := by
  rw [map, cell_ofFn]
  exact strict _ missing

theorem missing_map₂ {f : Float → Float → Float}
    (strict : ∀ a b, Missing a ∨ Missing b → Missing (f a b))
    {x y : Panel Float periods instruments}
    (missing : Missing (x.cell t i) ∨ Missing (y.cell t i)) :
    Missing ((x.map₂ f y).cell t i) := by
  rw [map₂, cell_ofFn]
  exact strict _ _ missing

end Panel

namespace Kernel

theorem missing_quotient (a b : Float) (missing : Missing a ∨ Missing b) :
    Missing (a / (b + divisorShift)) :=
  missing_div _ _ (missing.imp_right fun missing => missing.add_left _)

theorem missing_present (f : Float → Float → Float) (a b : Float)
    (missing : Missing a ∨ Missing b) : Missing (present f a b) := by
  have either : (Scalar.isNaN a || Scalar.isNaN b) = true := by
    rw [Bool.or_eq_true, isNaN_iff, isNaN_iff]
    exact missing
  rw [present, if_pos either]
  exact missing_nan

theorem missing_signOf (a : Float) (missing : Missing a) : Missing (signOf a) := by
  rw [signOf, if_pos ((isNaN_iff a).mpr missing)]
  exact missing_nan

/-! ## Windows and rows -/

theorem missing_rolling (w : Nat) (f : List Float → Float) {x : Panel Float periods instruments}
    (missing : Missing (x.cell t i)) : Missing ((rolling w f x).cell t i) := by
  have broken : ¬ Full (x.series i) w t := by
    intro full
    -- the window ends with the cell itself
    have finite := full.finite t le_rfl (Nat.lt_add_of_pos_right full.positive)
    rw [Panel.series_val, missing.not_finite] at finite
    cases finite
  rw [rolling_of_not_full broken]
  exact missing_nan

theorem missing_mapRows {value : List Float → Float → Float} {f : List Float → List Float}
    (cellwise : ∀ row, f row = row.map (value row))
    (strict : ∀ row v, Scalar.isFinite v = false → value row v = Scalar.nan)
    {x : Panel Float periods instruments} (missing : Missing (x.cell t i)) :
    Missing ((x.mapRows Scalar.nan f).cell t i) := by
  rw [Panel.cell_mapRows_cellwise _ cellwise, strict _ _ missing.not_finite]
  exact missing_nan

theorem missing_rank {x : Panel Float periods instruments} (missing : Missing (x.cell t i)) :
    Missing ((rank x).cell t i) :=
  missing_mapRows rankRow_eq (fun row v broken => by rw [rankCell, broken]; rfl) missing

theorem missing_zScore {x : Panel Float periods instruments} (missing : Missing (x.cell t i)) :
    Missing ((zScore x).cell t i) :=
  missing_mapRows zScoreRow_eq (fun row v broken => by rw [zScoreCell, broken]; rfl) missing

end Kernel

/-! ## Operators -/

section Operands

variable {operands : List (Panel Float periods instruments)}
  {operand : Panel Float periods instruments}

theorem exists_operand (count : operands.length = 1) (member : operand ∈ operands)
    (missing : Missing (operand.cell t i)) : ∃ x, operands = [x] ∧ Missing (x.cell t i) := by
  obtain ⟨x, rfl⟩ := List.length_eq_one_iff.mp count
  cases List.mem_singleton.mp member
  exact ⟨operand, rfl, missing⟩

theorem exists_operands (count : operands.length = 2) (member : operand ∈ operands)
    (missing : Missing (operand.cell t i)) :
    ∃ x y, operands = [x, y] ∧ (Missing (x.cell t i) ∨ Missing (y.cell t i)) := by
  obtain ⟨x, y, rfl⟩ := List.length_eq_two.mp count
  refine ⟨x, y, rfl, ?_⟩
  rcases List.mem_pair.mp member with rfl | rfl
  · exact Or.inl missing
  · exact Or.inr missing

end Operands

/-- Every operator but the gate is missing where one of its operands is. -/
theorem Operator.missing_apply (operator : Operator) (ungated : operator ≠ .gate)
    (operands : List (Panel Float periods instruments)) (count : operands.length = operator.arity)
    (value : Panel Float periods instruments) (applied : operator.apply operands = .ok value)
    (operand : Panel Float periods instruments) (member : operand ∈ operands)
    (missing : Missing (operand.cell t i)) : Missing (value.cell t i) := by
  cases operator with
  | feature name =>
    rw [List.length_eq_zero_iff.mp count] at member
    exact absurd member List.not_mem_nil
  | gate => exact absurd rfl ungated
  | add =>
    obtain ⟨x, y, rfl, either⟩ := exists_operands count member missing
    cases applied
    exact Panel.missing_map₂ missing_add either
  | sub =>
    obtain ⟨x, y, rfl, either⟩ := exists_operands count member missing
    cases applied
    exact Panel.missing_map₂ missing_sub either
  | mul =>
    obtain ⟨x, y, rfl, either⟩ := exists_operands count member missing
    cases applied
    exact Panel.missing_map₂ missing_mul either
  | div =>
    obtain ⟨x, y, rfl, either⟩ := exists_operands count member missing
    cases applied
    exact Panel.missing_map₂ Kernel.missing_quotient either
  | max | min =>
    obtain ⟨x, y, rfl, either⟩ := exists_operands count member missing
    cases applied
    exact Panel.missing_map₂ (Kernel.missing_present _) either
  | neg =>
    obtain ⟨x, rfl, missing⟩ := exists_operand count member missing
    cases applied
    exact Panel.missing_map (fun _ => Missing.neg) missing
  | abs =>
    obtain ⟨x, rfl, missing⟩ := exists_operand count member missing
    cases applied
    exact Panel.missing_map (fun _ => Missing.abs) missing
  | sign =>
    obtain ⟨x, rfl, missing⟩ := exists_operand count member missing
    cases applied
    exact Panel.missing_map Kernel.missing_signOf missing
  | rank =>
    obtain ⟨x, rfl, missing⟩ := exists_operand count member missing
    cases applied
    exact Kernel.missing_rank missing
  | zScore =>
    obtain ⟨x, rfl, missing⟩ := exists_operand count member missing
    cases applied
    exact Kernel.missing_zScore missing
  | delay | delta | mean | deviation | decay | highest =>
    obtain ⟨x, rfl, missing⟩ := exists_operand count member missing
    cases applied
    exact Kernel.missing_rolling _ _ missing

namespace Kernel

theorem gate_cell (c x y : Panel Float periods instruments) (t : Fin periods)
    (i : Fin instruments) : (gate c x y).cell t i =
      if Scalar.isNaN (c.cell t i) then Scalar.nan
      else if Scalar.lt 0 (c.cell t i) then x.cell t i else y.cell t i := by
  rw [gate, Panel.map₃, Panel.cell_ofFn, choose]

/-- A gate is missing where its condition or the selected branch is.  Where the condition is there
the gate is the selected branch; the other branch may be missing. -/
theorem gate_keeps_missing (c x y : Panel Float periods instruments) (t : Fin periods)
    (i : Fin instruments) :
    let selected := if Scalar.lt 0 (c.cell t i) then x.cell t i else y.cell t i
    (Scalar.isNaN (c.cell t i) = true ∨ Scalar.isNaN selected = true →
      Scalar.isNaN ((gate c x y).cell t i) = true) ∧
    (Scalar.isNaN (c.cell t i) = false → (gate c x y).cell t i = selected) := by
  intro selected
  rw [gate_cell]
  cases here : Scalar.isNaN (c.cell t i) with
  | true =>
    rw [if_pos rfl]
    refine ⟨fun _ => (isNaN_iff _).mpr missing_nan, ?_⟩
    intro present
    contradiction
  | false =>
    rw [if_neg Bool.false_ne_true]
    refine ⟨?_, fun _ => rfl⟩
    intro missing
    rcases missing with condition | branch
    · contradiction
    · exact branch

end Kernel

end FactorSearch
