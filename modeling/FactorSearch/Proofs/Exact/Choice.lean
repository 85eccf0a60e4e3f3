import Mathlib
import FactorSearch.Proofs.Exact.Scalar
import FactorSearch.Sampling.Choice

/-!
# Weighted choice

A choice among weights is sound if it picks only indices of positive weight, and refuses only
weights that it cannot use.  In exact arithmetic the point that a word picks lies below the total of
the weights, so the weight that covers it is positive, and the choice by words is sound.
-/

set_option autoImplicit false

namespace FactorSearch

theorem WordStream.unit_real (word : UInt64) :
    0 ≤ (WordStream.unit word : ℝ) ∧ (WordStream.unit word : ℝ) < 1 := by
  have bound : (word >>> 12).toNat < 2 ^ 52 := by
    have size := word.toNat_lt
    have shift : (12 : UInt64).toNat % 64 = 12 := rfl
    rw [UInt64.toNat_shiftRight, shift, Nat.shiftRight_eq_div_pow]
    omega
  have spelled : (WordStream.unit word : ℝ) = ((word >>> 12).toNat : ℝ) / ((2 ^ 52 : Nat) : ℝ) :=
    rfl
  have positive : (0 : ℝ) < ((2 ^ 52 : Nat) : ℝ) := Nat.cast_pos.mpr (Nat.two_pow_pos 52)
  rw [spelled]
  exact ⟨div_nonneg (Nat.cast_nonneg _) positive.le,
    (div_lt_one positive).mpr (Nat.cast_lt.mpr bound)⟩

namespace Choice

section Sound

variable {α : Type} [Scalar α]

/-- Only indices of positive weight are picked. -/
structure Faithful (pick : List α → UInt64 → Result Nat) : Prop where
  positive : ∀ weights word index, pick weights word = .ok index →
    ∃ weight, weights[index]? = some weight ∧ Scalar.lt 0 weight = true

/-- Weights that no index can be drawn among, with the failure that says why. -/
inductive Unusable (weights : List α) : Failure → Prop where
  | empty (none : weights = []) : Unusable weights (.internal .noWeights)
  | invalid (weight : α) (member : weight ∈ weights) (refused : Scalar.le 0 weight = false) :
      Unusable weights (.internal .invalidWeight)
  | zero (nothing : Scalar.same (Scalar.total weights) 0 = true) :
      Unusable weights (.internal .zeroWeights)

structure Sound (pick : List α → UInt64 → Result Nat) : Prop extends Faithful pick where
  refusal : ∀ weights word failure, pick weights word = .error failure → Unusable weights failure

theorem unusable_of_draw (weights : List α) (word : UInt64) (failure : Failure)
    (refused : draw weights word = .error failure) : Unusable weights failure := by
  simp only [draw] at refused
  split at refused
  · rename_i none
    cases refused
    exact .empty (List.isEmpty_iff.mp none)
  · split at refused
    · rename_i invalid
      cases refused
      obtain ⟨weight, member, below⟩ := List.any_eq_true.mp invalid
      exact .invalid weight member (by simpa using below)
    · split at refused
      · rename_i nothing
        cases refused
        exact .zero nothing
      · cases refused

end Sound

theorem countPassed_of_lt (target start : ℝ) (weights : List ℝ)
    (nonneg : ∀ weight ∈ weights, 0 ≤ weight) (before : target < start) :
    countPassed target start weights = 0 := by
  induction weights generalizing start with
  | nil => rfl
  | cons first rest ih =>
    cases rest with
    | nil => rfl
    | cons second rest =>
      have further : target < start + first :=
        before.trans_le (le_add_of_nonneg_right (nonneg first List.mem_cons_self))
      rw [countPassed, ih (start + first) (fun w member => nonneg w (List.mem_cons_of_mem _ member))
        further, Scalar.le_real, decide_eq_false (not_le.mpr further)]
      · rfl
      · exact nofun

theorem countPassed_positive (target start : ℝ) (weights : List ℝ)
    (nonneg : ∀ weight ∈ weights, 0 ≤ weight) (after : start ≤ target)
    (before : target < start + weights.sum) :
    ∃ weight, weights[countPassed target start weights]? = some weight ∧ 0 < weight := by
  induction weights generalizing start with
  | nil =>
    rw [List.sum_nil, add_zero] at before
    exact absurd after (not_le.mpr before)
  | cons first rest ih =>
    have others : ∀ weight ∈ rest, 0 ≤ weight :=
      fun weight member => nonneg weight (List.mem_cons_of_mem _ member)
    rw [List.sum_cons, ← add_assoc] at before
    cases rest with
    | nil =>
      rw [List.sum_nil, add_zero] at before
      exact ⟨first, rfl, by linarith⟩
    | cons second rest =>
      rw [countPassed, Scalar.le_real]
      · by_cases passed : start + first ≤ target
        · obtain ⟨weight, here, positive⟩ := ih (start + first) others passed before
          refine ⟨weight, ?_, positive⟩
          rw [decide_eq_true passed, if_pos rfl, Nat.add_comm, List.getElem?_cons_succ]
          exact here
        · have covered := not_le.mp passed
          refine ⟨first, ?_, by linarith⟩
          rw [decide_eq_false passed, countPassed_of_lt _ _ _ others covered]
          rfl
      · exact nofun

theorem draw_sound : Sound (draw (α := ℝ)) := by
  refine ⟨⟨?positive⟩, unusable_of_draw⟩
  case positive =>
    intro weights word index picked
    simp only [draw, Scalar.le_real, Scalar.same_real, Scalar.zero_real,
      Scalar.total_real] at picked
    split at picked
    · contradiction
    · split at picked
      · contradiction
      · rename_i allowed
        split at picked
        · contradiction
        · rename_i some
          cases Except.ok.inj picked
          have nonneg : ∀ weight ∈ weights, 0 ≤ weight := by
            intro weight member
            by_contra negative
            exact allowed (List.any_eq_true.mpr ⟨weight, member, by simpa using negative⟩)
          have total : 0 < weights.sum :=
            lt_of_le_of_ne (List.sum_nonneg nonneg) fun zero => some (decide_eq_true zero.symm)
          obtain ⟨low, high⟩ := WordStream.unit_real word
          obtain ⟨weight, here, positive⟩ := countPassed_positive
            (WordStream.unit word * weights.sum) 0 weights nonneg (mul_nonneg low total.le)
            (by rw [zero_add]; exact mul_lt_of_lt_one_left total high)
          refine ⟨weight, here, ?_⟩
          rw [Scalar.lt_real, Scalar.zero_real]
          exact decide_eq_true positive

theorem countPassed_zero (weights : List ℝ) (nonneg : ∀ weight ∈ weights, 0 ≤ weight)
    (index : Nat) (before : ∀ i < index, weights[i]? = some 0)
    (here : ∃ weight, weights[index]? = some weight ∧ 0 < weight) :
    countPassed 0 0 weights = index := by
  obtain ⟨weight, found, positive⟩ := here
  induction weights generalizing index with
  | nil => cases found
  | cons first rest ih =>
    have others : ∀ w ∈ rest, 0 ≤ w := fun w member => nonneg w (List.mem_cons_of_mem _ member)
    cases index with
    | zero =>
      cases Option.some.inj found
      cases rest with
      | nil => rfl
      | cons second rest =>
        rw [countPassed, zero_add, Scalar.le_real, decide_eq_false (not_le.mpr positive),
          countPassed_of_lt _ _ _ others positive]
        · rfl
        · exact nofun
    | succ index =>
      have zero : first = 0 := Option.some.inj (before 0 (Nat.zero_lt_succ index))
      have later := ih others index (fun i below => before (i + 1) (Nat.succ_lt_succ below)) found
      cases rest with
      | nil => cases found
      | cons second rest =>
        rw [countPassed, zero, zero_add, Scalar.le_real, decide_eq_true le_rfl, later, if_pos rfl,
          Nat.add_comm]
        exact nofun

theorem draw_zero (weights : List ℝ) (nonneg : ∀ weight ∈ weights, 0 ≤ weight) (index : Nat)
    (before : ∀ i < index, weights[i]? = some 0)
    (here : ∃ weight, weights[index]? = some weight ∧ 0 < weight) :
    draw weights 0 = .ok index := by
  obtain ⟨weight, found, positive⟩ := here
  have member := List.mem_of_getElem? found
  have total : weights.sum ≠ 0 :=
    (positive.trans_le (List.single_le_sum nonneg weight member)).ne'
  have allowed : (weights.any fun w => !Scalar.le 0 w) = false := by
    rw [List.any_eq_false]
    intro w inside
    simpa using nonneg w inside
  have origin : (WordStream.unit 0 : ℝ) * weights.sum = 0 := by
    simp [WordStream.unit]
  have empty : weights.isEmpty = false := by
    rw [List.isEmpty_eq_false_iff]
    exact List.ne_nil_of_mem member
  simp only [draw, empty, allowed, Scalar.total_real, Scalar.zero_real, Scalar.same_real, total,
    origin, countPassed_zero weights nonneg index before ⟨weight, found, positive⟩,
    Bool.false_eq_true, if_false, decide_false]

end Choice

end FactorSearch
