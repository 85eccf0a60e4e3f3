import FactorSearch.Proofs.Double.Null
import FactorSearch.Proofs.Evaluation.Periods
import FactorSearch.Proofs.Statistics.Symmetry

/-!
# Flat periods

A period whose finite cells all hold one value is meant to carry no signal.  Flatness is read off
a computed deviation, so this takes the mean of the cells to come out as their value.  It does when
the sums on the way are doubles, as they are for small whole numbers, and may not otherwise: three
cells of one tenth have a mean above one tenth.  Their average ranks are half a whole number each,
so that ranked correlation always skips such a period.
-/

set_option autoImplicit false

namespace FactorSearch

/-! ## Ties -/

namespace Statistics

section Ties

variable {α : Type} [Scalar α]

theorem ascending_of_ties (entries : List (Nat × α))
    (ties : ∀ a ∈ entries, ∀ b ∈ entries, Scalar.lt a.2 b.2 = false) :
    ascending entries = entries := by
  -- each entry goes before those already there, which turns the list around
  have inserted : ∀ rest sorted : List (Nat × α),
      (∀ a ∈ rest, ∀ b ∈ sorted ++ rest, Scalar.lt a.2 b.2 = false) →
      rest.foldl (fun sorted entry => insertDescending entry sorted) sorted =
        rest.reverse ++ sorted := by
    intro rest
    induction rest with
    | nil => exact fun _ _ => rfl
    | cons first rest ih =>
      intro sorted level
      have front : insertDescending first sorted = first :: sorted := by
        cases sorted with
        | nil => rfl
        | cons head sorted =>
          have larger := level first List.mem_cons_self head (List.mem_append_left _
            List.mem_cons_self)
          rw [insertDescending, larger, if_neg Bool.false_ne_true]
      rw [List.foldl_cons, front, ih (first :: sorted), List.reverse_cons, List.append_assoc]
      · rfl
      · intro a member b other
        apply level a (List.mem_cons_of_mem _ member) b
        simp only [List.mem_append, List.mem_cons] at other ⊢
        tauto
  rw [ascending, inserted entries [] (by simpa using ties), List.append_nil, List.reverse_reverse]

theorem shareRanks_of_ties (entries : List (Nat × α))
    (ties : ∀ a ∈ entries, ∀ b ∈ entries, Scalar.same a.2 b.2 = true) :
    shareRanks 0 entries =
      entries.map fun entry => (entry.1, Scalar.ofNat (entries.length + 1) / 2) := by
  cases entries with
  | nil => rw [shareRanks, List.map_nil]
  | cons head rest =>
    have level : ∀ entry ∈ rest, Scalar.same entry.2 head.2 = true := fun entry member =>
      ties entry (List.mem_cons_of_mem _ member) head List.mem_cons_self
    have group : rest.takeWhile (fun entry => Scalar.same entry.2 head.2) = rest :=
      List.takeWhile_eq_self_iff.mpr level
    have after : rest.dropWhile (fun entry => Scalar.same entry.2 head.2) = [] :=
      List.dropWhile_eq_nil_iff.mpr level
    have places : 0 + 1 + (0 + 1 + rest.length) = (head :: rest).length + 1 := by
      rw [List.length_cons]
      omega
    rw [shareRanks]
    simp only [group, after, places]
    rw [shareRanks, List.append_nil]

theorem averageRanks_of_ties (values : List α)
    (apart : ∀ x ∈ values, ∀ y ∈ values, Scalar.lt x y = false)
    (ties : ∀ x ∈ values, ∀ y ∈ values, Scalar.same x y = true) :
    averageRanks values =
      List.replicate values.length (Scalar.ofNat (values.length + 1) / 2) := by
  have entry {a : Nat × α} (member : a ∈ (List.range values.length).zip values) :
      a.2 ∈ values := (List.of_mem_zip member).2
  have length : ((List.range values.length).zip values).length = values.length := by
    rw [List.length_zip, List.length_range, Nat.min_self]
  have places : ((List.range values.length).zip values).map Prod.fst =
      List.range values.length := by
    rw [List.map_fst_zip]
    rw [List.length_range]
  have shared : shareRanks 0 ((List.range values.length).zip values) =
      (List.range values.length).map fun i => (i, Scalar.ofNat (values.length + 1) / 2) := by
    rw [shareRanks_of_ties _ fun a one b two => ties _ (entry one) _ (entry two), length]
    conv_rhs => rw [← places, List.map_map]
    rfl
  rw [averageRanks, ascending_of_ties _ fun a one b two => apart _ (entry one) _ (entry two),
    shared, ← List.length_range (n := values.length), ← List.map_const', List.length_range]
  apply List.map_congr_left
  intro i inside
  rw [List.lookup_graph _ inside, Option.getD_some]

end Ties

theorem firsts_of_zip {β γ : Type} (x : List β) (y : List γ) : (x.zip y).map Prod.fst <+: x := by
  induction x generalizing y with
  | nil => exact List.prefix_rfl
  | cons first x ih =>
    cases y with
    | nil => exact List.nil_prefix
    | cons other y => exact (List.prefix_cons_inj first).mpr (ih y)

/-! ## Level values -/

open Double

/-- Finite values of one size. -/
def Level (q : ℚ) (values : List Float) : Prop :=
  ∀ x ∈ values, Scalar.isFinite x = true ∧ value x = q

namespace Level

variable {q : ℚ} {values : List Float}

theorem total (level : Level q values) (some : q ≠ 0)
    (multiples : ∀ k ≤ values.length, IsDouble (k * q)) :
    Scalar.isFinite (Scalar.total values) = true ∧
      value (Scalar.total values) = values.length * q := by
  -- sums run from the left, so that each one is the multiple of the sum before and the last value
  induction values using List.reverseRecOn with
  | nil =>
    rw [List.length_nil, Nat.cast_zero, zero_mul]
    exact ⟨rfl, rfl⟩
  | append_singleton front last ih =>
    rw [List.length_append, List.length_singleton] at multiples ⊢
    obtain ⟨finite, sum⟩ := ih (fun x member => level x (List.mem_append_left _ member))
      (fun k few => multiples k (by omega))
    obtain ⟨final, size⟩ := level last (List.mem_append_right _ List.mem_cons_self)
    obtain ⟨w, real, meant⟩ := multiples (front.length + 1) le_rfl
    have nonzero : value w ≠ 0 := by
      rw [meant]
      exact mul_ne_zero (Nat.cast_ne_zero.mpr (Nat.succ_ne_zero _)) some
    have step : Scalar.total (front ++ [last]) = Scalar.total front + last := List.foldl_append ..
    have next : Scalar.total front + last = w := by
      apply add_exact finite final nonzero
      rw [meant, sum, size]
      push_cast
      ring
    rw [step, next]
    exact ⟨real, meant⟩

/-- The mean of nonzero values is one of them. -/
theorem mean (level : Level q values) (some : q ≠ 0)
    (multiples : ∀ k ≤ values.length, IsDouble (k * q)) {x : Float} (member : x ∈ values) :
    Statistics.mean values = x := by
  obtain ⟨finite, size⟩ := level x member
  have nonempty : values.isEmpty = false :=
    List.isEmpty_eq_false_iff_exists_mem.mpr ⟨x, member⟩
  have positive : 0 < values.length := List.length_pos_of_mem member
  have nonzero : value x ≠ 0 := size ▸ some
  have few : values.length ≤ 2 ^ 53 := count_le_of_multiples nonzero (size ▸ multiples)
  have count := value_ofNat values.length positive few
  rw [Statistics.mean, nonempty, if_neg Bool.false_ne_true]
  apply div_exact (unsigned_ofNat _) nonzero
  · rw [count]
    exact_mod_cast positive.ne'
  · rw [(level.total some multiples).2, count, size, mul_comm]

theorem distance (level : Level q values)
    (multiples : ∀ k ≤ values.length, IsDouble (k * q)) {x : Float} (member : x ∈ values) :
    Null (x - Statistics.mean values) := by
  by_cases some : q = 0
  · have nulls : ∀ y ∈ values, Null y := fun y inside =>
      null_of_value (level y inside).1 ((level y inside).2.trans some)
    apply (nulls x member).sub
    rw [Statistics.mean]
    split
    · exact null_zero
    · exact (Null.total values nulls).div_left _
  · rw [level.mean some multiples member]
    exact null_sub_self (level x member).1

theorem deviation (level : Level q values)
    (multiples : ∀ k ≤ values.length, IsDouble (k * q)) :
    Null (Statistics.deviation values) := by
  rw [Statistics.deviation]
  split
  · exact null_zero
  · refine ((Null.total _ ?_).div_left _).sqrt
    intro y member
    obtain ⟨x, inside, rfl⟩ := List.mem_map.mp member
    exact (level.distance multiples inside).mul_left _

theorem pearson {x y : List Float} (level : Level q x)
    (multiples : ∀ k ≤ x.length, IsDouble (k * q)) : Statistics.pearson x y = none := by
  have front := firsts_of_zip x y
  have firsts : Level q ((x.zip y).map Prod.fst) := fun z member =>
    level z (front.subset member)
  have sums : ∀ k ≤ ((x.zip y).map Prod.fst).length, IsDouble (k * q) := fun k few =>
    multiples k (few.trans front.length_le)
  rw [Statistics.pearson]
  dsimp only
  split
  · rfl
  · rename_i many
    have nonempty : ¬ ((x.zip y).map Prod.fst).isEmpty = true := by
      rw [List.isEmpty_iff_length_eq_zero, List.length_map]
      omega
    have center : Scalar.total ((x.zip y).map Prod.fst) / Scalar.ofNat (x.zip y).length =
        Statistics.mean ((x.zip y).map Prod.fst) := by
      rw [Statistics.mean, if_neg nonempty, List.length_map]
    rw [center]
    have spread : Null (Scalar.total ((x.zip y).map fun p =>
        (p.1 - Statistics.mean ((x.zip y).map Prod.fst)) *
          (p.1 - Statistics.mean ((x.zip y).map Prod.fst)))) := by
      apply Null.total
      intro z member
      obtain ⟨p, inside, rfl⟩ := List.mem_map.mp member
      exact (firsts.distance sums (List.mem_map_of_mem inside)).mul_left _
    rw [(spread.mul_left _).sqrt.not_positive, Bool.false_and, if_neg Bool.false_ne_true]

theorem spearman {x y : List Float} (level : Level q x)
    (few : x.length * (x.length + 1) < 2 ^ 53) : Statistics.spearman x y = none := by
  have ties : ∀ a ∈ x, ∀ b ∈ x, Scalar.same a b = true := fun a one b two =>
    same_of_value (level a one).1 (level b two).1 ((level a one).2.trans (level b two).2.symm)
  rw [Statistics.spearman, averageRanks_of_ties x
    (fun a one b two => not_lt_of_same (ties a one b two)) ties]
  have halves (n : Nat) (small : n < 2 ^ 53) : IsDouble (n / 2) := by
    have double := isDouble_of_small (i := -1) small (by omega) (by omega)
    rwa [zpow_neg_one, ← div_eq_mul_inv] at double
  rcases Nat.eq_zero_or_pos x.length with none | positive
  · rw [none]
    rfl
  have small : x.length + 1 < 2 ^ 53 := (Nat.le_mul_of_pos_left _ positive).trans_lt few
  apply Level.pearson (q := (x.length + 1 : Nat) / 2)
  · intro z member
    rw [List.eq_of_mem_replicate member]
    exact half_exact (x.length + 1) (Nat.succ_pos _) small
  · intro k most
    rw [List.length_replicate] at most
    have product : k * (x.length + 1) < 2 ^ 53 :=
      (Nat.mul_le_mul_right _ most).trans_lt few
    have double := halves _ product
    rwa [Nat.cast_mul, mul_div_assoc] at double

end Level

theorem usablePairs_sublist (factor forward : List Float) :
    ((usablePairs factor forward).map Prod.fst).Sublist (Kernel.finiteCells factor) := by
  have narrower : (usablePairs factor forward).Sublist
      ((factor.zip forward).filter fun p => Scalar.isFinite p.1) := by
    apply List.monotone_filter_right
    intro p usable
    rw [Bool.and_eq_true] at usable
    exact usable.1
  refine (narrower.map Prod.fst).trans ?_
  have cells : ((factor.zip forward).filter fun p => Scalar.isFinite p.1).map Prod.fst =
      Kernel.finiteCells ((factor.zip forward).map Prod.fst) := by
    rw [Kernel.finiteCells, List.filter_map]
    rfl
  rw [cells]
  exact (firsts_of_zip factor forward).sublist.filter _

end Statistics

/-! ## Panels -/

namespace Backtest

open Double Statistics

variable {periods instruments : Nat}

theorem zScore_cell (factor : Panel Float periods instruments) (t : Fin periods)
    (i : Fin instruments)
    (level : Null (Statistics.deviation (Kernel.finiteCells (factor.row t)))) :
    (Kernel.zScore factor).cell t i =
      if Scalar.isFinite (factor.cell t i) then 0 else Scalar.nan := by
  rw [Kernel.zScore, Panel.cell_mapRows_cellwise _ Kernel.zScoreRow_eq, Kernel.zScoreCell,
    level.not_positive]
  rfl

theorem positionOf_silent (threshold : Float) (nonnegative : Scalar.le 0 threshold = true)
    (finite : Bool) : positionOf threshold (if finite then 0 else Scalar.nan) = 0 := by
  cases finite with
  | true =>
    have magnitude : Scalar.abs (0 : Float) = 0 := rfl
    have small : Scalar.lt threshold (Scalar.abs 0) = false := by
      rw [magnitude]
      exact not_lt_zero_of_nonnegative nonnegative
    rw [if_pos rfl, positionOf, small, Bool.and_false, if_neg Bool.false_ne_true]
  | false =>
    have missing : Scalar.isFinite (Scalar.nan : Float) = false := rfl
    rw [if_neg Bool.false_ne_true, positionOf, missing, Bool.false_and,
      if_neg Bool.false_ne_true]

/-- Where the finite cells of a period hold one value whose multiples, up to the number of cells,
are doubles, the period has no z-scores but zeros, no positions and no plain correlation with any
returns.  Whatever the value, the period has no ranked correlation. -/
theorem flat_period_silent (settings : RewardSettings Float)
    (factor : Panel Float periods instruments) (t : Fin periods) (v : Float)
    (flat : ∀ i, Scalar.isFinite (factor.cell t i) = true →
      Scalar.same (factor.cell t i) v = true)
    (threshold : Scalar.le 0 settings.signalThreshold = true) (count : Nat)
    (cells : (Kernel.finiteCells (factor.row t)).length = count) :
    ((∀ k : Nat, k ≤ count → IsDouble (k * value v)) →
      (∀ i, Scalar.isFinite (factor.cell t i) = true → (Kernel.zScore factor).cell t i = 0) ∧
      (∀ i, (positions settings factor).cell t i = 0) ∧
      ∀ forward, rowCorrelation false (factor.row t) forward = none) ∧
    (count * (count + 1) < 2 ^ 53 →
      ∀ forward, rowCorrelation true (factor.row t) forward = none) := by
  subst cells
  have level : Level (value v) (Kernel.finiteCells (factor.row t)) := by
    intro x member
    obtain ⟨inside, known⟩ := List.mem_filter.mp member
    obtain ⟨i, rfl⟩ := factor.exists_cell t x inside
    exact ⟨known, value_eq_of_same (flat i known)⟩
  have usable (forward : List Float) :
      Level (value v) ((usablePairs (factor.row t) forward).map Prod.fst) :=
    fun x member => level x ((usablePairs_sublist _ _).subset member)
  have fewer (forward : List Float) : ((usablePairs (factor.row t) forward).map Prod.fst).length ≤
      (Kernel.finiteCells (factor.row t)).length := (usablePairs_sublist _ _).length_le
  refine ⟨fun multiples => ⟨?_, ?_, ?_⟩, ?_⟩
  · intro i known
    rw [zScore_cell factor t i (level.deviation multiples), if_pos known]
  · intro i
    rw [positions, Panel.map, Panel.cell_ofFn, zScore_cell factor t i (level.deviation multiples)]
    exact positionOf_silent _ threshold _
  · intro forward
    rw [rowCorrelation, if_neg Bool.false_ne_true]
    exact (usable forward).pearson fun k few => multiples k (few.trans (fewer forward))
  · intro small forward
    rw [rowCorrelation, if_pos rfl]
    apply (usable forward).spearman
    exact (Nat.mul_le_mul (fewer forward) (Nat.succ_le_succ (fewer forward))).trans_lt small

def threes : Panel Float 1 4 := ⟨#v[#v[3, 3, Scalar.nan, 3]]⟩

theorem threes_silent :
    (∀ i, Scalar.isFinite (threes.cell 0 i) = true → Scalar.same (threes.cell 0 i) 3 = true) ∧
    Scalar.le 0 (RewardSettings.defaults : RewardSettings Float).signalThreshold = true ∧
    (Kernel.finiteCells (threes.row 0)).length = 3 ∧
    (∀ k : Nat, k ≤ 3 → IsDouble (k * value 3)) ∧
    (∀ i, Scalar.isFinite (threes.cell 0 i) = true → (Kernel.zScore threes).cell 0 i = 0) ∧
    (∀ i, (positions .defaults threes).cell 0 i = 0) ∧
    (∀ forward, rowCorrelation false (threes.row 0) forward = none) ∧
    ∀ forward, rowCorrelation true (threes.row 0) forward = none := by
  have flat : ∀ i, Scalar.isFinite (threes.cell 0 i) = true →
      Scalar.same (threes.cell 0 i) 3 = true := by decide +kernel
  have threshold : Scalar.le 0 (RewardSettings.defaults : RewardSettings Float).signalThreshold =
      true := by decide +kernel
  have cells : (Kernel.finiteCells (threes.row 0)).length = 3 := by decide +kernel
  have multiples : ∀ k : Nat, k ≤ 3 → IsDouble (k * value 3) := by
    intro k few
    have three : value 3 = (3 : Nat) := value_ofNat 3 (by omega) (by omega)
    have double := isDouble_of_small (n := k * 3) (i := 0) (by omega) (by omega) (by omega)
    rwa [zpow_zero, mul_one, Nat.cast_mul, ← three] at double
  obtain ⟨plain, ranked⟩ := flat_period_silent .defaults threes 0 3 flat threshold 3 cells
  obtain ⟨scores, idle, skipped⟩ := plain multiples
  exact ⟨flat, threshold, cells, multiples, scores, idle, skipped, ranked (by omega)⟩

def tenths : Panel Float 1 3 := ⟨#v[#v[0.1, 0.1, 0.1]]⟩

/-- Three cells of one tenth are each one deviation below their mean, which takes a short position
in every instrument, and they have a correlation. -/
theorem tenths_not_silent :
    (∀ i, Scalar.isFinite (tenths.cell 0 i) = true ∧ Scalar.same (tenths.cell 0 i) 0.1 = true) ∧
    Scalar.le 0 (RewardSettings.defaults : RewardSettings Float).signalThreshold = true ∧
    (∀ i, Scalar.same ((Kernel.zScore tenths).cell 0 i) (-1) = true) ∧
    (∀ i, Scalar.same ((positions .defaults tenths).cell 0 i) (-1) = true) ∧
    (rowCorrelation false (tenths.row 0) [0.01, 0.02, 0.04]).isSome = true := by
  decide +kernel

end Backtest

end FactorSearch
