import FactorSearch.Proofs.Decoding.ClosingCost
import Mathlib

/-!
# Closing costs are shortest

A run of tokens that closes a stack can be put in an order that stays inside the table: a token that
reduces comes as soon as the stack can take it, and a leaf comes only while some token still waits
for more values.  The order does not matter for the depth that a run ends in.  So the depths that
the table leaves out do not shorten anything, and an entry is the length of a shortest run.
-/

set_option autoImplicit false

namespace FactorSearch

namespace Decoding

/-- The numbers of tokens with which a stack of `depth` values can be taken to exactly one value.
The depths on the way have no limit. -/
def closingLengths (arities : List Nat) (depth : Nat) : Set Nat :=
  {count | ∃ tokens : List Nat, tokens.length = count ∧ (∀ arity ∈ tokens, arity ∈ arities) ∧
    tokens.foldlM depthAfter? depth = some 1}

def IsSmallest (numbers : Set Nat) : Option Nat → Prop
  | none => numbers = ∅
  | some least => IsLeast numbers least

theorem IsSmallest.unique {numbers : Set Nat} {first second : Option Nat}
    (left : IsSmallest numbers first) (right : IsSmallest numbers second) : first = second := by
  cases first with
  | none =>
    cases second with
    | none => rfl
    | some least => exact absurd right.1 (left ▸ Set.notMem_empty least)
  | some least =>
    cases second with
    | none => exact absurd left.1 (right ▸ Set.notMem_empty least)
    | some other => exact congrArg some (IsLeast.unique left right)

/-! ## Putting a run in order -/

theorem depth_add_length (tokens : List Nat) (depth final : Nat)
    (run : tokens.foldlM depthAfter? depth = some final) :
    depth + tokens.length = tokens.sum + final := by
  induction tokens generalizing depth with
  | nil =>
    cases Option.some.inj run
    simp
  | cons arity rest ih =>
    rw [List.foldlM_cons] at run
    obtain ⟨next, step, later⟩ := Option.bind_eq_some_iff.mp run
    have taken := (depthAfter?_eq_some_iff ..).mp step
    have ended := ih next later
    simp only [List.length_cons, List.sum_cons]
    omega

variable {arities : List Nat} {limit depth : Nat}

/-- Some token of a run can come first without going above the limit. -/
theorem exists_first (tokens : List Nat) (balanced : depth + tokens.length = tokens.sum + 1)
    (fits : ∀ arity ∈ tokens, arity ≤ limit) (several : 1 < depth) (inside : depth ≤ limit) :
    ∃ arity ∈ tokens, arity ≤ depth ∧ depth - arity + 1 ≤ limit := by
  by_cases reducing : ∃ arity ∈ tokens, 1 < arity ∧ arity ≤ depth
  · obtain ⟨arity, member, wide, taken⟩ := reducing
    exact ⟨arity, member, taken, by omega⟩
  simp only [not_exists, not_and, not_le] at reducing
  -- a token that reduces waits for more values, so there is a leaf and room for it
  have waiting : ∃ arity ∈ tokens, depth < arity := by
    by_contra none
    simp only [not_exists, not_and, not_lt] at none
    have narrow : ∀ arity ∈ tokens, arity ≤ 1 := fun arity member =>
      not_lt.mp fun wide => absurd (reducing arity member wide) (not_lt.mpr (none arity member))
    have most := List.sum_le_card_nsmul tokens 1 narrow
    rw [smul_eq_mul] at most
    omega
  obtain ⟨wide, waits, above⟩ := waiting
  have leaf : 0 ∈ tokens := by
    by_contra none
    have others : ∀ arity ∈ tokens.erase wide, 1 ≤ arity := by
      intro arity member
      refine Nat.one_le_iff_ne_zero.mpr ?_
      rintro rfl
      exact none (List.mem_of_mem_erase member)
    have least := List.length_le_sum_of_one_le _ others
    have count := List.length_erase_of_mem waits
    have total := List.sum_erase waits
    have some := List.length_pos_of_mem waits
    omega
  have room := fits wide waits
  exact ⟨0, leaf, Nat.zero_le _, by omega⟩

/-- A balanced run can be put in an order that stays inside the limit, and stops once one value is
left. -/
theorem exists_closes (fits : ∀ arity ∈ arities, arity ≤ limit) (tokens : List Nat)
    (known : ∀ arity ∈ tokens, arity ∈ arities)
    (balanced : depth + tokens.length = tokens.sum + 1) (positive : 1 ≤ depth)
    (inside : depth ≤ limit) : ∃ count ≤ tokens.length, Closes arities limit depth count := by
  induction size : tokens.length generalizing tokens depth with
  | zero =>
    cases List.length_eq_zero_iff.mp size
    have one : depth = 1 := by simpa using balanced
    subst one
    exact ⟨0, Nat.le_refl _, .done⟩
  | succ size ih =>
    rcases positive.eq_or_lt with one | several
    · subst one
      exact ⟨0, Nat.zero_le _, .done⟩
    · obtain ⟨arity, member, taken, below⟩ := exists_first tokens balanced
        (fun arity member => fits arity (known arity member)) several inside
      have count := List.length_erase_of_mem member
      have total := List.sum_erase member
      obtain ⟨few, fewer, closes⟩ := ih (tokens.erase arity)
        (fun other later => known other (List.mem_of_mem_erase later))
        (by omega) (by omega) below (by omega)
      exact ⟨few + 1, by omega,
        .token (known arity member) ((depthAfter?_eq_some_iff ..).mpr ⟨taken, rfl⟩) below closes⟩

theorem Closes.mem_closingLengths {count : Nat} (closes : Closes arities limit depth count) :
    count ∈ closingLengths arities depth := by
  induction closes with
  | done => exact ⟨[], rfl, nofun, rfl⟩
  | @token depth arity next count member step inside rest ih =>
    obtain ⟨tokens, rfl, known, run⟩ := ih
    refine ⟨arity :: tokens, rfl, List.forall_mem_cons.mpr ⟨member, known⟩, ?_⟩
    rw [List.foldlM_cons, step]
    exact run

theorem isSmallest_closingLengths_iff (fits : ∀ arity ∈ arities, arity ≤ limit)
    (positive : 1 ≤ depth) (inside : depth ≤ limit) (entry : Option Nat) :
    IsSmallest (closingLengths arities depth) entry ↔
      IsSmallest {count | Closes arities limit depth count} entry := by
  have shorter : ∀ count ∈ closingLengths arities depth,
      ∃ few ≤ count, Closes arities limit depth few := by
    rintro _ ⟨tokens, rfl, known, run⟩
    exact exists_closes fits tokens known (depth_add_length tokens depth 1 run) positive inside
  cases entry with
  | none =>
    simp only [IsSmallest, Set.eq_empty_iff_forall_notMem]
    constructor
    · exact fun nothing count closes => nothing count closes.mem_closingLengths
    · intro nothing count member
      obtain ⟨few, -, closes⟩ := shorter count member
      exact nothing few closes
  | some least =>
    constructor
    · rintro ⟨member, lower⟩
      obtain ⟨few, fewer, closes⟩ := shorter least member
      cases fewer.antisymm (lower closes.mem_closingLengths)
      exact ⟨closes, fun count other => lower other.mem_closingLengths⟩
    · rintro ⟨closes, lower⟩
      refine ⟨closes.mem_closingLengths, fun count member => ?_⟩
      obtain ⟨few, fewer, other⟩ := shorter count member
      exact (lower other).trans fewer

/-! ## Shortest runs visit a depth once -/

theorem isLeast_next {count : Nat}
    (least : IsLeast {count | Closes arities limit depth count} (count + 1)) :
    ∃ next, 1 ≤ next ∧ next ≤ limit ∧ IsLeast {count | Closes arities limit next count} count := by
  obtain ⟨closes, lower⟩ := least
  cases closes with
  | @token _ arity next _ member step inside rest =>
    have fresh := ((depthAfter?_eq_some_iff ..).mp step).2
    refine ⟨next, by omega, inside, rest, fun other closes => ?_⟩
    exact Nat.le_of_succ_le_succ (lower (.token member step inside closes))

/-- Every smaller number is the shortest from some depth. -/
theorem exists_isLeast {count : Nat} (positive : 1 ≤ depth) (inside : depth ≤ limit)
    (least : IsLeast {count | Closes arities limit depth count} count) (fewer : Nat)
    (few : fewer ≤ count) :
    ∃ other, 1 ≤ other ∧ other ≤ limit ∧
      IsLeast {count | Closes arities limit other count} fewer := by
  induction count generalizing depth with
  | zero =>
    cases Nat.le_zero.mp few
    exact ⟨depth, positive, inside, least⟩
  | succ count ih =>
    rcases few.eq_or_lt with rfl | less
    · exact ⟨depth, positive, inside, least⟩
    · obtain ⟨next, fresh, below, shorter⟩ := isLeast_next least
      exact ih fresh below shorter (Nat.le_of_lt_succ less)

/-- Different lengths are shortest from different depths, and there are as many depths as the limit
says. -/
theorem count_lt_limit {count : Nat} (positive : 1 ≤ depth) (inside : depth ≤ limit)
    (least : IsLeast {count | Closes arities limit depth count} count) : count < limit := by
  have covered : Finset.range (count + 1) ⊆
      (Finset.Icc 1 limit).image fun other => sInf {count | Closes arities limit other count} := by
    intro fewer member
    obtain ⟨other, above, below, shortest⟩ := exists_isLeast positive inside least fewer
      (Nat.le_of_lt_succ (Finset.mem_range.mp member))
    exact Finset.mem_image.mpr ⟨other, Finset.mem_Icc.mpr ⟨above, below⟩, shortest.csInf_eq⟩
  have counted := (Finset.card_le_card covered).trans Finset.card_image_le
  rw [Finset.card_range, Nat.card_Icc] at counted
  omega

/-! ## The table -/

/-- An entry that runs attain, and that no short run undercuts, is the smallest length. -/
theorem isSmallest_of_attained {entry : Option Nat} (positive : 1 ≤ depth) (inside : depth ≤ limit)
    (attained : ∀ cost, entry = some cost → Closes arities limit depth cost)
    (least : ∀ count < limit, Closes arities limit depth count →
      ∃ cost ≤ count, entry = some cost) :
    IsSmallest {count | Closes arities limit depth count} entry := by
  have undercut (count : Nat) (closes : Closes arities limit depth count) :
      ∃ cost ≤ count, entry = some cost := by
    have shortest : IsLeast {count | Closes arities limit depth count} (sInf _) :=
      ⟨Nat.sInf_mem ⟨count, closes⟩, fun _ other => Nat.sInf_le other⟩
    obtain ⟨cost, small, found⟩ :=
      least _ (count_lt_limit positive inside shortest) shortest.1
    exact ⟨cost, small.trans (shortest.2 closes), found⟩
  cases entry with
  | none =>
    refine Set.eq_empty_iff_forall_notMem.mpr fun count closes => ?_
    obtain ⟨cost, -, found⟩ := undercut count closes
    cases found
  | some cost =>
    refine ⟨attained cost rfl, fun count closes => ?_⟩
    obtain ⟨_, small, found⟩ := undercut count closes
    cases found
    exact small

theorem closingCosts_isSmallest (arities : List Nat) (positive : 1 ≤ depth)
    (inside : depth ≤ limit) :
    ∃ entry, (closingCosts arities limit)[depth]? = some entry ∧
      IsSmallest {count | Closes arities limit depth count} entry := by
  have relaxed := closingCosts_relaxed arities limit
  have within : depth < (closingCosts arities limit).size := by
    rw [relaxed.size]
    omega
  have stored := Array.getElem?_eq_getElem within
  refine ⟨_, stored, isSmallest_of_attained positive inside (fun cost found => ?_) ?_⟩
  · rw [found] at stored
    exact relaxed.attained depth cost stored
  · intro count few closes
    obtain ⟨cost, small, found⟩ :=
      relaxed.least depth count positive inside closes (by omega)
    rw [stored] at found
    exact ⟨cost, small, Option.some.inj found⟩

theorem closingCosts_zero (arities : List Nat) (limit : Nat) :
    (closingCosts arities limit)[0]? = some none := by
  have kept (fuel : Nat) (table : Array (Option Nat)) :
      (relaxUntilStable arities fuel table)[0]? = table[0]? := by
    induction fuel generalizing table with
    | zero => rfl
    | succ fuel ih =>
      simp only [relaxUntilStable]
      split
      · rfl
      · rw [ih, relax_zero]
  rw [closingCosts, kept]
  simp

end Decoding

end FactorSearch
