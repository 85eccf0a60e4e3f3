import FactorSearch.Proofs.Double.Order
import FactorSearch.Statistics.Rank

/-!
# Ranks by counting

The average rank of a value among present values depends on two counts alone: the values below it
and those level with it.  So it does not depend on the order of the values, nor on how they were
sorted.
-/

set_option autoImplicit false

namespace FactorSearch

namespace Statistics

open Scalar.Ordered

variable {α : Type} [Scalar α]

/-- Half the sum of the first and the last place, after `before` smaller values, of the values
level with `v`. -/
def rankAmong (before : Nat) (values : List α) (v : α) : α :=
  Scalar.ofNat (2 * (before + values.countP fun w => Scalar.lt w v) +
    (values.countP fun w => Scalar.same w v) + 1) / 2

theorem rankAmong_perm {values others : List α} (order : values.Perm others) (before : Nat) :
    rankAmong before values = rankAmong before others := by
  funext v
  rw [rankAmong, rankAmong, order.countP_eq, order.countP_eq]

/-! ## Sorting by insertion -/

theorem insertDescending_perm (entry : Nat × α) (sorted : List (Nat × α)) :
    (insertDescending entry sorted).Perm (entry :: sorted) := by
  induction sorted with
  | nil => exact List.Perm.refl _
  | cons head rest ih =>
    rw [insertDescending]
    split
    · exact (ih.cons head).trans (List.Perm.swap entry head rest)
    · exact List.Perm.refl _

theorem ascending_perm (entries : List (Nat × α)) : (ascending entries).Perm entries := by
  have inserted (sorted : List (Nat × α)) : (entries.foldl
      (fun sorted entry => insertDescending entry sorted) sorted).Perm (entries ++ sorted) := by
    induction entries generalizing sorted with
    | nil => exact List.Perm.refl _
    | cons first rest ih =>
      refine (ih _).trans ?_
      refine ((insertDescending_perm first sorted).append_left rest).trans ?_
      exact List.perm_middle
  rw [ascending]
  refine (List.reverse_perm _).trans ?_
  simpa using inserted []

variable [Scalar.Ordered α]

theorem insertDescending_pairwise {entry : Nat × α} {sorted : List (Nat × α)}
    (present : ∀ a ∈ entry :: sorted, Scalar.isNaN a.2 = false)
    (descending : sorted.Pairwise fun a b => place b.2 ≤ place a.2) :
    (insertDescending entry sorted).Pairwise fun a b => place b.2 ≤ place a.2 := by
  induction sorted with
  | nil => exact List.pairwise_singleton _ _
  | cons head rest ih =>
    obtain ⟨first, later⟩ := List.pairwise_cons.mp descending
    obtain ⟨known, knownSorted⟩ := List.forall_mem_cons.mp present
    obtain ⟨knownHead, knownRest⟩ := List.forall_mem_cons.mp knownSorted
    rw [insertDescending]
    split
    · rename_i smaller
      have below := ((lt_iff entry.2 head.2).mp smaller).2.2
      have least := ih (List.forall_mem_cons.mpr ⟨known, knownRest⟩) later
      refine List.pairwise_cons.mpr ⟨fun a member => ?_, least⟩
      rcases List.mem_cons.mp ((insertDescending_perm entry rest).mem_iff.mp member) with
        rfl | inside
      · exact below.le
      · exact first a inside
    · rename_i atLeast
      have above : place head.2 ≤ place entry.2 := by
        by_contra below
        exact atLeast ((lt_iff entry.2 head.2).mpr ⟨known, knownHead, not_le.mp below⟩)
      refine List.pairwise_cons.mpr ⟨fun a member => ?_, descending⟩
      rcases List.mem_cons.mp member with rfl | inside
      · exact above
      · exact (first a inside).trans above

theorem ascending_pairwise {entries : List (Nat × α)}
    (present : ∀ a ∈ entries, Scalar.isNaN a.2 = false) :
    (ascending entries).Pairwise fun a b => place a.2 ≤ place b.2 := by
  have inserted (sorted : List (Nat × α)) (known : ∀ a ∈ sorted, Scalar.isNaN a.2 = false)
      (descending : sorted.Pairwise fun a b => place b.2 ≤ place a.2) :
      (entries.foldl (fun sorted entry => insertDescending entry sorted) sorted).Pairwise
        fun a b => place b.2 ≤ place a.2 := by
    induction entries generalizing sorted with
    | nil => exact descending
    | cons first rest ih =>
      obtain ⟨knownFirst, knownRest⟩ := List.forall_mem_cons.mp present
      have all : ∀ a ∈ first :: sorted, Scalar.isNaN a.2 = false :=
        List.forall_mem_cons.mpr ⟨knownFirst, known⟩
      refine ih knownRest _ ?_ (insertDescending_pairwise all descending)
      intro a member
      exact all a ((insertDescending_perm first sorted).mem_iff.mp member)
  rw [ascending, List.pairwise_reverse]
  exact inserted [] (fun a member => nomatch member) List.Pairwise.nil

/-! ## Sharing places -/

theorem place_lt_of_mem_dropWhile {head : Nat × α} {rest : List (Nat × α)}
    (present : ∀ a ∈ head :: rest, Scalar.isNaN a.2 = false)
    (sorted : (head :: rest).Pairwise fun a b => place a.2 ≤ place b.2) {a : Nat × α}
    (member : a ∈ rest.dropWhile fun entry => Scalar.same entry.2 head.2) :
    place head.2 < place a.2 := by
  induction rest with
  | nil => cases member
  | cons first rest ih =>
    obtain ⟨least, later⟩ := List.pairwise_cons.mp sorted
    obtain ⟨leastFirst, leastRest⟩ := List.forall_mem_cons.mp least
    obtain ⟨knownHead, known⟩ := List.forall_mem_cons.mp present
    obtain ⟨knownFirst, knownRest⟩ := List.forall_mem_cons.mp known
    rw [List.dropWhile_cons] at member
    split at member
    · exact ih (List.forall_mem_cons.mpr ⟨knownHead, knownRest⟩)
        (List.pairwise_cons.mpr ⟨leastRest, later.of_cons⟩) member
    · rename_i different
      have apart : place head.2 ≠ place first.2 := by
        intro level
        exact different ((same_iff first.2 head.2).mpr ⟨knownFirst, knownHead, level.symm⟩)
      have above := lt_of_le_of_ne leastFirst apart
      rcases List.mem_cons.mp member with rfl | inside
      · exact above
      · exact above.trans_le ((List.pairwise_cons.mp later).1 a inside)

theorem rankAmong_append_left (before : Nat) {group others : List α} {v : α}
    (present : ∀ w ∈ group ++ others, Scalar.isNaN w = false) (known : Scalar.isNaN v = false)
    (level : ∀ w ∈ group, place w = place v) (above : ∀ w ∈ others, place v < place w) :
    rankAmong before (group ++ others) v =
      Scalar.ofNat (2 * before + group.length + 1) / 2 := by
  have below : (group ++ others).countP (fun w => Scalar.lt w v) = 0 := by
    refine List.countP_eq_zero.mpr fun w member smaller => ?_
    have order := ((lt_iff w v).mp smaller).2.2
    rcases List.mem_append.mp member with inside | outside
    · exact order.ne (level w inside)
    · exact lt_asymm order (above w outside)
  have tied : group.countP (fun w => Scalar.same w v) = group.length :=
    List.countP_eq_length.mpr fun w member =>
      (same_iff w v).mpr ⟨present w (List.mem_append_left _ member), known, level w member⟩
  have apart : others.countP (fun w => Scalar.same w v) = 0 :=
    List.countP_eq_zero.mpr fun w member tie =>
      (above w member).ne' ((same_iff w v).mp tie).2.2
  rw [rankAmong, below, List.countP_append, tied, apart]
  simp only [Nat.add_zero]

theorem rankAmong_append_right (before : Nat) {group others : List α} {v : α}
    (present : ∀ w ∈ group, Scalar.isNaN w = false) (known : Scalar.isNaN v = false)
    (below : ∀ w ∈ group, place w < place v) :
    rankAmong before (group ++ others) v = rankAmong (before + group.length) others v := by
  have smaller : group.countP (fun w => Scalar.lt w v) = group.length :=
    List.countP_eq_length.mpr fun w member =>
      (lt_iff w v).mpr ⟨present w member, known, below w member⟩
  have apart : group.countP (fun w => Scalar.same w v) = 0 :=
    List.countP_eq_zero.mpr fun w member tie => (below w member).ne ((same_iff w v).mp tie).2.2
  rw [rankAmong, rankAmong, List.countP_append, List.countP_append, smaller, apart, Nat.zero_add,
    Nat.add_assoc before]

theorem shareRanks_eq (before : Nat) {entries : List (Nat × α)}
    (present : ∀ a ∈ entries, Scalar.isNaN a.2 = false)
    (sorted : entries.Pairwise fun a b => place a.2 ≤ place b.2) :
    shareRanks before entries =
      entries.map fun entry => (entry.1, rankAmong before (entries.map Prod.snd) entry.2) := by
  induction before, entries using shareRanks.induct with
  | case1 => rw [shareRanks, List.map_nil]
  | case2 before head rest ties last ih =>
    -- the entries level with the first one come before those above it
    let later := rest.dropWhile fun entry => Scalar.same entry.2 head.2
    have parts : head :: rest = (head :: ties) ++ later := by
      rw [List.cons_append, List.takeWhile_append_dropWhile]
    have above : ∀ a ∈ later, place head.2 < place a.2 := fun a =>
      place_lt_of_mem_dropWhile present sorted
    have tied : ∀ a ∈ ties, Scalar.same a.2 head.2 = true := fun a member =>
      List.mem_takeWhile_imp (p := fun entry : Nat × α => Scalar.same entry.2 head.2) member
    have level : ∀ a ∈ head :: ties, place a.2 = place head.2 :=
      List.forall_mem_cons.mpr ⟨rfl, fun a member => ((same_iff _ _).mp (tied a member)).2.2⟩
    rw [parts] at present sorted
    have first : ∀ w ∈ (head :: ties).map Prod.snd, place w = place head.2 :=
      List.forall_mem_map.mpr level
    have known : ∀ w ∈ ((head :: ties) ++ later).map Prod.snd, Scalar.isNaN w = false :=
      List.forall_mem_map.mpr present
    rw [List.map_append] at known
    have count : before + ((head :: ties).map Prod.snd).length = last := by
      rw [List.length_map, List.length_cons]
      omega
    rw [shareRanks, parts, List.map_append, List.map_append]
    congr 1
    · refine List.map_congr_left fun a member => ?_
      rw [rankAmong_append_left before known (present a (List.mem_append_left _ member))]
      · have places :
            before + 1 + last = 2 * before + ((head :: ties).map Prod.snd).length + 1 := by
          omega
        rw [← places]
      · intro w inside
        exact (first w inside).trans (level a member).symm
      · rw [level a member]
        exact List.forall_mem_map.mpr above
    · rw [ih (fun a member => present a (List.mem_append_right _ member))
        (List.pairwise_append.mp sorted).2.1]
      refine List.map_congr_left fun a member => ?_
      rw [rankAmong_append_right before (fun w inside => known w (List.mem_append_left _ inside))
        (present a (List.mem_append_right _ member)), count]
      · intro w inside
        rw [first w inside]
        exact above a member

omit [Scalar α] [Scalar.Ordered α] in
theorem lookup_of_mem {entries : List (Nat × α)} (distinct : (entries.map Prod.fst).Nodup)
    {i : Nat} {v : α} (member : (i, v) ∈ entries) : entries.lookup i = some v := by
  induction entries with
  | nil => cases member
  | cons head rest ih =>
    obtain ⟨apart, later⟩ := List.nodup_cons.mp distinct
    rcases List.mem_cons.mp member with rfl | inside
    · rw [List.lookup_cons_self]
    · have other : (i == head.1) = false := by
        rw [beq_eq_false_iff_ne]
        rintro rfl
        exact apart (List.mem_map.mpr ⟨_, inside, rfl⟩)
      rw [List.lookup_cons, other]
      exact ih later inside

/-- The average rank of a present value is half of one more than twice the number of values below
it and the number of values level with it. -/
theorem averageRanks_eq {values : List α} (present : ∀ v ∈ values, Scalar.isNaN v = false) :
    averageRanks values = values.map (rankAmong 0 values) := by
  have places : ((List.range values.length).zip values).map Prod.fst = List.range values.length :=
    List.map_fst_zip (by rw [List.length_range])
  have cells : ((List.range values.length).zip values).map Prod.snd = values :=
    List.map_snd_zip (by rw [List.length_range])
  have order := ascending_perm ((List.range values.length).zip values)
  have known : ∀ a ∈ (List.range values.length).zip values, Scalar.isNaN a.2 = false :=
    fun a member => present a.2 (List.of_mem_zip member).2
  have shared := shareRanks_eq 0 (fun a member => known a (order.mem_iff.mp member))
    (ascending_pairwise known)
  rw [rankAmong_perm (order.map Prod.snd), cells] at shared
  apply List.ext_getElem
  · simp [averageRanks]
  intro i inside inside'
  have bound : i < values.length := by simpa using inside'
  have found : (i, rankAmong 0 values values[i]) ∈
      shareRanks 0 (ascending ((List.range values.length).zip values)) := by
    rw [shared]
    refine List.mem_map.mpr ⟨(i, values[i]), order.mem_iff.mpr ?_, rfl⟩
    refine List.mem_iff_getElem.mpr ⟨i, by simpa using bound, by simp⟩
  have distinct : ((shareRanks 0 (ascending ((List.range values.length).zip values))).map
      Prod.fst).Nodup := by
    rw [shared, List.map_map]
    refine (order.map Prod.fst).nodup_iff.mpr ?_
    rw [places]
    exact List.nodup_range
  simp only [averageRanks, List.getElem_map, List.getElem_range, lookup_of_mem distinct found,
    Option.getD_some]

end Statistics

end FactorSearch
