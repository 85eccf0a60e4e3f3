import FactorSearch.Proofs.Exact.Extended
import FactorSearch.Proofs.Statistics.CountingRank

/-!
# Ranks and order

Twice a rank is a whole number, from two counts.  It lies between two and twice the number of
values, rises with the value, does not see a map that keeps the order, and is mirrored by a map that
turns the order around.
-/

set_option autoImplicit false

namespace FactorSearch

namespace Statistics

open Scalar.Ordered

variable {α : Type} [Scalar α]

/-- The first and the last place among values, from one on, that the values level with `v` have or
would have, added up. -/
def doubledRank (values : List α) (v : α) : Nat :=
  2 * (values.countP fun w => Scalar.lt w v) + (values.countP fun w => Scalar.same w v) + 1

theorem rankAmong_zero (values : List α) (v : α) :
    rankAmong 0 values v = Scalar.ofNat (doubledRank values v) / 2 := by
  rw [rankAmong, Nat.zero_add]
  rfl

open Extended in
theorem rankAmong_exact (values : List Extended) (v : Extended) :
    rankAmong 0 values v = finite (doubledRank values v / 2) := by
  rw [rankAmong_zero, ofNat_eq, two_eq, div_finite _ two_ne_zero]

/-! ## Maps of values -/

theorem doubledRank_map {f : α → α} {values : List α} {v : α}
    (lt : ∀ w ∈ values, Scalar.lt (f w) (f v) = Scalar.lt w v)
    (same : ∀ w ∈ values, Scalar.same (f w) (f v) = Scalar.same w v) :
    doubledRank (values.map f) (f v) = doubledRank values v := by
  rw [doubledRank, doubledRank, List.countP_map, List.countP_map]
  congr 2
  · congr 1
    refine List.countP_congr fun w member => ?_
    rw [Function.comp_apply, lt w member]
  · refine List.countP_congr fun w member => ?_
    rw [Function.comp_apply, same w member]

variable [Scalar.Ordered α]

/-- A function that keeps the order of values and their ties. -/
structure Increasing (f : α → α) (values : List α) : Prop where
  lt : ∀ u ∈ values, ∀ v ∈ values, Scalar.lt u v = true → Scalar.lt (f u) (f v) = true
  same : ∀ u ∈ values, ∀ v ∈ values, Scalar.same u v = true → Scalar.same (f u) (f v) = true

theorem Increasing.order_eq {f : α → α} {values : List α} (increasing : Increasing f values)
    (present : ∀ w ∈ values, Scalar.isNaN w = false) {u v : α} (left : u ∈ values)
    (right : v ∈ values) :
    Scalar.lt (f u) (f v) = Scalar.lt u v ∧ Scalar.same (f u) (f v) = Scalar.same u v := by
  rcases lt_or_same_or_gt (present u left) (present v right) with below | level | above
  · have kept := increasing.lt u left v right below
    rw [below, kept, (not_same_of_lt below).1, (not_same_of_lt kept).1]
    exact ⟨rfl, rfl⟩
  · have kept := increasing.same u left v right level
    rw [level, kept, (not_lt_of_level level).1, (not_lt_of_level kept).1]
    exact ⟨rfl, rfl⟩
  · have kept := increasing.lt v right u left above
    rw [Scalar.Ordered.same_comm (f u), Scalar.Ordered.same_comm u, (not_same_of_lt above).1,
      (not_same_of_lt above).2, (not_same_of_lt kept).1, (not_same_of_lt kept).2]
    exact ⟨rfl, rfl⟩

theorem Increasing.doubledRank_map {f : α → α} {values : List α} (increasing : Increasing f values)
    (present : ∀ w ∈ values, Scalar.isNaN w = false) {v : α} (member : v ∈ values) :
    doubledRank (values.map f) (f v) = doubledRank values v :=
  Statistics.doubledRank_map
    (fun _ inside => (increasing.order_eq present inside member).1)
    (fun _ inside => (increasing.order_eq present inside member).2)

/-! ## Counting -/

theorem countP_lt_or_same (values : List α) (v : α) :
    (values.countP fun w => Scalar.lt w v || Scalar.same w v) =
      (values.countP fun w => Scalar.lt w v) + values.countP fun w => Scalar.same w v := by
  induction values with
  | nil => rfl
  | cons w rest ih =>
    rw [List.countP_cons, List.countP_cons, List.countP_cons, ih]
    cases below : Scalar.lt w v with
    | true =>
      rw [(not_same_of_lt below).1, Bool.true_or, if_pos rfl, if_neg Bool.false_ne_true]
      omega
    | false =>
      rw [Bool.false_or, if_neg Bool.false_ne_true]
      omega

theorem countP_partition {values : List α} (present : ∀ w ∈ values, Scalar.isNaN w = false) {v : α}
    (known : Scalar.isNaN v = false) :
    (values.countP fun w => Scalar.lt w v) + (values.countP fun w => Scalar.same w v) +
      (values.countP fun w => Scalar.lt v w) = values.length := by
  rw [← countP_lt_or_same, values.length_eq_countP_add_countP fun w =>
    Scalar.lt w v || Scalar.same w v]
  congr 1
  refine List.countP_congr fun w member => ?_
  rcases lt_or_same_or_gt (present w member) known with below | level | above
  · simp [below, (not_same_of_lt below).2]
  · simp [level, (not_lt_of_level level).2]
  · simp [above, (not_same_of_lt above).2, Scalar.Ordered.same_comm w, (not_same_of_lt above).1]

variable {values : List α} {u v : α}

theorem countP_same_pos (present : ∀ w ∈ values, Scalar.isNaN w = false) (member : v ∈ values) :
    0 < values.countP fun w => Scalar.same w v :=
  List.countP_pos_iff.mpr
    ⟨v, member, (same_iff v v).mpr ⟨present v member, present v member, rfl⟩⟩

theorem two_le_doubledRank (present : ∀ w ∈ values, Scalar.isNaN w = false) (member : v ∈ values) :
    2 ≤ doubledRank values v := by
  have some := countP_same_pos present member
  rw [doubledRank]
  omega

theorem doubledRank_le (present : ∀ w ∈ values, Scalar.isNaN w = false) (member : v ∈ values) :
    doubledRank values v ≤ 2 * values.length := by
  have parts := countP_partition present (present v member)
  have some := countP_same_pos present member
  rw [doubledRank]
  omega

theorem doubledRank_lt (present : ∀ w ∈ values, Scalar.isNaN w = false) (member : u ∈ values)
    (below : Scalar.lt u v = true) : doubledRank values u < doubledRank values v := by
  have some := countP_same_pos present member
  have more : (values.countP fun w => Scalar.lt w u || Scalar.same w u) ≤
      values.countP fun w => Scalar.lt w v := by
    refine List.countP_mono_left fun w _ atMost => ?_
    obtain ⟨_, known, order⟩ := (lt_iff u v).mp below
    rcases Bool.or_eq_true_iff.mp atMost with less | level
    · obtain ⟨here, _, first⟩ := (lt_iff w u).mp less
      exact (lt_iff w v).mpr ⟨here, known, first.trans order⟩
    · obtain ⟨here, _, first⟩ := (same_iff w u).mp level
      exact (lt_iff w v).mpr ⟨here, known, first ▸ order⟩
  rw [countP_lt_or_same] at more
  rw [doubledRank, doubledRank]
  omega

theorem doubledRank_congr (level : Scalar.same u v = true) :
    doubledRank values u = doubledRank values v := by
  have places := (same_iff u v).mp level
  have below (w : α) : Scalar.lt w u = Scalar.lt w v := by
    rw [Bool.eq_iff_iff, lt_iff, lt_iff, places.1, places.2.1, places.2.2]
  have tied (w : α) : Scalar.same w u = Scalar.same w v := by
    rw [Bool.eq_iff_iff, same_iff, same_iff, places.1, places.2.1, places.2.2]
  simp only [doubledRank, below, tied]

/-- A map that turns the order around mirrors the ranks. -/
theorem doubledRank_mirror {f : α → α} (present : ∀ w ∈ values, Scalar.isNaN w = false)
    (known : Scalar.isNaN v = false)
    (turned : ∀ w ∈ values, Scalar.lt (f w) (f v) = Scalar.lt v w)
    (same : ∀ w ∈ values, Scalar.same (f w) (f v) = Scalar.same w v) :
    doubledRank (values.map f) (f v) + doubledRank values v = 2 * (values.length + 1) := by
  have parts := countP_partition present known
  have below : (values.map f).countP (fun w => Scalar.lt w (f v)) =
      values.countP fun w => Scalar.lt v w := by
    rw [List.countP_map]
    exact List.countP_congr fun w member => by rw [Function.comp_apply, turned w member]
  have tied : (values.map f).countP (fun w => Scalar.same w (f v)) =
      values.countP fun w => Scalar.same w v := by
    rw [List.countP_map]
    exact List.countP_congr fun w member => by rw [Function.comp_apply, same w member]
  rw [doubledRank, doubledRank, below, tied]
  omega

end Statistics

end FactorSearch
