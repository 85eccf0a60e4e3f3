import FactorSearch.Proofs.Exact.Extended

/-!
# Largest values

The largest of a list is at least every value that is not missing, and it is one of the values
unless there is nothing above minus infinity.  Where the finite scalars are those between the
infinities, it is finite exactly when some value is finite and none is plus infinity.
-/

set_option autoImplicit false

namespace FactorSearch

namespace Scalar

theorem maximum_snoc {α : Type} [Scalar α] (values : List α) (last : α) :
    maximum (values ++ [last]) = max (maximum values) last := by
  rw [maximum, List.foldl_append, List.foldl_cons, List.foldl_nil, maximum]

namespace Ordered

variable {α : Type} [Scalar α] [Scalar.Ordered α]

protected theorem le_max_left {x : α} (present : isNaN x = false) (y : α) :
    le x (max x y) = true := by
  rw [max, present, if_neg Bool.false_ne_true]
  split
  · exact Ordered.le_refl present
  · split
    · rename_i below
      obtain ⟨left, right, order⟩ := (lt_iff x y).mp below
      exact (le_iff x y).mpr ⟨left, right, order.le⟩
    · exact Ordered.le_refl present

protected theorem le_max_right (x : α) {y : α} (present : isNaN y = false) :
    le y (max x y) = true := by
  rw [max, present, if_neg Bool.false_ne_true]
  split
  · exact Ordered.le_refl present
  · split
    · exact Ordered.le_refl present
    · rename_i known below
      rw [Bool.not_eq_true] at known below
      rcases (lt_eq_false_iff x present).mp below with missing | above
      · rw [known] at missing
        cases missing
      · exact above

theorem max_eq_left {x y : α} (above : le y x = true) : max x y = x := by
  obtain ⟨right, left, order⟩ := (le_iff y x).mp above
  have below : ¬ lt x y = true := fun strict =>
    absurd ((lt_iff x y).mp strict).2.2 (not_lt.mpr order)
  rw [max, left, right, if_neg Bool.false_ne_true, if_neg Bool.false_ne_true, if_neg below]

theorem max_eq_right {x y : α} (below : lt x y = true) : max x y = y := by
  obtain ⟨left, right, _⟩ := (lt_iff x y).mp below
  rw [max, left, right, if_neg Bool.false_ne_true, if_neg Bool.false_ne_true, if_pos below]

theorem max_absorb {x y z : α} (below : le y x = true) (present : isNaN z = false) :
    max x (max y z) = max x z := by
  by_cases above : lt y z = true
  · rw [max_eq_right above]
  · have known := ((le_iff y x).mp below).1
    rcases (lt_eq_false_iff y present).mp (Bool.not_eq_true _ ▸ above) with missing | under
    · rw [known] at missing
      cases missing
    · rw [max_eq_left under, max_eq_left below, max_eq_left (Ordered.le_trans under below)]

/-- Nothing of a list is above its maximum, except where it is missing. -/
theorem le_maximum {values : List α} {x : α} (member : x ∈ values) (present : isNaN x = false) :
    le x (maximum values) = true := by
  have kept (rest : List α) (start : α) (known : isNaN start = false) :
      le start (rest.foldl max start) = true := by
    induction rest generalizing start with
    | nil => exact Ordered.le_refl known
    | cons first rest ih =>
      have grown := Ordered.le_max_left known first
      exact Ordered.le_trans grown (ih _ ((le_iff ..).mp grown).2.1)
  rw [maximum]
  generalize (-infinity : α) = start
  induction values generalizing start with
  | nil => cases member
  | cons first rest ih =>
    rcases List.mem_cons.mp member with rfl | later
    · have taken := Ordered.le_max_right start present
      exact Ordered.le_trans taken (kept rest _ ((le_iff ..).mp taken).2.1)
    · exact ih later (max start first)

end Ordered

/-- Scalars of which the finite ones are those between the infinities. -/
class Bounded (α : Type) [Scalar α] : Prop where
  isFinite_iff (x : α) : isFinite x = true ↔ lt (-infinity) x = true ∧ lt x infinity = true

namespace Bounded

variable {α : Type} [Scalar α] [Scalar.Ordered α] [Scalar.Bounded α]

theorem isFinite_of_between {low x high : α} (least : isFinite low = true)
    (most : isFinite high = true) (above : le low x = true) (below : le x high = true) :
    isFinite x = true :=
  (isFinite_iff x).mpr ⟨Ordered.lt_of_lt_of_le ((isFinite_iff low).mp least).1 above,
    Ordered.lt_of_le_of_lt below ((isFinite_iff high).mp most).2⟩

theorem maximum_mem_of_finite {values : List α} (finite : isFinite (maximum values) = true) :
    maximum values ∈ values := by
  rcases Ordered.maximum_mem values with nothing | member
  · have above := ((isFinite_iff _).mp finite).1
    rw [nothing] at above
    exact absurd above (Ordered.not_lt_self _)
  · exact member

theorem isFinite_maximum_iff (values : List α) :
    isFinite (maximum values) = true ↔
      (∃ x ∈ values, isFinite x = true) ∧ ∀ x ∈ values, le infinity x = false := by
  constructor
  · intro finite
    refine ⟨⟨_, maximum_mem_of_finite finite, finite⟩, fun x member => ?_⟩
    rw [← Bool.not_eq_true]
    intro infinite
    have present := ((Ordered.le_iff ..).mp infinite).2.1
    have top := Ordered.le_trans infinite (Ordered.le_maximum member present)
    exact Ordered.not_lt_self _ (Ordered.lt_of_le_of_lt top ((isFinite_iff _).mp finite).2)
  · rintro ⟨⟨x, member, finite⟩, bounded⟩
    obtain ⟨above, below⟩ := (isFinite_iff x).mp finite
    have most := Ordered.le_maximum member (Ordered.present x finite)
    refine (isFinite_iff _).mpr ⟨Ordered.lt_of_lt_of_le above most, ?_⟩
    rcases Ordered.maximum_mem values with nothing | largest
    · rw [nothing] at most
      exact absurd (Ordered.lt_of_lt_of_le above most) (Ordered.not_lt_self _)
    · have present := ((Ordered.le_iff ..).mp most).2.1
      rcases (Ordered.le_eq_false_iff _ present).mp (bounded _ largest) with missing | inside
      · rw [((Ordered.lt_iff ..).mp below).2.1] at missing
        cases missing
      · exact inside

theorem isFinite_maximum (values : List α) (some : values ≠ [])
    (finite : ∀ x ∈ values, isFinite x = true) : isFinite (maximum values) = true := by
  obtain ⟨first, member⟩ := List.exists_mem_of_ne_nil values some
  refine (isFinite_maximum_iff values).mpr ⟨⟨first, member, finite first member⟩, ?_⟩
  intro x inside
  have below := ((isFinite_iff x).mp (finite x inside)).2
  rw [← Bool.not_eq_true]
  intro above
  exact Ordered.not_lt_self _ (Ordered.lt_of_lt_of_le below above)

theorem maximum_le_of_subset {few all : List α} (among : few ⊆ all) (occupied : all ≠ [])
    (finite : ∀ x ∈ all, isFinite x = true) : le (maximum few) (maximum all) = true := by
  rcases Ordered.maximum_mem few with nothing | member
  · rw [nothing]
    have above := ((isFinite_iff _).mp (isFinite_maximum all occupied finite)).1
    obtain ⟨left, right, order⟩ := (Ordered.lt_iff _ _).mp above
    exact (Ordered.le_iff _ _).mpr ⟨left, right, order.le⟩
  · exact Ordered.le_maximum (among member) (Ordered.present _ (finite _ (among member)))

end Bounded

end Scalar

open Float.Model in
instance Scalar.boundedFloat : Scalar.Bounded Float where
  isFinite_iff x := by
    have upper : (Scalar.infinity : Float).toModel.unpack = .infinity .positive := rfl
    have lower : (-Scalar.infinity : Float).toModel.unpack = .infinity .negative := rfl
    rw [Double.isFinite_eq, Double.lt_eq, Double.lt_eq, upper, lower]
    cases x.toModel.unpack with
    | notANumber => decide
    | zero | finite => simp [UnpackedFloat.isFinite, UnpackedFloat.lt, UnpackedFloat.compare]
    | infinity sign =>
      cases sign with
      | positive | negative => decide

instance Scalar.boundedExtended : Scalar.Bounded Extended where
  isFinite_iff x := by
    rw [Scalar.Ordered.lt_iff, Scalar.Ordered.lt_iff]
    cases x with
    | missing =>
      constructor
      · intro finite
        cases finite
      · rintro ⟨⟨_, present, _⟩, _⟩
        cases present
    | finite r =>
      exact ⟨fun _ => ⟨⟨rfl, rfl, EReal.bot_lt_coe r⟩, rfl, rfl, EReal.coe_lt_top r⟩, fun _ => rfl⟩
    | infinite s =>
      constructor
      · intro finite
        cases finite
      · rintro ⟨⟨_, _, above⟩, _, _, below⟩
        cases s with
        | true => exact absurd above (lt_irrefl _)
        | false => exact absurd below (lt_irrefl _)

end FactorSearch
