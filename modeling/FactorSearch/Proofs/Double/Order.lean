import FactorSearch.Proofs.Double.Null
import FactorSearch.Proofs.Exact.Scalar

/-!
# The order of scalars

The order tests compare places in a line and fail on missing values.  Real numbers are their own
places.  A double has its place by sign, then by exponent and mantissa: that is how finite doubles
compare, since one number is packed in one way only.  Minus infinity has the first place.
-/

set_option autoImplicit false

namespace FactorSearch

/-- Scalars whose order tests compare places in a line, and fail on missing values. -/
class Scalar.Ordered (α : Type) [Scalar α] where
  Place : Type
  line : LinearOrder Place
  place : α → Place
  lt_iff (x y : α) :
    Scalar.lt x y = true ↔ Scalar.isNaN x = false ∧ Scalar.isNaN y = false ∧ place x < place y
  le_iff (x y : α) :
    Scalar.le x y = true ↔ Scalar.isNaN x = false ∧ Scalar.isNaN y = false ∧ place x ≤ place y
  same_iff (x y : α) :
    Scalar.same x y = true ↔ Scalar.isNaN x = false ∧ Scalar.isNaN y = false ∧ place x = place y
  present (x : α) : Scalar.isFinite x = true → Scalar.isNaN x = false
  small_finite (n : Nat) : n ≤ 10 →
    Scalar.isFinite (Scalar.ofNat n : α) = true ∧ Scalar.isFinite (-Scalar.ofNat n : α) = true
  negOne_le (n : Nat) : n ≤ 10 → Scalar.le (-Scalar.ofNat 1 : α) (Scalar.ofNat n) = true

attribute [reducible, instance] Scalar.Ordered.line

namespace Scalar.Ordered

variable {α : Type} [Scalar α] [Scalar.Ordered α]

theorem lt_iff_of_finite {x y : α} (left : Scalar.isFinite x = true)
    (right : Scalar.isFinite y = true) : Scalar.lt x y = true ↔ place x < place y := by
  rw [lt_iff, and_iff_right (present x left), and_iff_right (present y right)]

theorem le_iff_of_finite {x y : α} (left : Scalar.isFinite x = true)
    (right : Scalar.isFinite y = true) : Scalar.le x y = true ↔ place x ≤ place y := by
  rw [le_iff, and_iff_right (present x left), and_iff_right (present y right)]

theorem lt_eq_false_iff (x : α) {bound : α} (present : Scalar.isNaN bound = false) :
    Scalar.lt x bound = false ↔ Scalar.isNaN x = true ∨ Scalar.le bound x = true := by
  rw [← Bool.not_eq_true, lt_iff, le_iff]
  cases Scalar.isNaN x with
  | true => simp
  | false => simp [present]

theorem le_eq_false_iff (x : α) {bound : α} (present : Scalar.isNaN bound = false) :
    Scalar.le x bound = false ↔ Scalar.isNaN x = true ∨ Scalar.lt bound x = true := by
  rw [← Bool.not_eq_true, le_iff, lt_iff]
  cases Scalar.isNaN x with
  | true => simp
  | false => simp [present]

protected theorem le_refl {x : α} (present : Scalar.isNaN x = false) : Scalar.le x x = true :=
  (le_iff x x).mpr ⟨present, present, le_rfl⟩

protected theorem le_trans {x y z : α} (first : Scalar.le x y = true)
    (second : Scalar.le y z = true) : Scalar.le x z = true := by
  obtain ⟨left, _, below⟩ := (le_iff x y).mp first
  obtain ⟨_, right, above⟩ := (le_iff y z).mp second
  exact (le_iff x z).mpr ⟨left, right, below.trans above⟩

protected theorem lt_of_lt_of_le {x y z : α} (first : Scalar.lt x y = true)
    (second : Scalar.le y z = true) : Scalar.lt x z = true := by
  obtain ⟨left, _, below⟩ := (lt_iff x y).mp first
  obtain ⟨_, right, above⟩ := (le_iff y z).mp second
  exact (lt_iff x z).mpr ⟨left, right, below.trans_le above⟩

protected theorem lt_of_le_of_lt {x y z : α} (first : Scalar.le x y = true)
    (second : Scalar.lt y z = true) : Scalar.lt x z = true := by
  obtain ⟨left, _, below⟩ := (le_iff x y).mp first
  obtain ⟨_, right, above⟩ := (lt_iff y z).mp second
  exact (lt_iff x z).mpr ⟨left, right, below.trans_lt above⟩

theorem not_lt_self (x : α) : ¬ Scalar.lt x x = true := fun below =>
  lt_irrefl (place x) ((lt_iff x x).mp below).2.2

theorem lt_or_same_or_gt {x y : α} (left : Scalar.isNaN x = false)
    (right : Scalar.isNaN y = false) :
    Scalar.lt x y = true ∨ Scalar.same x y = true ∨ Scalar.lt y x = true := by
  rw [lt_iff, same_iff, lt_iff]
  rcases lt_trichotomy (place x) (place y) with below | level | above
  · exact Or.inl ⟨left, right, below⟩
  · exact Or.inr (Or.inl ⟨left, right, level⟩)
  · exact Or.inr (Or.inr ⟨right, left, above⟩)

protected theorem same_comm (x y : α) : Scalar.same x y = Scalar.same y x := by
  rw [Bool.eq_iff_iff, same_iff, same_iff]
  exact ⟨fun level => ⟨level.2.1, level.1, level.2.2.symm⟩,
    fun level => ⟨level.2.1, level.1, level.2.2.symm⟩⟩

theorem not_same_of_lt {x y : α} (below : Scalar.lt x y = true) :
    Scalar.same x y = false ∧ Scalar.lt y x = false := by
  have order := ((lt_iff x y).mp below).2.2
  rw [← Bool.not_eq_true, ← Bool.not_eq_true, same_iff, lt_iff]
  exact ⟨fun level => order.ne level.2.2, fun above => lt_asymm order above.2.2⟩

theorem not_lt_of_level {x y : α} (level : Scalar.same x y = true) :
    Scalar.lt x y = false ∧ Scalar.lt y x = false := by
  have places := ((same_iff x y).mp level).2.2
  rw [← Bool.not_eq_true, ← Bool.not_eq_true, lt_iff, lt_iff]
  exact ⟨fun below => below.2.2.ne places, fun above => above.2.2.ne places.symm⟩

/-- A finite value moved into an interval of finite bounds lies in it. -/
theorem clamp_bounds {low high x : α} (least : Scalar.isFinite low = true)
    (most : Scalar.isFinite high = true) (ordered : Scalar.le low high = true)
    (finite : Scalar.isFinite x = true) :
    Scalar.isFinite (Scalar.clamp low high x) = true ∧
      Scalar.le low (Scalar.clamp low high x) = true ∧
      Scalar.le (Scalar.clamp low high x) high = true := by
  rw [Scalar.clamp]
  split
  · exact ⟨least, (le_iff_of_finite least least).mpr le_rfl, ordered⟩
  · rename_i above
    split
    · exact ⟨most, ordered, (le_iff_of_finite most most).mpr le_rfl⟩
    · rename_i below
      rw [lt_iff_of_finite finite least] at above
      rw [lt_iff_of_finite most finite] at below
      exact ⟨finite, (le_iff_of_finite least finite).mpr (not_lt.mp above),
        (le_iff_of_finite finite most).mpr (not_lt.mp below)⟩

omit [Scalar.Ordered α] in
theorem max_eq_or (x y : α) : Scalar.max x y = x ∨ Scalar.max x y = y := by
  rw [Scalar.max]
  split
  · exact Or.inr rfl
  · split
    · exact Or.inl rfl
    · split
      · exact Or.inr rfl
      · exact Or.inl rfl

omit [Scalar.Ordered α] in
theorem maximum_mem (values : List α) :
    Scalar.maximum values = -Scalar.infinity ∨ Scalar.maximum values ∈ values := by
  have folded : ∀ start : α, values.foldl Scalar.max start = start ∨
      values.foldl Scalar.max start ∈ values := by
    induction values with
    | nil => exact fun _ => Or.inl rfl
    | cons first rest ih =>
      intro start
      rcases ih (Scalar.max start first) with here | later
      · rw [List.foldl_cons, here]
        rcases max_eq_or start first with kept | taken
        · exact Or.inl kept
        · rw [taken]
          exact Or.inr List.mem_cons_self
      · exact Or.inr (List.mem_cons_of_mem _ later)
  exact folded (-Scalar.infinity)

end Scalar.Ordered

/-! ## Real numbers -/

noncomputable instance Scalar.orderedReal : Scalar.Ordered ℝ where
  Place := ℝ
  line := inferInstance
  place x := x
  lt_iff x y := by simp [Scalar.isNaN]
  le_iff x y := by simp [Scalar.isNaN]
  same_iff x y := by simp [Scalar.isNaN]
  present _ _ := rfl
  small_finite _ _ := ⟨rfl, rfl⟩
  negOne_le n _ := by
    change decide (-((1 : Nat) : ℝ) ≤ n) = true
    rw [decide_eq_true_iff, Nat.cast_one]
    linarith [n.cast_nonneg (α := ℝ)]

/-! ## Doubles -/

namespace Double

open Float.Model

/-- The place of an unpacked double: its sign, and for finite doubles exponent and mantissa. -/
def placeOf : UnpackedFloat → ℤ ×ₗ ℤ ×ₗ ℤ
  | .notANumber => toLex (0, toLex (0, 0))
  | .zero _ => toLex (0, toLex (0, 0))
  | .infinity .negative => toLex (-2, toLex (0, 0))
  | .infinity .positive => toLex (2, toLex (0, 0))
  | .finite .negative m e _ => toLex (-1, toLex (-e, -(m : ℤ)))
  | .finite .positive m e _ => toLex (1, toLex (e, (m : ℤ)))

theorem cmp_toLex {β γ : Type} [LinearOrder β] [LinearOrder γ] (b b' : β) (c c' : γ) :
    cmp (toLex (b, c)) (toLex (b', c')) = (cmp b b').then (cmp c c') := by
  apply Ordering.Compares.cmp_eq
  rcases lt_trichotomy b b' with below | rfl | above
  · rw [below.cmp_eq_lt]
    exact Prod.Lex.toLex_lt_toLex.mpr (Or.inl below)
  · rw [cmp_self_eq_eq]
    rcases lt_trichotomy c c' with below | rfl | above
    · rw [below.cmp_eq_lt]
      exact Prod.Lex.toLex_lt_toLex.mpr (Or.inr ⟨rfl, below⟩)
    · rw [cmp_self_eq_eq]
      exact rfl
    · rw [above.cmp_eq_gt]
      exact Prod.Lex.toLex_lt_toLex.mpr (Or.inr ⟨rfl, above⟩)
  · rw [above.cmp_eq_gt]
    exact Prod.Lex.toLex_lt_toLex.mpr (Or.inl above)

theorem compare_eq_cmp (u v : UnpackedFloat) (left : u ≠ .notANumber) (right : v ≠ .notANumber) :
    u.compare v = some (cmp (placeOf u) (placeOf v)) := by
  cases u with
  | notANumber => exact absurd rfl left
  | infinity s | zero s =>
    cases v with
    | notANumber => exact absurd rfl right
    | infinity t | zero t | finite t =>
      cases s <;> cases t <;> simp only [placeOf, cmp_toLex] <;> rfl
  | finite s m i =>
    cases v with
    | notANumber => exact absurd rfl right
    | infinity t | zero t =>
      cases s <;> cases t <;> simp only [placeOf, cmp_toLex] <;> rfl
    | finite t n j =>
      have mantissas : cmp (m : ℤ) (n : ℤ) = compare m n := by
        rw [Nat.strictMono_cast.cmp_map_eq, cmp_eq_compare]
      cases s with
      | negative =>
        cases t with
        | negative =>
          have reversed (a b : ℤ) : cmp (-a) (-b) = (cmp a b).swap := by
            have falls : StrictAnti fun z : ℤ => -z := fun _ _ below => neg_lt_neg below
            rw [cmp_swap]
            exact falls.cmp_map_eq a b
          simp only [placeOf, cmp_toLex, reversed, mantissas, cmp_self_eq_eq]
          rw [cmp_eq_compare i j, ← Ordering.swap_then]
          rfl
        | positive =>
          simp only [placeOf, cmp_toLex]
          rfl
      | positive =>
        cases t with
        | negative =>
          simp only [placeOf, cmp_toLex]
          rfl
        | positive =>
          simp only [placeOf, cmp_toLex, mantissas, cmp_self_eq_eq]
          rw [cmp_eq_compare i j]
          rfl

theorem isNaN_eq_false_iff (x : Float) :
    Scalar.isNaN x = false ↔ x.toModel.unpack ≠ .notANumber := by
  rw [isNaN_eq]
  cases x.toModel.unpack <;> simp [UnpackedFloat.isNaN]

theorem compare_eq_some_iff (x y : Float) (order : Ordering) :
    x.toModel.unpack.compare y.toModel.unpack = some order ↔
      Scalar.isNaN x = false ∧ Scalar.isNaN y = false ∧
        cmp (placeOf x.toModel.unpack) (placeOf y.toModel.unpack) = order := by
  rw [isNaN_eq_false_iff, isNaN_eq_false_iff]
  by_cases left : x.toModel.unpack = .notANumber
  · simp [left, UnpackedFloat.compare]
  · by_cases right : y.toModel.unpack = .notANumber
    · cases x.toModel.unpack <;> simp [right, UnpackedFloat.compare]
    · simp [compare_eq_cmp _ _ left right, left, right]

theorem lt_iff_place (x y : Float) :
    Scalar.lt x y = true ↔ Scalar.isNaN x = false ∧ Scalar.isNaN y = false ∧
      placeOf x.toModel.unpack < placeOf y.toModel.unpack := by
  rw [lt_eq, UnpackedFloat.lt, beq_iff_eq, compare_eq_some_iff, cmp_eq_lt_iff]

theorem le_iff_place (x y : Float) :
    Scalar.le x y = true ↔ Scalar.isNaN x = false ∧ Scalar.isNaN y = false ∧
      placeOf x.toModel.unpack ≤ placeOf y.toModel.unpack := by
  rw [le_eq, UnpackedFloat.le, Option.any_eq_true]
  simp only [compare_eq_some_iff]
  constructor
  · rintro ⟨order, ⟨left, right, rfl⟩, holds⟩
    rw [cmp_eq_compare, Ordering.isLE_iff_ne_gt] at holds
    exact ⟨left, right, compare_le_iff_le.mp holds⟩
  · rintro ⟨left, right, below⟩
    refine ⟨_, ⟨left, right, rfl⟩, ?_⟩
    rw [cmp_eq_compare, Ordering.isLE_iff_ne_gt]
    exact compare_le_iff_le.mpr below

theorem same_iff_place (x y : Float) :
    Scalar.same x y = true ↔ Scalar.isNaN x = false ∧ Scalar.isNaN y = false ∧
      placeOf x.toModel.unpack = placeOf y.toModel.unpack := by
  rw [same_eq, UnpackedFloat.beq, beq_iff_eq, compare_eq_some_iff, cmp_eq_eq_iff]

theorem present_of_finite (x : Float) (finite : Scalar.isFinite x = true) :
    Scalar.isNaN x = false := by
  rw [isFinite_eq] at finite
  rw [isNaN_eq_false_iff]
  intro missing
  rw [missing] at finite
  cases finite

theorem small_finite (n : Nat) (small : n ≤ 10) :
    Scalar.isFinite (Scalar.ofNat n : Float) = true ∧
      Scalar.isFinite (-Scalar.ofNat n : Float) = true := by
  interval_cases n <;> exact ⟨rfl, rfl⟩

theorem negOne_le (n : Nat) (small : n ≤ 10) :
    Scalar.le (-Scalar.ofNat 1 : Float) (Scalar.ofNat n) = true := by
  interval_cases n <;> decide +kernel

end Double

instance Scalar.orderedFloat : Scalar.Ordered Float where
  Place := ℤ ×ₗ ℤ ×ₗ ℤ
  line := inferInstance
  place x := Double.placeOf x.toModel.unpack
  lt_iff := Double.lt_iff_place
  le_iff := Double.le_iff_place
  same_iff := Double.same_iff_place
  present := Double.present_of_finite
  small_finite := Double.small_finite
  negOne_le := Double.negOne_le

end FactorSearch
