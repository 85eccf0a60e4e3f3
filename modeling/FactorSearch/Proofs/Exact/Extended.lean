import FactorSearch.Proofs.Double.Order
import FactorSearch.Kernel.CrossSection

/-!
# Exact arithmetic with missing values

The computations of the library in exact arithmetic, on panels with missing and infinite cells.
The operations are those of the real numbers, extended to infinite values by their limits; where
there is no limit the result is missing, as is every result of a missing operand.  A zero has no
sign, so a quotient by zero has the sign of its dividend.
-/

set_option autoImplicit false

namespace FactorSearch

inductive Extended where
  | finite (value : ℝ)
  | infinite (negative : Bool)
  | missing

namespace Extended

def add : Extended → Extended → Extended
  | finite x, finite y => finite (x + y)
  | finite _, infinite s => infinite s
  | infinite s, finite _ => infinite s
  | infinite s, infinite t => if s = t then infinite s else missing
  | missing, _ => missing
  | _, missing => missing

def neg : Extended → Extended
  | finite x => finite (-x)
  | infinite s => infinite !s
  | missing => missing

noncomputable def grow (negative : Bool) (x : ℝ) : Extended :=
  if x = 0 then missing else infinite (negative ^^ decide (x < 0))

noncomputable def mul : Extended → Extended → Extended
  | finite x, finite y => finite (x * y)
  | finite x, infinite s => grow s x
  | infinite s, finite y => grow s y
  | infinite s, infinite t => infinite (s ^^ t)
  | missing, _ => missing
  | _, missing => missing

noncomputable def div : Extended → Extended → Extended
  | finite x, finite y =>
    if y ≠ 0 then finite (x / y) else if x ≠ 0 then infinite (decide (x < 0)) else missing
  | finite _, infinite _ => finite 0
  | infinite s, finite y => infinite (s ^^ decide (y < 0))
  | infinite _, infinite _ => missing
  | missing, _ => missing
  | _, missing => missing

def isMissing : Extended → Bool
  | missing => true
  | _ => false

def isReal : Extended → Bool
  | finite _ => true
  | _ => false

noncomputable def place : Extended → EReal
  | finite x => x
  | infinite true => ⊥
  | infinite false => ⊤
  | missing => 0

noncomputable def compare (test : EReal → EReal → Bool) (x y : Extended) : Bool :=
  !x.isMissing && !y.isMissing && test x.place y.place

end Extended

open Extended in
noncomputable instance Scalar.extended : Scalar Extended where
  add := Extended.add
  sub x y := Extended.add x y.neg
  mul := Extended.mul
  div := Extended.div
  neg := Extended.neg
  ofNat n := finite n
  ofScientific m s e := finite (OfScientific.ofScientific m s e)
  nan := missing
  infinity := infinite false
  isNaN := isMissing
  isFinite := isReal
  isNegative
    | finite x => decide (x < 0)
    | infinite s => s
    | missing => false
  lt := compare fun a b => decide (a < b)
  le := compare fun a b => decide (a ≤ b)
  same := compare fun a b => decide (a = b)
  abs
    | finite x => finite |x|
    | infinite _ => infinite false
    | missing => missing
  sqrt
    | finite x => if x < 0 then missing else finite (Real.sqrt x)
    | infinite false => infinite false
    | _ => missing
  exp
    | finite x => finite (Real.exp x)
    | infinite true => finite 0
    | x => x
  log
    | finite x => if x < 0 then missing else if x = 0 then infinite true else finite (Real.log x)
    | infinite false => infinite false
    | _ => missing
  tanh
    | finite x => finite (Real.tanh x)
    | infinite s => finite (if s then -1 else 1)
    | missing => missing
  text _ := ""

namespace Extended

@[simp] theorem add_finite (x y : ℝ) : finite x + finite y = finite (x + y) := rfl

@[simp] theorem sub_finite (x y : ℝ) : finite x - finite y = finite (x - y) :=
  congrArg finite (sub_eq_add_neg x y).symm

@[simp] theorem mul_finite (x y : ℝ) : finite x * finite y = finite (x * y) := rfl

@[simp] theorem neg_finite (x : ℝ) : -finite x = finite (-x) := rfl

theorem div_finite (x : ℝ) {y : ℝ} (nonzero : y ≠ 0) : finite x / finite y = finite (x / y) :=
  if_pos nonzero

theorem sqrt_finite {x : ℝ} (nonnegative : 0 ≤ x) :
    Scalar.sqrt (finite x) = finite (Real.sqrt x) :=
  if_neg (not_lt.mpr nonnegative)

theorem log_finite {x : ℝ} (positive : 0 < x) : Scalar.log (finite x) = finite (Real.log x) :=
  (if_neg (not_lt.mpr positive.le)).trans (if_neg positive.ne')

@[simp] theorem abs_finite (x : ℝ) : Scalar.abs (finite x) = finite |x| := rfl

@[simp] theorem ofNat_eq (n : Nat) : (Scalar.ofNat n : Extended) = finite n := rfl

@[simp] theorem zero_eq : @OfNat.ofNat Extended 0 (Scalar.instOfNat 0) = finite 0 :=
  congrArg finite Nat.cast_zero

@[simp] theorem one_eq : @OfNat.ofNat Extended 1 (Scalar.instOfNat 1) = finite 1 :=
  congrArg finite Nat.cast_one

theorem two_eq : @OfNat.ofNat Extended 2 (Scalar.instOfNat 2) = finite 2 :=
  congrArg finite Nat.cast_two

theorem numeral_eq (n : Nat) : @OfNat.ofNat Extended n (Scalar.instOfNat n) = finite n := rfl

@[simp] theorem ofScientific_eq (m : Nat) (s : Bool) (e : Nat) :
    @OfScientific.ofScientific Extended Scalar.instOfScientific m s e =
      finite (OfScientific.ofScientific m s e) :=
  rfl

@[simp] theorem isNegative_finite (x : ℝ) : Scalar.isNegative (finite x) = decide (x < 0) := rfl

@[simp] theorem isFinite_finite (x : ℝ) : Scalar.isFinite (finite x) = true := rfl

theorem exists_real {x : Extended} (known : Scalar.isFinite x = true) : ∃ r, x = finite r := by
  cases x with
  | finite r => exact ⟨r, rfl⟩
  | infinite s => cases known
  | missing => cases known

/-- The real number that a value is, and zero for the others. -/
def toReal : Extended → ℝ
  | finite x => x
  | _ => 0

@[simp] theorem toReal_finite (x : ℝ) : (finite x).toReal = x := rfl

theorem finite_toReal {x : Extended} (known : Scalar.isFinite x = true) : finite x.toReal = x := by
  obtain ⟨r, rfl⟩ := exists_real known
  rfl

theorem compare_eq_true_iff (test : EReal → EReal → Bool) (x y : Extended) :
    compare test x y = true ↔
      Scalar.isNaN x = false ∧ Scalar.isNaN y = false ∧ test x.place y.place = true := by
  change (!x.isMissing && !y.isMissing && test x.place y.place) = true ↔ _
  rw [Bool.and_eq_true, Bool.and_eq_true, Bool.not_eq_true', Bool.not_eq_true', and_assoc]
  rfl

end Extended

noncomputable instance Scalar.orderedExtended : Scalar.Ordered Extended where
  Place := EReal
  line := inferInstance
  place := Extended.place
  lt_iff x y := (Extended.compare_eq_true_iff _ x y).trans (by rw [decide_eq_true_iff])
  le_iff x y := (Extended.compare_eq_true_iff _ x y).trans (by rw [decide_eq_true_iff])
  same_iff x y := (Extended.compare_eq_true_iff _ x y).trans (by rw [decide_eq_true_iff])
  present x finite := by
    obtain ⟨r, rfl⟩ := Extended.exists_real finite
    rfl
  small_finite _ _ := ⟨rfl, rfl⟩
  negOne_le n _ := by
    refine (Extended.compare_eq_true_iff _ _ _).mpr ⟨rfl, rfl, ?_⟩
    rw [decide_eq_true_iff]
    refine EReal.coe_le_coe_iff.mpr ?_
    rw [Nat.cast_one]
    linarith [n.cast_nonneg (α := ℝ)]

namespace Extended

@[simp] theorem lt_finite (x y : ℝ) : Scalar.lt (finite x) (finite y) = decide (x < y) := by
  rw [Bool.eq_iff_iff, Scalar.Ordered.lt_iff_of_finite rfl rfl, decide_eq_true_iff]
  exact EReal.coe_lt_coe_iff

@[simp] theorem le_finite (x y : ℝ) : Scalar.le (finite x) (finite y) = decide (x ≤ y) := by
  rw [Bool.eq_iff_iff, Scalar.Ordered.le_iff_of_finite rfl rfl, decide_eq_true_iff]
  exact EReal.coe_le_coe_iff

@[simp] theorem same_finite (x y : ℝ) : Scalar.same (finite x) (finite y) = decide (x = y) := by
  rw [Bool.eq_iff_iff, Scalar.Ordered.same_iff, decide_eq_true_iff]
  exact ⟨fun level => EReal.coe_injective level.2.2, fun equal => ⟨rfl, rfl, equal ▸ rfl⟩⟩

/-! ## Sums in any order -/

protected theorem add_comm (x y : Extended) : x + y = y + x := by
  change x.add y = y.add x
  cases x <;> cases y <;> grind [add]

protected theorem add_assoc (x y z : Extended) : x + y + z = x + (y + z) := by
  change (x.add y).add z = x.add (y.add z)
  cases x <;> cases y <;> cases z <;> grind [add]

instance : RightCommutative fun sum value : Extended => sum + value where
  right_comm x y z := by
    rw [Extended.add_assoc, Extended.add_comm y z, Extended.add_assoc]

theorem total_finite (values : List ℝ) :
    Scalar.total (values.map finite) = finite values.sum := by
  have folded (start : ℝ) : (values.map finite).foldl (fun sum value => sum + value)
      (finite start) = finite (start + values.sum) := by
    induction values generalizing start with
    | nil => simp
    | cons first rest ih => simp [ih, add_assoc]
  rw [Scalar.total, zero_eq, folded, zero_add]

theorem add_missing (x : Extended) : x + missing = missing := by
  cases x with
  | finite | infinite | missing => rfl

protected theorem add_zero (x : Extended) : x + finite 0 = x := by
  cases x with
  | finite r => rw [add_finite, add_zero]
  | infinite | missing => rfl

theorem div_missing (x : Extended) : x / missing = missing := by
  cases x with
  | finite | infinite | missing => rfl

theorem le_infinity_iff (x : Extended) :
    Scalar.le Scalar.infinity x = true ↔ x = infinite false := by
  constructor
  · intro above
    have test : (⊤ : EReal) ≤ place x := ((Scalar.Ordered.le_iff ..).mp above).2.2
    cases x with
    | missing => cases ((Scalar.Ordered.le_iff ..).mp above).2.1
    | finite r => exact absurd (top_le_iff.mp test) (EReal.coe_ne_top r)
    | infinite s =>
      cases s with
      | false => rfl
      | true => exact absurd (top_le_iff.mp test) bot_ne_top
  · rintro rfl
    exact Scalar.Ordered.le_refl rfl

theorem isFinite_add_finite (x : Extended) (c : ℝ) :
    Scalar.isFinite (x + finite c) = Scalar.isFinite x := by
  cases x with
  | finite | infinite | missing => rfl

theorem isNaN_add_finite (x : Extended) (c : ℝ) :
    Scalar.isNaN (x + finite c) = Scalar.isNaN x := by
  cases x with
  | finite | infinite | missing => rfl

theorem le_infinity_add_finite (x : Extended) (c : ℝ) :
    Scalar.le Scalar.infinity (x + finite c) = Scalar.le Scalar.infinity x := by
  rw [Bool.eq_iff_iff, le_infinity_iff, le_infinity_iff]
  cases x with
  | finite r => exact iff_of_false nofun nofun
  | infinite | missing => exact Iff.rfl

theorem sum_finite {n : Nat} (f : Fin n → ℝ) :
    Tensor.sum (fun i => finite (f i)) = finite (∑ i, f i) := by
  induction n with
  | zero => rw [Tensor.sum_zero, zero_eq, Fin.sum_univ_zero]
  | succ n ih => rw [Tensor.sum_succ, ih fun i => f i.castSucc, add_finite, Fin.sum_univ_castSucc]

theorem sum_missing {n : Nat} (f : Fin n → Extended) (i : Fin n) (lacking : f i = missing) :
    Tensor.sum f = missing := by
  induction n with
  | zero => exact i.elim0
  | succ n ih =>
    rw [Tensor.sum_succ]
    cases i using Fin.lastCases with
    | last => rw [lacking, add_missing]
    | cast i =>
      rw [ih (fun j => f j.castSucc) i lacking]
      rfl

/-! ## Moments of real numbers -/

theorem mean_finite (values : List ℝ) :
    Statistics.mean (values.map finite) = finite (values.sum / values.length) := by
  rw [Statistics.mean, List.isEmpty_map]
  cases values with
  | nil => simp
  | cons first rest =>
    have some : ((first :: rest).length : ℝ) ≠ 0 := by
      rw [List.length_cons]
      positivity
    rw [List.isEmpty_cons, if_neg Bool.false_ne_true, total_finite, List.length_map, ofNat_eq,
      div_finite _ some]

theorem deviation_finite (values : List ℝ) :
    Statistics.deviation (values.map finite) = finite (Real.sqrt
      ((values.map fun v => (v - values.sum / values.length) ^ 2).sum / values.length)) := by
  rw [Statistics.deviation, List.isEmpty_map]
  cases values with
  | nil => simp
  | cons first rest =>
    have some : ((first :: rest).length : ℝ) ≠ 0 := by
      rw [List.length_cons]
      positivity
    have squares (center : ℝ) : ((first :: rest).map finite).map
          (fun v => Scalar.square (v - finite center)) =
        ((first :: rest).map fun v => (v - center) ^ 2).map finite := by
      rw [List.map_map, List.map_map]
      refine List.map_congr_left fun v _ => ?_
      simp [Scalar.square, pow_two]
    rw [List.isEmpty_cons, if_neg Bool.false_ne_true]
    dsimp only
    rw [mean_finite, squares, total_finite, List.length_map, ofNat_eq, div_finite _ some,
      sqrt_finite]
    refine div_nonneg (List.sum_nonneg fun square member => ?_) (Nat.cast_nonneg _)
    obtain ⟨v, -, rfl⟩ := List.mem_map.mp member
    exact sq_nonneg _

/-- Distances from the mean in deviations; a quotient by no deviation is zero, as the score is. -/
theorem zScoreRow_finite (values : List ℝ) (center deviation : ℝ)
    (mean : values.sum / values.length = center)
    (spread : Real.sqrt ((values.map fun v => (v - center) ^ 2).sum / values.length) = deviation) :
    Kernel.zScoreRow (values.map finite) =
      values.map fun v => finite ((v - center) / deviation) := by
  have known : Kernel.finiteCells (values.map finite) = values.map finite := by
    simp [Kernel.finiteCells]
  rw [Kernel.zScoreRow, known]
  rw [mean_finite, deviation_finite, mean, spread, List.map_map]
  refine List.map_congr_left fun v _ => ?_
  by_cases positive : 0 < deviation
  · simp [positive, div_finite _ positive.ne']
  · have none : deviation = 0 := by
      refine le_antisymm (not_lt.mp positive) ?_
      rw [← spread]
      exact Real.sqrt_nonneg _
    simp [none]

end Extended

end FactorSearch
