import FactorSearch.Proofs.Policy.StepGradient
import FactorSearch.Policy.Adam

/-!
# The estimates of the optimizer

In exact arithmetic the moments of an optimizer are sums over all gradients so far, of which older
ones count less.  Corrected for the start at zero they are averages: the weights are nonnegative and
sum to one.  So a coordinate moves by its own gradients alone, not at all without any, and by less
than the learning rate in the first step.  All of that ends when the count of the steps wraps
around, since the correction is by the count.
-/

set_option autoImplicit false

namespace FactorSearch

theorem Scalar.power_real (x : ℝ) (n : Nat) : Scalar.power x n = x ^ n := by
  induction n with
  | zero => rw [Scalar.power, Scalar.one_real, pow_zero]
  | succ n ih => rw [Scalar.power, ih, pow_succ]

theorem Scalar.zpower_real (x : ℝ) (n : Int) : Scalar.zpower x n = x ^ n := by
  cases n with
  | ofNat n => rw [Scalar.zpower, Scalar.power_real, Int.ofNat_eq_natCast, zpow_natCast]
  | negSucc n =>
    rw [Scalar.zpower, Scalar.power_real, Scalar.one_real, zpow_negSucc, one_div]

namespace Policy

namespace Adam

/-! ## Sums that fade -/

/-- The weight of the `k`-th of `n` values, where each value counts by the decay less than the one
after it and the weights of all sum to one. -/
noncomputable def weight (decay : ℝ) (n k : Nat) : ℝ :=
  (1 - decay) * decay ^ (n - k) / (1 - decay ^ n)

noncomputable def average (decay : ℝ) (x : Nat → ℝ) (n : Nat) : ℝ :=
  ∑ k ∈ Finset.Icc 1 n, weight decay n k * x k

/-- The moment of `n` values before it is corrected for its start at zero. -/
noncomputable def moment (decay : ℝ) (x : Nat → ℝ) (n : Nat) : ℝ :=
  ∑ k ∈ Finset.Icc 1 n, (1 - decay) * decay ^ (n - k) * x k

theorem moment_zero (decay : ℝ) (x : Nat → ℝ) : moment decay x 0 = 0 := rfl

theorem moment_succ (decay : ℝ) (x : Nat → ℝ) (n : Nat) :
    moment decay x (n + 1) = decay * moment decay x n + (1 - decay) * x (n + 1) := by
  rw [moment, Finset.sum_Icc_succ_top (Nat.le_add_left 1 n), moment, Finset.mul_sum, Nat.sub_self,
    pow_zero, mul_one]
  refine congrArg (· + _) (Finset.sum_congr rfl fun k member => ?_)
  rw [Nat.sub_add_comm (Finset.mem_Icc.mp member).2, pow_succ]
  ring

theorem moment_one (decay : ℝ) (n : Nat) : moment decay (fun _ => 1) n = 1 - decay ^ n := by
  induction n with
  | zero => rw [moment_zero, pow_zero, sub_self]
  | succ n ih =>
    rw [moment_succ, ih, pow_succ]
    ring

theorem average_eq (decay : ℝ) (x : Nat → ℝ) (n : Nat) :
    average decay x n = moment decay x n / (1 - decay ^ n) := by
  rw [average, moment, Finset.sum_div]
  exact Finset.sum_congr rfl fun k _ => div_mul_eq_mul_div _ _ _

theorem average_congr (decay : ℝ) {x y : Nat → ℝ} {n : Nat}
    (same : ∀ k ∈ Finset.Icc 1 n, x k = y k) : average decay x n = average decay y n :=
  Finset.sum_congr rfl fun k member => by rw [same k member]

section Weights

variable {decay : ℝ} (nonneg : 0 ≤ decay) (below : decay < 1) {n : Nat} (some : 1 ≤ n)

include nonneg below some

theorem one_sub_pow_pos : 0 < 1 - decay ^ n :=
  sub_pos.mpr (pow_lt_one₀ nonneg below (Nat.one_le_iff_ne_zero.mp some))

theorem weight_nonneg (k : Nat) : 0 ≤ weight decay n k :=
  div_nonneg (mul_nonneg (sub_nonneg.mpr below.le) (pow_nonneg nonneg _))
    (one_sub_pow_pos nonneg below some).le

theorem sum_weight : ∑ k ∈ Finset.Icc 1 n, weight decay n k = 1 := by
  have total := average_eq decay (fun _ => 1) n
  rw [moment_one, div_self (one_sub_pow_pos nonneg below some).ne', average] at total
  simpa only [mul_one] using total

end Weights

theorem average_one {decay : ℝ} (below : decay < 1) (x : Nat → ℝ) : average decay x 1 = x 1 := by
  rw [average_eq, moment_succ, moment_zero, mul_zero, zero_add, pow_one,
    mul_div_cancel_left₀ _ (sub_pos.mpr below).ne']

/-! ## What a step moves by -/

section Steps

variable {α : Type} [Scalar α] {s : Shape}

def meanEstimate (o : Adam α s) (c : Coordinate s) : α :=
  o.means.get c / (1 - Scalar.zpower o.meanDecay o.count.toInt)

def squareEstimate (o : Adam α s) (c : Coordinate s) : α :=
  o.squares.get c / (1 - Scalar.zpower o.squareDecay o.count.toInt)

/-- One step with a gradient from some parameters to others, coordinate by coordinate. -/
structure Stepped (gradient p q : Parameters α s) (o next : Adam α s) : Prop where
  counted : next.count = o.count + 1
  mean (c : Coordinate s) : next.means.get c =
    o.meanDecay * o.means.get c + (1 - o.meanDecay) * gradient.get c
  square (c : Coordinate s) : next.squares.get c =
    o.squareDecay * o.squares.get c + (1 - o.squareDecay) * gradient.get c * gradient.get c
  moved (c : Coordinate s) : q.get c = p.get c - o.learningRate *
    (next.means.get c / (1 - Scalar.zpower o.meanDecay next.count.toInt)) /
    (Scalar.sqrt (next.squares.get c / (1 - Scalar.zpower o.squareDecay next.count.toInt)) +
      o.epsilon)

theorem get_move (o : Adam α s) (p : Parameters α s) (c : Coordinate s) :
    (o.move p).get c = p.get c -
      o.learningRate * o.meanEstimate c / (Scalar.sqrt (o.squareEstimate c) + o.epsilon) :=
  Parameters.get_ofFn ..

theorem stepped_step (o : Adam α s) (p gradient : Parameters α s) :
    Stepped gradient p (o.step p gradient).2 o (o.step p gradient).1 where
  counted := rfl
  mean _ := Parameters.get_ofFn ..
  square _ := Parameters.get_ofFn ..
  moved _ := Parameters.get_ofFn ..

/-- The optimizer and the parameters after `n` steps, of which step `k` is given the gradients
`g k`. -/
def after (o : Adam α s) (start : Parameters α s) (g : Nat → Parameters α s) :
    Nat → Adam α s × Parameters α s
  | 0 => (o, start)
  | n + 1 => (after o start g n).1.step (after o start g n).2 (g (n + 1))

end Steps

variable {s : Shape} (rate : ℝ)

theorem meanDecay_fresh : (fresh rate : Adam ℝ s).meanDecay = 0.9 := rfl

theorem squareDecay_fresh : (fresh rate : Adam ℝ s).squareDecay = 0.999 := rfl

variable (start : Parameters ℝ s) (g : Nat → Parameters ℝ s)

theorem after_fresh (n : Nat) :
    (after (fresh rate) start g n).1 =
      { (fresh rate : Adam ℝ s) with
        count := .ofNat n
        means := .ofFn fun c => moment 0.9 (fun k => (g k).get c) n
        squares := .ofFn fun c => moment 0.999 (fun k => (g k).get c ^ 2) n } := by
  induction n with
  | zero =>
    have none : Parameters.zero (s := s) = .ofFn fun _ => (0 : ℝ) := by
      rw [Parameters.zero, Scalar.zero_real]
    simp only [after, fresh, moment_zero, none]
    rfl
  | succ n ih =>
    have observed : (after (fresh rate) start g (n + 1)).1 =
        (after (fresh rate) start g n).1.observe (g (n + 1)) := rfl
    rw [observed, ih]
    simp only [observe, Parameters.zipWith, Parameters.get_ofFn, moment_succ, meanDecay_fresh,
      squareDecay_fresh, Scalar.one_real, pow_two, mul_assoc, Int32.ofNat_add]
    rfl

theorem meanEstimate_wrapped (n : Nat) (c : Coordinate s) :
    (after (fresh rate) start g n).1.meanEstimate c =
      moment 0.9 (fun k => (g k).get c) n / (1 - 0.9 ^ (Int32.ofNat n).toInt) := by
  rw [after_fresh, meanEstimate, Scalar.zpower_real, Scalar.one_real, meanDecay_fresh]
  exact congrArg (· / _) (Parameters.get_ofFn ..)

theorem squareEstimate_wrapped (n : Nat) (c : Coordinate s) :
    (after (fresh rate) start g n).1.squareEstimate c =
      moment 0.999 (fun k => (g k).get c ^ 2) n / (1 - 0.999 ^ (Int32.ofNat n).toInt) := by
  rw [after_fresh, squareEstimate, Scalar.zpower_real, Scalar.one_real, squareDecay_fresh]
  exact congrArg (· / _) (Parameters.get_ofFn ..)

section Counted

variable {n : Nat} (counted : n < 2 ^ 31)

include counted

theorem meanEstimate_after (c : Coordinate s) :
    (after (fresh rate) start g n).1.meanEstimate c = average 0.9 (fun k => (g k).get c) n := by
  rw [meanEstimate_wrapped, average_eq, Int32.toInt_ofNat_of_lt counted, zpow_natCast]

theorem squareEstimate_after (c : Coordinate s) :
    (after (fresh rate) start g n).1.squareEstimate c =
      average 0.999 (fun k => (g k).get c ^ 2) n := by
  rw [squareEstimate_wrapped, average_eq, Int32.toInt_ofNat_of_lt counted, zpow_natCast]

end Counted

/-- How far a coordinate moves down in the step after `n` steps, by its own gradients. -/
noncomputable def shift (own : Nat → ℝ) (n : Nat) : ℝ :=
  rate * average 0.9 own n / (√(average 0.999 (fun k => own k ^ 2) n) + 1e-8)

theorem get_after_succ {n : Nat} (counted : n + 1 < 2 ^ 31) (c : Coordinate s) :
    (after (fresh rate) start g (n + 1)).2.get c =
      (after (fresh rate) start g n).2.get c - shift rate (fun k => (g k).get c) (n + 1) := by
  have moved : (after (fresh rate) start g (n + 1)).2 =
      (after (fresh rate) start g (n + 1)).1.move (after (fresh rate) start g n).2 := rfl
  rw [moved, get_move, meanEstimate_after rate start g counted,
    squareEstimate_after rate start g counted, after_fresh]
  rfl

theorem shift_congr {own other : Nat → ℝ} {n : Nat}
    (same : ∀ k ∈ Finset.Icc 1 n, own k = other k) : shift rate own n = shift rate other n := by
  rw [shift, shift, average_congr 0.9 same,
    average_congr 0.999 fun k member => congrArg (· ^ 2) (same k member)]

theorem shift_of_zero {own : Nat → ℝ} {n : Nat} (none : ∀ k ∈ Finset.Icc 1 n, own k = 0) :
    shift rate own n = 0 := by
  have mean : average 0.9 own n = 0 :=
    Finset.sum_eq_zero fun k member => by rw [none k member, mul_zero]
  rw [shift, mean, mul_zero, zero_div]

theorem shift_one (own : Nat → ℝ) : shift rate own 1 = rate * own 1 / (|own 1| + 1e-8) := by
  rw [shift, average_one (by norm_num), average_one (by norm_num), Real.sqrt_sq_eq_abs]

theorem get_after_one (c : Coordinate s) :
    (after (fresh rate) start g 1).2.get c - start.get c =
      -shift rate (fun k => (g k).get c) 1 := by
  rw [get_after_succ rate start g (by norm_num), after, sub_sub_cancel_left]

theorem get_after_of_zero {n : Nat} (counted : n < 2 ^ 31) (c : Coordinate s)
    (none : ∀ k ∈ Finset.Icc 1 n, (g k).get c = 0) :
    (after (fresh rate) start g n).2.get c = start.get c := by
  induction n with
  | zero => rfl
  | succ n ih =>
    have earlier : ∀ k ∈ Finset.Icc 1 n, (g k).get c = 0 :=
      fun k member => none k (Finset.Icc_subset_Icc_right n.le_succ member)
    rw [get_after_succ rate start g counted, ih (Nat.lt_of_succ_lt counted) earlier,
      shift_of_zero rate none, sub_zero]

/-- The first step goes against the sign of the gradient, by less than the learning rate. -/
theorem first_shift (own : Nat → ℝ) (positive : 0 < rate) (some : own 1 ≠ 0) :
    0 < shift rate own 1 * own 1 ∧ |shift rate own 1| < rate := by
  have size : 0 < |own 1| := abs_pos.mpr some
  have room : 0 < |own 1| + 1e-8 := by positivity
  rw [shift_one]
  constructor
  · rw [div_mul_eq_mul_div, mul_assoc]
    exact div_pos (mul_pos positive (mul_self_pos.mpr some)) room
  · rw [abs_div, abs_mul, abs_of_pos positive, abs_of_pos room, div_lt_iff₀ room]
    exact mul_lt_mul_of_pos_left (lt_add_of_pos_right _ (by norm_num)) positive

/-- Weights of the values from the first to the `n`-th that make an average. -/
structure Averaging (n : Nat) (w : Nat → ℝ) : Prop where
  nonneg : ∀ k, 0 ≤ w k
  total : ∑ k ∈ Finset.Icc 1 n, w k = 1

theorem averaging_weight {decay : ℝ} (nonneg : 0 ≤ decay) (below : decay < 1) {n : Nat}
    (some : 1 ≤ n) : Averaging n (weight decay n) :=
  ⟨weight_nonneg nonneg below some, sum_weight nonneg below some⟩

/-- Until the count wraps around, the estimates that a step of a fresh optimizer uses are averages
of the gradients so far and of their squares, later ones weighing more.  They decide how the step
moves a coordinate, wherever it stands and whatever the gradients of the others; a coordinate
without gradients stays where it started, and the first step moves one with a gradient against its
sign by less than the rate. -/
theorem estimates_averaged (n : Nat) (some : 1 ≤ n) (counted : n < 2 ^ 31) (c : Coordinate s) :
    let used := (after (fresh rate) start g n).1
    let held (n : Nat) := (after (fresh rate) start g n).2.get c
    (used.meanEstimate c = ∑ k ∈ Finset.Icc 1 n, weight 0.9 n k * (g k).get c ∧
        used.squareEstimate c = ∑ k ∈ Finset.Icc 1 n, weight 0.999 n k * (g k).get c ^ 2) ∧
      (Averaging n (weight 0.9 n) ∧ Averaging n (weight 0.999 n)) ∧
      held n = held (n - 1) - rate * used.meanEstimate c / (√(used.squareEstimate c) + 1e-8) ∧
      (∀ {s' : Shape} (start' : Parameters ℝ s') (g' : Nat → Parameters ℝ s')
        (c' : Coordinate s'), (∀ k ∈ Finset.Icc 1 n, (g' k).get c' = (g k).get c) →
          (after (fresh rate) start' g' n).2.get c' -
            (after (fresh rate) start' g' (n - 1)).2.get c' = held n - held (n - 1)) ∧
      ((∀ k ∈ Finset.Icc 1 n, (g k).get c = 0) → held n = start.get c) ∧
      (0 < rate → (g 1).get c ≠ 0 →
        (held 1 - start.get c) * (g 1).get c < 0 ∧ |held 1 - start.get c| < rate) := by
  intro used held
  obtain ⟨n, rfl⟩ := Nat.exists_eq_succ_of_ne_zero (Nat.one_le_iff_ne_zero.mp some)
  have mean := meanEstimate_after rate start g counted c
  have square := squareEstimate_after rate start g counted c
  refine ⟨⟨mean, square⟩,
    ⟨averaging_weight (by norm_num) (by norm_num) some,
      averaging_weight (by norm_num) (by norm_num) some⟩,
    ?step, ?own, get_after_of_zero rate start g counted c, ?first⟩
  case step =>
    simp only [held, used, mean, square]
    exact get_after_succ rate start g counted c
  case own =>
    intro s' start' g' c' same
    simp only [held, Nat.succ_eq_add_one, Nat.add_sub_cancel, get_after_succ _ _ _ counted,
      shift_congr rate same, sub_sub_cancel_left]
  case first =>
    intro positive gradient
    have moved := get_after_one rate start g c
    obtain ⟨against, less⟩ := first_shift rate (fun k => (g k).get c) positive gradient
    rw [moved, neg_mul, abs_neg]
    exact ⟨neg_neg_of_pos against, less⟩

/-- One coordinate has the gradient two in every step, and no other has any. -/
theorem lone_gradient_averaged :
    let c : Coordinate ⟨1, 1, 1, 1, 0⟩ := .outputBias 0
    let g : Nat → Parameters ℝ ⟨1, 1, 1, 1, 0⟩ := fun _ => Parameters.zero.set c 2
    let held (n : Nat) := after (fresh 0.01) Parameters.zero g n
    (held 5).1.meanEstimate c = 2 ∧ (held 5).2.get (.outputBias 1) = 0 ∧
      (held 1).2.get c * 2 < 0 ∧ |(held 1).2.get c| < 0.01 := by
  intro c g held
  have origin (d : Coordinate ⟨1, 1, 1, 1, 0⟩) : (Parameters.zero (α := ℝ)).get d = 0 :=
    (Parameters.get_ofFn ..).trans Scalar.zero_real
  have here (k : Nat) : (g k).get c = 2 := (Parameters.get_ofFn ..).trans (if_pos rfl)
  have there (k : Nat) : (g k).get (.outputBias 1) = 0 :=
    (Parameters.get_ofFn ..).trans ((if_neg (by decide)).trans (origin _))
  obtain ⟨⟨mean, -⟩, ⟨averaging, -⟩, -, -, -, first⟩ :=
    estimates_averaged 0.01 .zero g 5 (by decide) (by decide) c
  obtain ⟨-, -, -, -, still, -⟩ :=
    estimates_averaged 0.01 .zero g 5 (by decide) (by decide) (.outputBias 1)
  obtain ⟨against, less⟩ := first (by norm_num) ((here 1).trans_ne two_ne_zero)
  simp only [here, ← Finset.sum_mul, averaging.total, one_mul] at mean
  rw [origin, sub_zero, here 1] at against
  rw [origin, sub_zero] at less
  exact ⟨mean, (still fun k _ => there k).trans (origin _), against, less⟩

/-- With a gradient of one in every step the estimate is one, until the count is negative: then the
correction has the other sign.  And where the learning rate is negative, the first step goes with
the gradient. -/
theorem wrapped_count_inverts :
    let c : Coordinate ⟨1, 1, 1, 1, 0⟩ := .outputBias 0
    let g : Nat → Parameters ℝ ⟨1, 1, 1, 1, 0⟩ := fun _ => Parameters.zero.set c 1
    ((after (fresh 0.01) Parameters.zero g (2 ^ 31)).1.meanEstimate c < 0 ∧
        ∑ k ∈ Finset.Icc 1 (2 ^ 31), weight 0.9 (2 ^ 31) k * (g k).get c = 1) ∧
      0 < (after (fresh (-0.01)) Parameters.zero g 1).2.get c * (g 1).get c := by
  intro c g
  have here (k : Nat) : (g k).get c = 1 := (Parameters.get_ofFn ..).trans (if_pos rfl)
  refine ⟨⟨?_, ?_⟩, ?_⟩
  · have wrapped : (Int32.ofNat (2 ^ 31)).toInt = -(2 ^ 31) := rfl
    have some : 1 ≤ 2 ^ 31 := Nat.one_le_two_pow
    rw [meanEstimate_wrapped, wrapped]
    simp only [here, moment_one]
    refine div_neg_of_pos_of_neg (one_sub_pow_pos (by norm_num) (by norm_num) some) ?_
    exact sub_neg_of_lt (one_lt_zpow_of_neg₀ (by norm_num) (by norm_num) (by norm_num))
  · simp only [here, mul_one]
    exact sum_weight (by norm_num) (by norm_num) Nat.one_le_two_pow
  · have origin : (Parameters.zero (α := ℝ)).get c = 0 :=
      (Parameters.get_ofFn ..).trans Scalar.zero_real
    have moved := get_after_one (-0.01) Parameters.zero g c
    rw [origin, sub_zero, shift_one, here 1] at moved
    rw [moved, here 1]
    norm_num

end Adam

end Policy

end FactorSearch
