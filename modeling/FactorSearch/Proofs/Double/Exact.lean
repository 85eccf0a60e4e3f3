import Mathlib
import FactorSearch.Proofs.Double.Overflow

/-!
# Exact results

A nonzero finite double is stored in one way only: its exponent is the one that rounding would
choose for its value.  So an operation whose exact result is the value of some double gives that
double, whatever the operands are.
-/

set_option autoImplicit false

namespace FactorSearch

namespace Double

open Float.Model

/-! ## Mantissas and exponents -/

theorem log2_mul_two_pow (m k : Nat) (positive : 0 < m) : (m * 2 ^ k).log2 = m.log2 + k := by
  have some : m * 2 ^ k ≠ 0 := (Nat.mul_pos positive (Nat.two_pow_pos k)).ne'
  obtain ⟨below, above⟩ := (Nat.log2_eq_iff positive.ne').mp rfl
  rw [Nat.log2_eq_iff some, Nat.pow_add, Nat.add_right_comm, Nat.pow_add]
  exact ⟨Nat.mul_le_mul_right _ below, Nat.mul_lt_mul_of_pos_right above (Nat.two_pow_pos k)⟩

theorem log2_mul_le (m n : Nat) (left : 0 < m) (right : 0 < n) :
    (m * n).log2 ≤ m.log2 + n.log2 + 1 := by
  have above := ((Nat.log2_eq_iff left.ne').mp rfl).2
  have beyond := ((Nat.log2_eq_iff right.ne').mp rfl).2
  have product : m * n < 2 ^ (m.log2 + n.log2 + 2) := by
    calc m * n < 2 ^ (m.log2 + 1) * 2 ^ (n.log2 + 1) := Nat.mul_lt_mul'' above beyond
      _ = 2 ^ (m.log2 + n.log2 + 2) := by rw [← Nat.pow_add]; congr 1; omega
  have bound := (Nat.log2_lt (Nat.mul_pos left right).ne').mpr product
  omega

theorem two_zpow_eq {e i : Int} (k : Nat) (sum : e = k + i) : (2 : ℚ) ^ e = 2 ^ k * 2 ^ i := by
  rw [sum, zpow_add₀ two_ne_zero, zpow_natCast]

theorem apply_mul (sign : UnpackedFloat.Sign) (m k : Nat) :
    ((sign.apply ((m * k : Nat) : Int) : Int) : ℚ) = sign.apply (m : Int) * k := by
  cases sign with
  | positive | negative => simp [UnpackedFloat.Sign.apply]

/-- Of two mantissas with one value, that of the smaller exponent is a multiple of the other. -/
theorem mantissa_eq_of_value {m n : Nat} {i j : Int} (order : i ≤ j)
    (same : (m : ℚ) * 2 ^ i = n * 2 ^ j) : m = n * 2 ^ (j - i).toNat := by
  have steps : (2 : ℚ) ^ j = 2 ^ (j - i).toNat * 2 ^ i := two_zpow_eq _ (by omega)
  rw [steps, ← mul_assoc] at same
  have equal := mul_right_cancel₀ (zpow_ne_zero i two_ne_zero) same
  exact_mod_cast equal

theorem log2_add_of_value {m n : Nat} {i j : Int} (left : 0 < m) (right : 0 < n)
    (same : (m : ℚ) * 2 ^ i = n * 2 ^ j) : (m.log2 : Int) + i = n.log2 + j := by
  rcases Int.le_total i j with order | order
  · rw [mantissa_eq_of_value order same, log2_mul_two_pow _ _ right]
    omega
  · rw [mantissa_eq_of_value order same.symm, log2_mul_two_pow _ _ left]
    omega

theorem target_eq (m : Nat) (e : Int) :
    Format.binary64.targetExponent (totalExponent m e) = max (m.log2 + e - 52) (-1074) := by
  have bits : ((Format.binary64.mantissaBits : Nat) : Int) = 53 := rfl
  have least : Format.binary64.minExponent = -1074 := rfl
  rw [Format.targetExponent, totalExponent, bits, least]
  congr 1
  omega

/-- A positive mantissa with the exponent that rounding would choose. -/
structure Canonical (m : Nat) (e : Int) : Prop where
  positive : 0 < m
  target : max (m.log2 + e - 52) (-1074) = e

theorem Canonical.unique {m n : Nat} {i j : Int} (left : Canonical m i) (right : Canonical n j)
    (same : (m : ℚ) * 2 ^ i = n * 2 ^ j) : m = n ∧ i = j := by
  have total := log2_add_of_value left.positive right.positive same
  have exponents : i = j := by
    rw [← left.target, ← right.target, total]
  subst exponents
  have mantissas := mantissa_eq_of_value le_rfl same
  rw [Int.sub_self, Int.toNat_zero, Nat.pow_zero, Nat.mul_one] at mantissas
  exact ⟨mantissas, rfl⟩

/-! ## Rounding what needs no rounding -/

theorem shift_multiple (m k : Nat) :
    UnpackedFloat.ExtendedMantissa.mk (m * 2 ^ k) false false >>> k = ⟨m, false, false⟩ := by
  change Nat.repeat UnpackedFloat.ExtendedMantissa.shiftRightOne k ⟨m * 2 ^ k, false, false⟩ = _
  induction k generalizing m with
  | zero => rw [Nat.pow_zero, Nat.mul_one]; rfl
  | succ k ih =>
    rw [Nat.repeat, Nat.pow_succ, Nat.mul_comm (2 ^ k), ← Nat.mul_assoc, ih (m * 2)]
    simp [UnpackedFloat.ExtendedMantissa.shiftRightOne]

theorem shiftToTarget_multiple {m : Nat} {e : Int} (canonical : Canonical m e) (k : Nat) :
    UnpackedFloat.shiftToTargetExponent Format.binary64 (m * 2 ^ k) (e - k) .exact =
      (⟨m, false, false⟩, e) := by
  have target := canonical.target
  have amount : (max (((m * 2 ^ k).log2 : Int) + (e - k) - 52) (-1074) - (e - k)).toNat = k := by
    rw [log2_mul_two_pow m k canonical.positive]
    omega
  have exponent : e - k + (k : Int) = e := by omega
  rw [UnpackedFloat.shiftToTargetExponent, target_eq, UnpackedFloat.shiftToExponent]
  simp only [amount, exponent, UnpackedFloat.ExtendedMantissa.ofMantissaAndAccuracy, shift_multiple]

theorem roundWithAccuracy_exact (sign : UnpackedFloat.Sign) {m : Nat} {e : Int}
    (canonical : Canonical m e) (k : Nat) :
    UnpackedFloat.roundWithAccuracy Format.binary64 sign (m * 2 ^ k) (e - k) .exact =
      .finite sign m e canonical.positive := by
  have again := shiftToTarget_multiple canonical 0
  rw [Nat.pow_zero, Nat.mul_one, Nat.cast_zero, Int.sub_zero] at again
  rw [UnpackedFloat.roundWithAccuracy, shiftToTarget_multiple canonical k]
  simp only [UnpackedFloat.ExtendedMantissa.roundedMantissa,
    UnpackedFloat.ExtendedMantissa.accuracy, UnpackedFloat.Accuracy.roundToNearestEven, again,
    canonical.positive.ne', dite_false]

theorem round_exact (sign : UnpackedFloat.Sign) {m n : Nat} {e i : Int}
    (canonical : Canonical m e) (positive : 0 < n) (same : (n : ℚ) * 2 ^ i = m * 2 ^ e) :
    UnpackedFloat.round Format.binary64 sign n i = .finite sign m e canonical.positive := by
  have total := log2_add_of_value positive canonical.positive same
  have target : Format.binary64.targetExponent (totalExponent n i) = e := by
    rw [target_eq, total]
    exact canonical.target
  rw [UnpackedFloat.round, target, UnpackedFloat.decreaseExponent]
  dsimp only
  -- a mantissa of a larger exponent is first shifted left, one of a smaller exponent right
  rcases Int.le_total e i with order | order
  · have shifted := mantissa_eq_of_value order same.symm
    have amount : i - ((i - e).toNat : Int) = e := by omega
    have exact := roundWithAccuracy_exact sign canonical 0
    rw [Nat.pow_zero, Nat.mul_one, Nat.cast_zero, Int.sub_zero] at exact
    rw [Nat.shiftLeft_eq, ← shifted, amount, exact]
  · have kept : (i - e).toNat = 0 := by omega
    have amount : e - ((e - i).toNat : Int) = i := by omega
    have exact := roundWithAccuracy_exact sign canonical (e - i).toNat
    rw [amount, ← mantissa_eq_of_value order same] at exact
    rw [kept, Nat.shiftLeft_zero, Nat.cast_zero, Int.sub_zero, exact]

/-- The rational number that an unpacked double stands for; zero when it is not finite. -/
def valueOf : UnpackedFloat → ℚ
  | .finite sign m e _ => sign.apply (m : Int) * 2 ^ e
  | _ => 0

def value (x : Float) : ℚ := valueOf x.toModel.unpack

theorem normalize_exact (sign zero : UnpackedFloat.Sign) {m : Nat} {e i n : Int}
    (canonical : Canonical m e) (same : (n : ℚ) * 2 ^ i = sign.apply (m : Int) * 2 ^ e) :
    UnpackedFloat.normalize Format.binary64 n i zero = .finite sign m e canonical.positive := by
  have unit (j : Int) : (0 : ℚ) < 2 ^ j := zpow_pos two_pos j
  have size : (0 : ℚ) < m := Nat.cast_pos.mpr canonical.positive
  cases sign with
  | positive =>
    change (n : ℚ) * 2 ^ i = ((m : Int) : ℚ) * 2 ^ e at same
    rw [Int.cast_natCast] at same
    have above : 0 < n := by
      have product : (0 : ℚ) < n * 2 ^ i := same ▸ mul_pos size (unit e)
      exact_mod_cast pos_of_mul_pos_left product (unit i).le
    have order : compare n 0 = .gt := Int.compare_eq_gt.mpr above
    have spelled : ((n.toNat : Nat) : ℚ) = n := by
      exact_mod_cast Int.toNat_of_nonneg above.le
    rw [UnpackedFloat.normalize, order]
    exact round_exact .positive canonical (by omega) (by rw [spelled, same])
  | negative =>
    change (n : ℚ) * 2 ^ i = ((-(m : Int) : Int) : ℚ) * 2 ^ e at same
    rw [Int.cast_neg, Int.cast_natCast, neg_mul] at same
    have below : n < 0 := by
      have product : n * (2 : ℚ) ^ i < 0 := same ▸ neg_neg_of_pos (mul_pos size (unit e))
      exact_mod_cast neg_of_mul_neg_left product (unit i).le
    have order : compare n 0 = .lt := Int.compare_eq_lt.mpr below
    have spelled : (((-n).toNat : Nat) : ℚ) = -n := by
      exact_mod_cast Int.toNat_of_nonneg (by omega : 0 ≤ -n)
    rw [UnpackedFloat.normalize, order]
    exact round_exact .negative canonical (by omega) (by rw [spelled, neg_mul, same, neg_neg])

/-! ## Stored doubles -/

theorem toNat_leading (mantissa : BitVec 52) :
    (1#1 ++ mantissa).toNat = 2 ^ 52 + mantissa.toNat := by
  have joined := Nat.two_pow_add_eq_or_of_lt mantissa.isLt 1
  rw [Nat.mul_one] at joined
  exact (BitVec.toNat_append ..).trans joined.symm

theorem canonical_of_unpack {x : Float} {sign : UnpackedFloat.Sign} {m : Nat} {e : Int}
    {positive : 0 < m} (stored : x.toModel.unpack = .finite sign m e positive) :
    Canonical m e := by
  refine ⟨positive, ?_⟩
  change UnpackedFloat.unpack Format.binary64 x.toModel.toBits.toBitVec = _ at stored
  generalize x.toModel.toBits.toBitVec = bits at stored
  have bias : (Format.binary64.exponentBias : Int) + Format.binary64.mantissaBitsWithoutImplicit =
    1075 := rfl
  have below := (@UnpackedFloat.unpackMantissa Format.binary64 bits).isLt
  have leading := toNat_leading (@UnpackedFloat.unpackMantissa Format.binary64 bits)
  simp only [UnpackedFloat.unpack, bias] at stored
  split at stored
  · split at stored
    · cases stored
    · cases stored
  · split at stored
    · split at stored
      · cases stored
      · rename_i _ none some
        cases stored
        have small : (@UnpackedFloat.unpackMantissa Format.binary64 bits).toNat.log2 < 52 :=
          (Nat.log2_lt positive.ne').mpr below
        rw [none]
        have zero : ((0#11).toNat : Int) = 0 := rfl
        omega
    · rename_i _ some
      cases stored
      have nonzero : (@UnpackedFloat.unpackExponent Format.binary64 bits).toNat ≠ 0 :=
        fun none => some (BitVec.eq_of_toNat_eq none)
      have log : (1#1 ++ @UnpackedFloat.unpackMantissa Format.binary64 bits).toNat.log2 = 52 := by
        rw [Nat.log2_eq_iff positive.ne', leading]
        omega
      omega

theorem eq_of_unpack {x y : Float} (same : x.toModel.unpack = y.toModel.unpack) : x = y := by
  rw [← Float.toBits_inj, ← UInt64.toBitVec_inj]
  exact (UnpackedFloat.unpack_inj_of_valid x.toModel.valid y.toModel.valid).mp same

theorem unpack_pack_unpack (x : Float) : (pack x.toModel.unpack).unpack = x.toModel.unpack := by
  change UnpackedFloat.unpack Format.binary64 (UnpackedFloat.pack Format.binary64
    (UnpackedFloat.unpack Format.binary64 x.toModel.toBits.toBitVec)) = _
  rw [UnpackedFloat.pack_unpack_of_valid x.toModel.valid]
  rfl

theorem exists_canonical {x : Float} (some : value x ≠ 0) :
    ∃ (sign : UnpackedFloat.Sign) (m : Nat) (e : Int) (canonical : Canonical m e),
      x.toModel.unpack = .finite sign m e canonical.positive ∧
        value x = sign.apply (m : Int) * 2 ^ e := by
  rw [value] at some
  cases kind : x.toModel.unpack with
  | finite sign m e positive =>
    exact ⟨sign, m, e, canonical_of_unpack kind, rfl, by rw [value, kind, valueOf]⟩
  | zero | notANumber | infinity =>
    rw [kind] at some
    exact absurd rfl some

theorem eq_of_normalize {x w : Float} (zero : UnpackedFloat.Sign) {n i : Int}
    (computed : x.toModel.unpack = (pack (UnpackedFloat.normalize Format.binary64 n i zero)).unpack)
    (some : value w ≠ 0) (same : (n : ℚ) * 2 ^ i = value w) : x = w := by
  obtain ⟨sign, m, e, canonical, stored, spelled⟩ := exists_canonical some
  rw [spelled] at same
  apply eq_of_unpack
  rw [computed, normalize_exact sign zero canonical same, ← stored, unpack_pack_unpack]

theorem eq_of_value {x y : Float} (some : value y ≠ 0) (same : value x = value y) : x = y := by
  obtain ⟨sign, m, e, canonical, stored, spelled⟩ := exists_canonical (same ▸ some)
  have rounded := normalize_exact sign .positive canonical rfl
  apply eq_of_normalize .positive (n := sign.apply (m : Int)) (i := e) _ some
  · rw [← spelled, same]
  · rw [rounded, ← stored, unpack_pack_unpack]

/-! ## Sums -/

theorem apply_shiftLeft (sign : UnpackedFloat.Sign) (m : Nat) (e i : Int) (below : i ≤ e) :
    ((sign.apply ((m <<< (e - i).toNat : Nat) : Int) : Int) : ℚ) * 2 ^ i =
      sign.apply (m : Int) * 2 ^ e := by
  have steps : (2 : ℚ) ^ e = 2 ^ (e - i).toNat * 2 ^ i := two_zpow_eq _ (by omega)
  rw [Nat.shiftLeft_eq, apply_mul, steps, Nat.cast_pow, Nat.cast_ofNat, mul_assoc]

theorem add_exact {x y w : Float} (left : Scalar.isFinite x = true)
    (right : Scalar.isFinite y = true) (some : value w ≠ 0) (same : value x + value y = value w) :
    x + y = w := by
  rw [isFinite_eq] at left right
  cases first : x.toModel.unpack with
  | notANumber | infinity =>
    rw [first] at left
    cases left
  | zero sign =>
    have nothing : value x = 0 := by
      rw [value, first]
      rfl
    rw [nothing, zero_add] at same
    obtain rfl := eq_of_value some same
    apply eq_of_unpack
    have kept : UnpackedFloat.add Format.binary64 (.zero sign) y.toModel.unpack =
        y.toModel.unpack := by
      obtain ⟨other, m, e, canonical, stored, _⟩ := exists_canonical some
      rw [stored]
      rfl
    rw [unpack_add, first, kept, unpack_pack_unpack]
  | finite sign m e positive =>
    have spelled : value x = sign.apply (m : Int) * 2 ^ e := by rw [value, first, valueOf]
    cases second : y.toModel.unpack with
    | notANumber | infinity =>
      rw [second] at right
      cases right
    | zero other =>
      have nothing : value y = 0 := by
        rw [value, second]
        rfl
      rw [nothing, add_zero] at same
      obtain rfl := eq_of_value some same
      apply eq_of_unpack
      rw [unpack_add, second, first]
      change (pack (.finite sign m e positive)).unpack = _
      rw [← first, unpack_pack_unpack]
    | finite other n i large =>
      have heard : value y = other.apply (n : Int) * 2 ^ i := by rw [value, second, valueOf]
      have computed := unpack_add x y
      rw [first, second] at computed
      apply eq_of_normalize .positive computed some
      have aligned := apply_shiftLeft sign m e (min e i) (min_le_left ..)
      have lowered := apply_shiftLeft other n i (min e i) (min_le_right ..)
      rw [Int.cast_add, add_mul, aligned, lowered, ← spelled, ← heard, same]

/-! ## Quotients -/

theorem sign_of_value {first second : UnpackedFloat.Sign} {m n : Nat} {e i : Int}
    (left : 0 < m) (right : 0 < n)
    (same : (first.apply (m : Int) : ℚ) * 2 ^ e = second.apply (n : Int) * 2 ^ i) :
    first = second ∧ (m : ℚ) * 2 ^ e = n * 2 ^ i := by
  have above : (0 : ℚ) < m * 2 ^ e := mul_pos (Nat.cast_pos.mpr left) (zpow_pos two_pos e)
  have beyond : (0 : ℚ) < n * 2 ^ i := mul_pos (Nat.cast_pos.mpr right) (zpow_pos two_pos i)
  cases first with
  | positive =>
    cases second with
    | positive => exact ⟨rfl, by simpa [UnpackedFloat.Sign.apply] using same⟩
    | negative =>
      simp only [UnpackedFloat.Sign.apply, Int.cast_neg, Int.cast_natCast, neg_mul] at same
      linarith
  | negative =>
    cases second with
    | positive =>
      simp only [UnpackedFloat.Sign.apply, Int.cast_neg, Int.cast_natCast, neg_mul] at same
      linarith
    | negative => exact ⟨rfl, by simpa [UnpackedFloat.Sign.apply] using same⟩

/-- The division of mantissas leaves no remainder when the quotient is a stored value. -/
theorem divCore_exact {m n q : Nat} {e i j : Int} (left : 0 < m) (right : 0 < n)
    (quotient : Canonical q j) (same : (m : ℚ) * 2 ^ e = (q * n : Nat) * 2 ^ (j + i)) :
    ∃ k : Nat, UnpackedFloat.divCore Format.binary64 m e n i = (q * 2 ^ k, j - k, .exact) := by
  have total := log2_add_of_value left (Nat.mul_pos quotient.positive right) same
  have product := log2_mul_le q n quotient.positive right
  have target := quotient.target
  have bits : ((Format.binary64.mantissaBits : Nat) : Int) = 53 := rfl
  have least : Format.binary64.minExponent = -1074 := rfl
  -- the quotient has one bit more or less than the difference of the sizes tells
  have chosen : Format.binary64.targetExponent (totalExponent m e - totalExponent n i) ≤ j := by
    rw [Format.targetExponent, totalExponent, totalExponent, bits, least]
    omega
  generalize aim : Format.binary64.targetExponent (totalExponent m e - totalExponent n i) = aimed
    at chosen
  have low : min (e - i) aimed ≤ j := (min_le_right ..).trans chosen
  have shifted : m * 2 ^ (e - i - min (e - i) aimed).toNat =
      q * n * 2 ^ (j - min (e - i) aimed).toNat := by
    apply mantissa_eq_of_value low
    have apart : (2 : ℚ) ^ e = 2 ^ (e - i) * 2 ^ i := by
      rw [← zpow_add₀ two_ne_zero, sub_add_cancel]
    have steps : (2 : ℚ) ^ (e - i) = 2 ^ (e - i - min (e - i) aimed).toNat *
        2 ^ min (e - i) aimed := two_zpow_eq _ (by omega)
    rw [zpow_add₀ two_ne_zero, ← mul_assoc, apart, ← mul_assoc] at same
    have equal := mul_right_cancel₀ (zpow_ne_zero i two_ne_zero) same
    rw [← equal, steps, Nat.cast_mul, Nat.cast_pow, Nat.cast_ofNat, mul_assoc]
  refine ⟨(j - min (e - i) aimed).toNat, ?_⟩
  have whole : q * n * 2 ^ (j - min (e - i) aimed).toNat =
      q * 2 ^ (j - min (e - i) aimed).toNat * n := by
    rw [Nat.mul_right_comm]
  have back : j - ((j - min (e - i) aimed).toNat : Int) = min (e - i) aimed := by omega
  rw [UnpackedFloat.divCore, aim, Nat.shiftLeft_eq, shifted, whole, Nat.mul_div_cancel _ right,
    Nat.mul_mod_left, back]
  rfl

theorem div_exact {x y w : Float} (unsigned : Unsigned y.toModel.unpack) (some : value w ≠ 0)
    (below : value y ≠ 0) (same : value x = value w * value y) : x / y = w := by
  obtain ⟨sign, m, e, numerator, first, spelled⟩ :=
    exists_canonical (x := x) (by rw [same]; exact mul_ne_zero some below)
  obtain ⟨divisor, n, i, denominator, second, heard⟩ := exists_canonical below
  obtain ⟨other, q, j, quotient, stored, meant⟩ := exists_canonical some
  rw [second] at unsigned
  cases unsigned
  have product : (sign.apply (m : Int) : ℚ) * 2 ^ e =
      other.apply ((q * n : Nat) : Int) * 2 ^ (j + i) := by
    rw [← spelled, same, meant, heard, zpow_add₀ two_ne_zero, apply_mul]
    simp only [UnpackedFloat.Sign.apply, Int.cast_natCast]
    ring
  obtain ⟨rfl, size⟩ := sign_of_value numerator.positive
    (Nat.mul_pos quotient.positive denominator.positive) product
  obtain ⟨k, core⟩ := divCore_exact numerator.positive denominator.positive quotient size
  have sign_div : sign / .positive = sign := by
    cases sign with
    | positive | negative => rfl
  apply eq_of_unpack
  rw [unpack_div, first, second]
  simp only [UnpackedFloat.div, core, sign_div]
  rw [roundWithAccuracy_exact sign quotient k, ← stored, unpack_pack_unpack]

/-! ## Numbers that are doubles -/

theorem unpack_pack_normal (sign : UnpackedFloat.Sign) (m : Nat) (e : Int) (positive : 0 < m)
    (normal : m.log2 = 52) (low : -1074 ≤ e) (high : e ≤ 971) :
    (pack (.finite sign m e positive)).unpack = .finite sign m e positive := by
  obtain ⟨below, above⟩ := (Nat.log2_eq_iff positive.ne').mp normal
  change UnpackedFloat.unpack Format.binary64 (UnpackedFloat.pack Format.binary64 _) = _
  have bias : (Format.binary64.exponentBias : Int) = 1023 := rfl
  have width : Format.binary64.mantissaBits = 53 := rfl
  have inside : ¬ 2 ^ Format.binary64.exponentBits ≤ (e + 1023 + (52 : Nat)).toNat + 1 := by
    change ¬ 2048 ≤ _
    omega
  have stored : (BitVec.ofNat 11 (e + 1023 + (52 : Nat)).toNat).toNat = (e + 1075).toNat := by
    rw [BitVec.toNat_ofNat, Nat.mod_eq_of_lt (by omega)]
    omega
  have notTop : BitVec.ofNat 11 (e + 1023 + (52 : Nat)).toNat ≠ -1#11 := by
    intro top
    have same := congrArg BitVec.toNat top
    rw [stored] at same
    change _ = 2047 at same
    omega
  have notZero : BitVec.ofNat 11 (e + 1023 + (52 : Nat)).toNat ≠ 0#11 := by
    intro bottom
    have same := congrArg BitVec.toNat bottom
    rw [stored] at same
    change _ = 0 at same
    omega
  have rest : (1#1 ++ BitVec.ofNat 52 m).toNat = m := by
    rw [toNat_leading, BitVec.toNat_ofNat]
    omega
  simp only [UnpackedFloat.pack, bias, width, inside, normal, if_true, if_false]
  simp only [UnpackedFloat.unpack, UnpackedFloat.unpackExponent_packComponents,
    UnpackedFloat.unpackMantissa_packComponents, UnpackedFloat.unpackSign_packComponents, notTop,
    notZero, if_false, UnpackedFloat.Sign.ofBitVec_toBitVec, bias, stored, rest]
  congr 1
  omega

def IsDouble (q : ℚ) : Prop := ∃ w : Float, Scalar.isFinite w = true ∧ value w = q

theorem isDouble_of_small {n : Nat} {i : Int} (small : n < 2 ^ 53) (low : -1022 ≤ i)
    (high : i ≤ 971) : IsDouble (n * 2 ^ i) := by
  rcases Nat.eq_zero_or_pos n with rfl | positive
  · rw [Nat.cast_zero, zero_mul]
    exact ⟨0, rfl, rfl⟩
  have size : n.log2 ≤ 52 := Nat.lt_succ_iff.mp ((Nat.log2_lt positive.ne').mpr small)
  have scaled : 0 < n * 2 ^ (52 - n.log2) := Nat.mul_pos positive (Nat.two_pow_pos _)
  have normal : (n * 2 ^ (52 - n.log2)).log2 = 52 := by
    rw [log2_mul_two_pow _ _ positive]
    omega
  have stored := unpack_pack_normal .positive _ (i - (52 - n.log2 : Nat)) scaled normal
    (by omega) (by omega)
  have meant : value (Float.ofModel (pack (.finite .positive _ (i - (52 - n.log2 : Nat)) scaled))) =
      n * 2 ^ i := by
    have steps : (2 : ℚ) ^ i = 2 ^ (52 - n.log2) * 2 ^ (i - (52 - n.log2 : Nat)) :=
      two_zpow_eq _ (by omega)
    rw [value, stored, steps, ← mul_assoc]
    simp [valueOf, UnpackedFloat.Sign.apply]
  exact ⟨_, (isFinite_eq _).trans (congrArg UnpackedFloat.isFinite stored), meant⟩

theorem Canonical.lt {m : Nat} {e : Int} (canonical : Canonical m e) : m < 2 ^ 53 := by
  have target := canonical.target
  rw [← Nat.log2_lt canonical.positive.ne']
  omega

/-- One more than `2 ^ 53` has no odd part that a mantissa holds, so nothing can be taken so many
times. -/
theorem not_isDouble_multiple {x : Float} (some : value x ≠ 0) :
    ¬ IsDouble ((2 ^ 53 + 1 : Nat) * value x) := by
  intro double
  obtain ⟨w, _, meant⟩ := double
  obtain ⟨sign, m, e, canonical, _, spelled⟩ := exists_canonical some
  have nonzero : value w ≠ 0 := by
    rw [meant]
    exact mul_ne_zero (by norm_num) some
  obtain ⟨other, n, i, stored, _, heard⟩ := exists_canonical nonzero
  have product : (other.apply (n : Int) : ℚ) * 2 ^ i =
      sign.apply ((m * (2 ^ 53 + 1) : Nat) : Int) * 2 ^ e := by
    rw [← heard, meant, spelled, apply_mul]
    ring
  obtain ⟨_, size⟩ := sign_of_value stored.positive
    (Nat.mul_pos canonical.positive (Nat.succ_pos _)) product
  have short := stored.lt
  -- the odd factor is part of the other mantissa, which is too short for it
  rcases Int.le_total i e with order | order
  · have shifted := mantissa_eq_of_value order size
    have more : 2 ^ 53 + 1 ≤ n := by
      rw [shifted, Nat.mul_comm m, Nat.mul_assoc]
      exact Nat.le_mul_of_pos_right _ (Nat.mul_pos canonical.positive (Nat.two_pow_pos _))
    omega
  · have shifted := mantissa_eq_of_value order size.symm
    have odd : Nat.Coprime (2 ^ 53 + 1) (2 ^ (i - e).toNat) :=
      Nat.Coprime.pow_right _ (by decide)
    have divides : 2 ^ 53 + 1 ∣ n := odd.dvd_of_dvd_mul_right (shifted ▸ Nat.dvd_mul_left _ m)
    have more := Nat.le_of_dvd stored.positive divides
    omega

theorem count_le_of_multiples {x : Float} (some : value x ≠ 0) {n : Nat}
    (multiples : ∀ k ≤ n, IsDouble (k * value x)) : n ≤ 2 ^ 53 := by
  by_contra many
  exact not_isDouble_multiple some (multiples _ (by omega))

/-! ## Natural numbers -/

theorem mul_one_exact {x : Float} (some : value x ≠ 0) :
    x * Float.exactlyRepresentablePowersOfTen[0] = x := by
  obtain ⟨sign, m, e, canonical, stored, _⟩ := exists_canonical some
  have one : Float.exactlyRepresentablePowersOfTen[0].toModel.unpack =
      .finite .positive (2 ^ 52) (-52) (Nat.two_pow_pos 52) := rfl
  have sign_mul : sign * .positive = sign := by
    cases sign with
    | positive | negative => rfl
  have rounded := roundWithAccuracy_exact sign canonical 52
  apply eq_of_unpack
  rw [unpack_mul, stored, one]
  change (pack (UnpackedFloat.roundWithAccuracy Format.binary64 (sign * .positive) (m * 2 ^ 52)
    (e - (52 : Nat)) .exact)).unpack = _
  rw [sign_mul, rounded, ← stored, unpack_pack_unpack]

theorem value_ofNat (n : Nat) (positive : 0 < n) (small : n ≤ 2 ^ 53) :
    value (Scalar.ofNat n : Float) = n := by
  rcases Nat.lt_or_eq_of_le small with below | rfl
  · obtain ⟨w, _, meant⟩ := isDouble_of_small (i := 0) below (by omega) (by omega)
    rw [zpow_zero, mul_one] at meant
    have some : value w ≠ 0 := by
      rw [meant]
      exact_mod_cast positive.ne'
    have word : n.toUInt64.toNat = n := by
      rw [Nat.toUInt64, UInt64.toNat_ofNat']
      omega
    have converted : n.toUInt64.toFloat = w := by
      apply eq_of_normalize .positive (n := (n.toUInt64.toNat : Int)) (i := 0) rfl some
      rw [word, meant, zpow_zero, mul_one]
      rfl
    change value (Float.ofScientific n false 0) = n
    rw [Float.ofScientific, dif_pos ⟨below, Nat.zero_le 22⟩]
    dsimp only
    rw [if_neg Bool.false_ne_true, converted, mul_one_exact some, meant]
  · have stored : (Scalar.ofNat (2 ^ 53) : Float).toModel.unpack =
        .finite .positive (2 ^ 52) 1 (Nat.two_pow_pos 52) := rfl
    rw [value, stored, valueOf, UnpackedFloat.Sign.apply]
    norm_num

theorem half_exact (n : Nat) (positive : 0 < n) (small : n < 2 ^ 53) :
    Scalar.isFinite (Scalar.ofNat n / Scalar.ofNat 2 : Float) = true ∧
      value (Scalar.ofNat n / Scalar.ofNat 2 : Float) = n / 2 := by
  obtain ⟨w, finite, meant⟩ := isDouble_of_small (i := -1) small (by omega) (by omega)
  rw [zpow_neg_one, ← div_eq_mul_inv] at meant
  have two : value (Scalar.ofNat 2 : Float) = 2 := value_ofNat 2 (by omega) (by omega)
  have half : (Scalar.ofNat n / Scalar.ofNat 2 : Float) = w := by
    apply div_exact (unsigned_ofNat 2)
    · rw [meant]
      positivity
    · rw [two]
      exact two_ne_zero
    · rw [value_ofNat n positive small.le, two, meant]
      ring
  rw [half]
  exact ⟨finite, meant⟩

end Double

end FactorSearch
