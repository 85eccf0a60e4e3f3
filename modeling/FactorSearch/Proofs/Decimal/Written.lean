import FactorSearch.Decimal.Notation
import FactorSearch.Decimal.Numeral
import FactorSearch.Proofs.Double.Order

/-!
# How numbers are written

The shape of written numbers: a natural number is digits without a superfluous zero, and a finite
double in settings is such digits, a point and more digits, after a minus sign if it is negative.
Natural numbers and the doubles that are not finite are read back as they are.
-/

set_option autoImplicit false

namespace FactorSearch

namespace Numeral

structure IsDigits (text : List Char) : Prop where
  nonempty : text ≠ []
  digits : ∀ c ∈ text, c.isDigit = true

structure IsWhole (text : List Char) : Prop extends IsDigits text where
  plain : ∀ rest, text = '0' :: rest → rest = []

theorem IsDigits.append {left right : List Char} (first : IsDigits left)
    (second : ∀ c ∈ right, c.isDigit = true) : IsDigits (left ++ right) where
  nonempty := List.append_ne_nil_of_left_ne_nil first.nonempty right
  digits c member := (List.mem_append.mp member).elim (first.digits c) (second c)

theorem splitSign_signed (minus : Bool) {c : Char} {rest : List Char} (digit : c.isDigit = true) :
    splitSign ((if minus then ['-'] else []) ++ c :: rest) = (minus, c :: rest) := by
  cases minus with
  | true => rfl
  | false =>
    have notMinus : c ≠ '-' := by
      rintro rfl
      exact absurd digit (by decide)
    have notPlus : c ≠ '+' := by
      rintro rfl
      exact absurd digit (by decide)
    simp [splitSign, notMinus, notPlus]

/-! ## Natural numbers -/

theorem ofDigits_toDigits (n : Nat) : ofDigits 0 (Nat.toDigits 10 n) = n := by
  have same : ofDigits 0 (Nat.toDigits 10 n) = Nat.ofDigitChars 10 (Nat.toDigits 10 n) 0 := by
    simp only [ofDigits, Nat.ofDigitChars_eq_foldl, Nat.mul_comm]
  rw [same, Nat.ofDigitChars_ten_toDigits]

theorem isDigits_toDigits (n : Nat) : IsDigits (Nat.toDigits 10 n) where
  nonempty := Nat.toDigits_ne_nil
  digits _ member := Nat.isDigit_of_mem_toDigits (by decide) (by decide) member

theorem head?_toDigits (n : Nat) (positive : 0 < n) : (Nat.toDigits 10 n).head? ≠ some '0' := by
  induction n using Nat.base_induction 10 (by decide) with
  | single m small =>
    rw [Nat.toDigits_of_lt_base small, List.head?_singleton, Ne, Option.some.injEq,
      Nat.digitChar_eq_zero]
    exact positive.ne'
  | digit m d small some ih =>
    rw [← Nat.toDigits_append_toDigits (by decide) some small,
      List.head?_append_of_ne_nil _ Nat.toDigits_ne_nil]
    exact ih some

theorem IsDigits.isWhole {text : List Char} (digits : IsDigits text)
    (head : text.head? ≠ some '0') : IsWhole text where
  toIsDigits := digits
  plain _ spelled := by
    rw [spelled] at head
    exact absurd rfl head

theorem isWhole_zero : IsWhole ['0'] := ⟨⟨by simp, by simp⟩, by simp⟩

theorem isWhole_toDigits (n : Nat) : IsWhole (Nat.toDigits 10 n) := by
  rcases Nat.eq_zero_or_pos n with rfl | positive
  · rw [Nat.toDigits_zero]
    exact isWhole_zero
  · exact (isDigits_toDigits n).isWhole (head?_toDigits n positive)

theorem int?_toDigits (n : Nat) : int? (Nat.toDigits 10 n) = some (n : Int) := by
  obtain ⟨c, tail, split⟩ := List.exists_cons_of_ne_nil (Nat.toDigits_ne_nil (n := n) (b := 10))
  have digits := isDigits_toDigits n
  have unsigned : splitSign (Nat.toDigits 10 n) = (false, Nat.toDigits 10 n) := by
    rw [split]
    exact splitSign_signed false (digits.digits c (by simp [split]))
  have all : (Nat.toDigits 10 n).all Char.isDigit = true := List.all_eq_true.mpr digits.digits
  rw [int?, unsigned]
  simp [all, ofDigits_toDigits]

end Numeral

namespace Notation

open Numeral

theorem zeros_digits (count : Nat) : ∀ c ∈ (zeros count).toList, c.isDigit = true := by
  have spelled : (zeros count).toList = List.replicate count '0' := by
    induction count with
    | zero => rfl
    | succ count ih =>
      rw [List.replicate_succ', ← ih, ← String.toList_push]
      rfl
  rw [spelled]
  intro c member
  rw [List.eq_of_mem_replicate member]
  rfl

def IsPointed (text : List Char) : Prop :=
  ∃ whole fraction, text = whole ++ '.' :: fraction ∧ IsWhole whole ∧ IsDigits fraction

theorem isPointed_writeDecimal (d : Decimal) : IsPointed (setting.writeDecimal d).toList := by
  rw [writeDecimal]
  by_cases zero : d.digits = 0
  · rw [if_pos zero]
    exact ⟨['0'], ['0'], rfl, isWhole_zero, isWhole_zero.toIsDigits⟩
  have digits := isDigits_toDigits d.digits
  have head := head?_toDigits d.digits (Nat.pos_of_ne_zero zero)
  have spelled : (toString d.digits).toList = Nat.toDigits 10 d.digits := Nat.toList_repr
  have count : (toString d.digits).length = (Nat.toDigits 10 d.digits).length := by
    rw [← spelled, String.length_toList]
  rw [if_neg zero]
  simp only [setting, Bool.and_self, if_true, positional, count]
  generalize place : ((Nat.toDigits 10 d.digits).length : Int) + d.exponent = point
  split
  case isTrue =>
    refine ⟨['0'], (zeros (-point).toNat).toList ++ Nat.toDigits 10 d.digits, ?_, isWhole_zero,
      ⟨List.append_ne_nil_of_right_ne_nil _ digits.nonempty, ?_⟩⟩
    · rw [String.toList_append, String.toList_append, spelled, List.append_assoc]
      rfl
    · intro c member
      exact (List.mem_append.mp member).elim (zeros_digits _ c) (digits.digits c)
  case isFalse after =>
    split
    case isTrue =>
      refine ⟨Nat.toDigits 10 d.digits ++
          (zeros (point - (Nat.toDigits 10 d.digits).length).toNat).toList, ['0'], ?_,
        (digits.append (zeros_digits _)).isWhole ?_, isWhole_zero.toIsDigits⟩
      · rw [String.toList_append, String.toList_append, spelled]
        rfl
      · rwa [List.head?_append_of_ne_nil _ digits.nonempty]
    case isFalse inside =>
      refine ⟨(Nat.toDigits 10 d.digits).take point.toNat,
        (Nat.toDigits 10 d.digits).drop point.toNat, ?_, IsDigits.isWhole ⟨?_, ?_⟩ ?_, ?_, ?_⟩
      · simp only [String.toList_append, String.toList_ofList, spelled, List.append_assoc]
        rfl
      · rw [Ne, List.take_eq_nil_iff]
        exact not_or.mpr ⟨by omega, digits.nonempty⟩
      · exact fun c member => digits.digits c (List.mem_of_mem_take member)
      · rwa [List.head?_take, if_neg (by omega)]
      · rw [Ne, List.drop_eq_nil_iff]
        omega
      · exact fun c member => digits.digits c (List.mem_of_mem_drop member)

/-- A finite double is written with a sign and digits around a point. -/
theorem write_finite {x : Float} (finite : Scalar.isFinite x = true) :
    ∃ body, (setting.write x).toList = (if negative x then ['-'] else []) ++ body ∧
      IsPointed body := by
  have present : x.isNaN = false := Scalar.Ordered.present x finite
  have known : x.isFinite = true := finite
  refine ⟨(setting.writeDecimal (Decimal.shortest x)).toList, ?_, isPointed_writeDecimal _⟩
  rw [write, present, known, if_neg Bool.false_ne_true, if_pos rfl, String.toList_append]
  cases negative x <;> rfl

theorem eq_special {x : Float} (special : Scalar.isFinite x = false) :
    x = 0.0 / 0.0 ∨ x = 1.0 / 0.0 ∨ x = -(1.0 / 0.0) := by
  rw [Double.isFinite_eq] at special
  cases unpacked : x.toModel.unpack with
  | notANumber => exact .inl (Double.eq_of_unpack unpacked)
  | infinity sign =>
    cases sign with
    | positive => exact .inr (.inl (Double.eq_of_unpack unpacked))
    | negative => exact .inr (.inr (Double.eq_of_unpack unpacked))
  | zero sign =>
    rw [unpacked] at special
    cases special
  | finite sign mantissa exponent =>
    rw [unpacked] at special
    cases special

/-- A double is read back from the text that it is written as. -/
def ReadsBack (x : Float) : Prop := float? (setting.write x).toList = some x

theorem readsBack_special {x : Float} (special : Scalar.isFinite x = false) : ReadsBack x := by
  rcases eq_special special with rfl | rfl | rfl <;> rfl

end Notation

end FactorSearch
