import Mathlib.Data.String.Basic

/-!
# Texts and their bytes

Texts are compared by their characters, and characters by their numbers.  The bytes in UTF-8 show
the same order: of two characters that differ the larger one has more bytes and a larger first one,
or as many bytes and a larger one at the first place where they differ.
-/

set_option autoImplicit false

namespace FactorSearch

/-- The bytes of a text in UTF-8. -/
def utf8 (text : String) : List UInt8 := text.toUTF8.data.toList

namespace Utf8

theorem utf8_eq_flatMap (text : String) :
    utf8 text = text.toList.flatMap String.utf8EncodeChar := by
  rw [utf8, String.toUTF8_eq_toByteArray, ← String.utf8Encode_toList, List.utf8Encode,
    List.toList_data_toByteArray]

theorem toNat_val_lt (c : Char) : c.val.toNat < 1114112 := by
  have valid := c.valid
  simp only [UInt32.isValidChar, Nat.isValidChar] at valid
  omega

theorem encode_ne_nil (c : Char) : String.utf8EncodeChar c ≠ [] := by
  intro none
  have size := congrArg List.length none
  rw [String.length_utf8EncodeChar, List.length_nil] at size
  exact absurd c.utf8Size_pos (by omega)

/-- Characters show their order in their own bytes, so nothing that follows them counts. -/
theorem encode_append_lt {first second : Char} (smaller : first < second) (xs ys : List UInt8) :
    String.utf8EncodeChar first ++ xs < String.utf8EncodeChar second ++ ys := by
  have numbers : first.val.toNat < second.val.toNat := smaller
  have bound := toNat_val_lt second
  simp only [String.utf8EncodeChar]
  generalize first.val.toNat = a at *
  generalize second.val.toNat = b at *
  -- the counts of bytes make the cases; in each the bytes are digits of the number to base 64
  split_ifs <;>
    simp only [List.cons_append, List.nil_append, List.cons_lt_cons_iff, UInt8.lt_iff_toNat_lt,
      ← UInt8.toNat_inj, UInt8.toNat_ofNat'] <;>
    simp (disch := omega) only [Nat.mod_eq_of_lt] <;>
    omega

theorem flatMap_encode_lt {first second : List Char} (smaller : first < second) :
    first.flatMap String.utf8EncodeChar < second.flatMap String.utf8EncodeChar := by
  induction first generalizing second with
  | nil =>
    cases second with
    | nil => exact absurd smaller (List.lt_irrefl [])
    | cons d ds =>
      obtain ⟨byte, rest, bytes⟩ := List.exists_cons_of_ne_nil (encode_ne_nil d)
      rw [List.flatMap_cons, bytes]
      exact List.nil_lt_cons byte _
  | cons c cs ih =>
    cases second with
    | nil => exact absurd smaller (List.not_lt_nil _)
    | cons d ds =>
      rw [List.flatMap_cons, List.flatMap_cons]
      rcases List.cons_lt_cons_iff.mp smaller with below | ⟨rfl, below⟩
      · exact encode_append_lt below _ _
      · exact List.append_left_lt (ih below)

end Utf8

/-- The order of texts is that of their bytes. -/
theorem utf8_lt {first second : String} (smaller : first < second) : utf8 first < utf8 second := by
  rw [Utf8.utf8_eq_flatMap, Utf8.utf8_eq_flatMap]
  exact Utf8.flatMap_encode_lt (String.lt_iff_toList_lt.mp smaller)

end FactorSearch
