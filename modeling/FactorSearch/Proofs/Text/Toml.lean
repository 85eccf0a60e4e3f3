import FactorSearch.Proofs.Decimal.Written
import FactorSearch.Text.Toml

/-!
# Reading plain TOML documents

Documents of bare keys, tables with a header of one key and values on one line are read line by
line: a header opens an empty table, and a key adds its value at the end of the latest table.
Written numbers and truth values are such values.
-/

set_option autoImplicit false

namespace FactorSearch

namespace Toml

open Numeral

/-! ## Numbers -/

theorem grouped?_of_digits {text : List Char} (digits : IsDigits text) :
    grouped? Char.isDigit text = some text := by
  obtain ⟨nonempty, digits⟩ := digits
  induction text with
  | nil => exact absurd rfl nonempty
  | cons c rest ih =>
    cases rest with
    | nil => simp [grouped?, digits c]
    | cons d rest =>
      have notGap : d ≠ '_' := by
        rintro rfl
        exact absurd (digits '_' (by simp)) (by decide)
      have after := ih (List.cons_ne_nil d rest)
        fun e member => digits e (List.mem_cons_of_mem c member)
      simp [grouped?, digits c, notGap, after]

theorem decimal?_of_whole {text : List Char} (whole : IsWhole text) :
    decimal? text = some text := by
  rw [decimal?, grouped?_of_digits whole.toIsDigits]
  split
  case h_1 first second rest spelled =>
    have alone := whole.plain (second :: rest) (Option.some.inj spelled)
    cases alone
  case h_2 => rfl

theorem isDigitOrGap_of_digit {c : Char} (digit : c.isDigit = true) : isDigitOrGap c = true := by
  simp [isDigitOrGap, digit]

theorem not_word_of_digit {c : Char} {rest : List Char} (digit : c.isDigit = true) :
    ¬ (c :: rest = "inf".toList ∨ c :: rest = "nan".toList) := by
  rintro (spelled | spelled)
  · rw [(List.cons.inj spelled).1] at digit
    cases digit
  · rw [(List.cons.inj spelled).1] at digit
    cases digit

theorem number?_toDigits {n : Nat} (small : n < 2 ^ 63) :
    number? (Nat.toDigits 10 n) = some (.number (toString n)) := by
  have whole := isWhole_toDigits n
  obtain ⟨c, tail, split⟩ := List.exists_cons_of_ne_nil whole.nonempty
  have digit : c.isDigit = true := whole.digits c (by simp [split])
  have unsigned : splitSign (Nat.toDigits 10 n) = (false, Nat.toDigits 10 n) := by
    rw [split]
    exact splitSign_signed false digit
  have gaps : ∀ d ∈ Nat.toDigits 10 n, isDigitOrGap d = true :=
    fun d member => isDigitOrGap_of_digit (whole.digits d member)
  have wordless : ¬ (Nat.toDigits 10 n = "inf".toList ∨ Nat.toDigits 10 n = "nan".toList) := by
    rw [split]
    exact not_word_of_digit digit
  rw [number?, unsigned]
  dsimp only
  rw [if_neg wordless, List.takeWhile_eq_self_iff.mpr gaps, List.dropWhile_eq_nil_iff.mpr gaps,
    decimal?_of_whole whole]
  have fits : -Int.pow 2 63 ≤ (n : Int) ∧ (n : Int) < Int.pow 2 63 := by
    have limit : Int.pow 2 63 = 2 ^ 63 := rfl
    omega
  simp only [ofDigits_toDigits, Bool.false_eq_true, if_false]
  exact if_pos fits

/-- A sign and digits around a point are read as they are, if they spell a finite double. -/
theorem number?_pointed (minus : Bool) {body : List Char} (pointed : Notation.IsPointed body)
    {x : Float} (finite : Scalar.isFinite x = true)
    (read : float? ((if minus then ['-'] else []) ++ body) = some x) :
    number? ((if minus then ['-'] else []) ++ body) =
      some (.number (String.ofList ((if minus then ['-'] else []) ++ body))) := by
  obtain ⟨whole, fraction, rfl, isWhole, isFraction⟩ := pointed
  obtain ⟨c, tail, rfl⟩ := List.exists_cons_of_ne_nil isWhole.nonempty
  have digit : c.isDigit = true := isWhole.digits c List.mem_cons_self
  have gaps : ∀ d ∈ c :: tail, isDigitOrGap d = true :=
    fun d member => isDigitOrGap_of_digit (isWhole.digits d member)
  have fractionGaps : ∀ d ∈ fraction, isDigitOrGap d = true :=
    fun d member => isDigitOrGap_of_digit (isFraction.digits d member)
  rw [List.cons_append] at read ⊢
  rw [number?, splitSign_signed minus digit]
  dsimp only
  rw [if_neg (not_word_of_digit digit), ← List.cons_append, List.takeWhile_append_of_pos gaps,
    List.dropWhile_append_of_pos gaps, List.takeWhile_cons_of_neg (by decide),
    List.dropWhile_cons_of_neg (by decide), List.append_nil, decimal?_of_whole isWhole]
  have known : x.isFinite = true := finite
  simp only [List.takeWhile_eq_self_iff.mpr fractionGaps,
    List.dropWhile_eq_nil_iff.mpr fractionGaps, grouped?_of_digits isFraction,
    List.isEmpty_eq_false_iff.mpr isFraction.nonempty, Bool.false_eq_true, if_false,
    List.append_nil, List.append_assoc, List.cons_append, read, known, if_true]

/-! ## Values at the end of a line -/

theorem startsDate_eq_false {word : List Char}
    (numeric : ∀ c ∈ word.tail, c.isDigit = true ∨ c = '.') : startsDate word = false := by
  rw [startsDate.eq_def]
  split
  case h_1 a b rest =>
    rcases numeric ':' (by simp) with digit | point
    · cases digit
    · cases point
  case h_2 a b c d rest =>
    rcases numeric '-' (by simp) with digit | point
    · cases digit
    · cases point
  case h_3 => rfl

theorem scalar?_number {word : List Char} (parts : ∀ c ∈ word, isScalarPart c = true)
    (numeric : ∀ c ∈ word.tail, c.isDigit = true ∨ c = '.') (rest : List Char) :
    scalar? (word ++ '\n' :: rest) = (number? word).map fun value => (value, '\n' :: rest) := by
  have notIn {c : Char} (digit : c.isDigit = false) (point : c ≠ '.') : c ∉ word.tail := by
    intro member
    rcases numeric c member with isDigit | isPoint
    · rw [digit] at isDigit
      cases isDigit
    · exact point isPoint
  have notTrue : word ≠ "true".toList := by
    rintro rfl
    exact notIn (c := 'r') (by decide) (by decide) (by decide)
  have notFalse : word ≠ "false".toList := by
    rintro rfl
    exact notIn (c := 'a') (by decide) (by decide) (by decide)
  rw [scalar?, List.takeWhile_append_of_pos parts, List.dropWhile_append_of_pos parts,
    List.takeWhile_cons_of_neg (by decide), List.dropWhile_cons_of_neg (by decide), List.append_nil]
  dsimp only
  rw [if_neg notTrue, if_neg notFalse, startsDate_eq_false numeric, if_neg Bool.false_ne_true]
  split
  case h_1 => exact absurd (by simp) (notIn (c := 'x') (by decide) (by decide))
  case h_2 => exact absurd (by simp) (notIn (c := 'o') (by decide) (by decide))
  case h_3 => exact absurd (by simp) (notIn (c := 'b') (by decide) (by decide))
  case h_4 => rfl

theorem value?_scalar (fuel : Nat) {c : Char} {rest : List Char} (part : isScalarPart c = true) :
    value? (fuel + 1) (c :: rest) = scalar? (c :: rest) := by
  have notOpening {d : Char} {more : List Char} (spelled : c :: rest = d :: more) :
      isScalarPart d = true := (List.cons.inj spelled).1 ▸ part
  rw [value?.eq_def]
  dsimp only
  split
  case h_1 spelled | h_2 spelled | h_3 spelled | h_4 spelled | h_5 spelled | h_6 spelled =>
    exact absurd (notOpening spelled) (by decide)
  case h_7 => rfl

/-- A value whose text is read back where a line ends after it. -/
structure Spelled (value : Json) : Prop where
  visible : ∃ c rest, value.compact.toList = c :: rest ∧ isBlank c = false
  read : ∀ fuel rest,
    value? (fuel + 1) (value.compact.toList ++ '\n' :: rest) = some (value, '\n' :: rest)

theorem isBlank_of_scalarPart {c : Char} (part : isScalarPart c = true) : isBlank c = false := by
  by_contra blank
  simp only [isBlank, Bool.not_eq_false, Bool.or_eq_true, decide_eq_true_eq] at blank
  rcases blank with rfl | rfl <;> cases part

theorem isScalarPart_of_numeric {c : Char} (numeric : c.isDigit = true ∨ c = '.') :
    isScalarPart c = true := by
  rcases numeric with digit | rfl
  · simp [isScalarPart, Char.isAlphanum, digit]
  · rfl

theorem spelled_number {c : Char} {rest : List Char} (part : isScalarPart c = true)
    (numeric : ∀ d ∈ rest, d.isDigit = true ∨ d = '.')
    (read : number? (c :: rest) = some (.number (String.ofList (c :: rest)))) :
    Spelled (.number (String.ofList (c :: rest))) where
  visible := ⟨c, rest, String.toList_ofList, isBlank_of_scalarPart part⟩
  read fuel after := by
    have parts : ∀ d ∈ c :: rest, isScalarPart d = true := by
      intro d member
      rcases List.mem_cons.mp member with rfl | later
      · exact part
      · exact isScalarPart_of_numeric (numeric d later)
    rw [Json.compact, String.toList_ofList, List.cons_append, value?_scalar fuel part,
      ← List.cons_append, scalar?_number parts numeric, read]
    rfl

theorem spelled_nat {n : Nat} (small : n < 2 ^ 63) : Spelled (.nat n) := by
  have digits := isDigits_toDigits n
  have read := number?_toDigits small
  obtain ⟨c, rest, split⟩ := List.exists_cons_of_ne_nil digits.nonempty
  have numeric : ∀ d ∈ c :: rest, d.isDigit = true ∨ d = '.' :=
    fun d member => .inl (digits.digits d (split ▸ member))
  rw [Json.nat, Nat.toString_eq_ofList_toDigits, split]
  rw [Nat.toString_eq_ofList_toDigits, split] at read
  exact spelled_number (isScalarPart_of_numeric (numeric c List.mem_cons_self))
    (fun d member => numeric d (List.mem_cons_of_mem c member)) read

theorem spelled_bool (b : Bool) : Spelled (.bool b) := by
  cases b with
  | true => exact ⟨⟨'t', "rue".toList, rfl, rfl⟩, fun _ _ => rfl⟩
  | false => exact ⟨⟨'f', "alse".toList, rfl, rfl⟩, fun _ _ => rfl⟩

theorem toNat_of_letter {c : Char} (letter : c.isLower = true ∨ c = '_') :
    95 ≤ c.toNat ∧ c.toNat ≤ 122 := by
  rcases letter with small | rfl
  · rw [Char.isLower, Bool.and_eq_true, decide_eq_true_eq, decide_eq_true_eq] at small
    have low : 97 ≤ c.toNat := UInt32.le_iff_toNat_le.mp small.1
    have high : c.toNat ≤ 122 := UInt32.le_iff_toNat_le.mp small.2
    exact ⟨by omega, high⟩
  · decide

theorem letter_ne {c d : Char} (letter : c.isLower = true ∨ c = '_') (low : d.toNat < 95) :
    c ≠ d := by
  rintro rfl
  exact absurd (toNat_of_letter letter).1 (not_le.mpr low)

theorem escape_letter {c : Char} (letter : c.isLower = true ∨ c = '_') : Json.escape c = [c] := by
  have code := (toNat_of_letter letter).1
  have other {d : Char} (low : d.toNat < 95) : c ≠ d := letter_ne letter low
  rw [Json.escape, if_neg (other (by decide)), if_neg (other (by decide)),
    if_neg (other (by decide)), if_neg (other (by decide)), if_neg (other (by decide)),
    if_neg (by omega), if_neg (by omega), if_neg (by omega)]

theorem basic?_letters (rest : List Char) {s : List Char}
    (letters : ∀ c ∈ s, c.isLower = true ∨ c = '_') (done : List Char) {fuel : Nat}
    (enough : s.length < fuel) :
    basic? fuel done (s ++ '"' :: rest) = some (String.ofList (done.reverse ++ s), rest) := by
  induction s generalizing done fuel with
  | nil =>
    cases fuel with
    | zero => cases enough
    | succ fuel => rw [List.append_nil]; rfl
  | cons c s ih =>
    cases fuel with
    | zero => cases enough
    | succ fuel =>
      have letter := letters c List.mem_cons_self
      have code := toNat_of_letter letter
      have printed : isCommentPart c = true := by
        simp only [isCommentPart, Bool.or_eq_true, Bool.and_eq_true, decide_eq_true_eq]
        omega
      have later := ih (fun d member => letters d (List.mem_cons_of_mem c member)) (c :: done)
        (Nat.lt_of_succ_lt_succ enough)
      rw [List.reverse_cons, List.append_assoc, List.singleton_append] at later
      rw [List.cons_append, basic?.eq_def]
      dsimp only
      split
      case h_1 spelled =>
        exact absurd (List.cons.inj spelled).1 (letter_ne letter (by decide))
      case h_2 spelled =>
        exact absurd (List.cons.inj spelled).1 (letter_ne letter (by decide))
      case h_3 spelled =>
        obtain ⟨rfl, rfl⟩ := List.cons.inj spelled
        rw [if_pos printed, later]
      case h_4 spelled => cases spelled

/-- A word of letters is spelled between quotes as it is. -/
theorem spelled_word {s : String} (nonempty : s.toList ≠ [])
    (letters : ∀ c ∈ s.toList, c.isLower = true ∨ c = '_') : Spelled (.text s) := by
  have escaped : s.toList.flatMap Json.escape = s.toList := by
    rw [List.flatMap_congr fun c member => escape_letter (letters c member),
      List.flatMap_singleton']
  have text : (Json.text s).compact.toList = '"' :: (s.toList ++ ['"']) := by
    rw [Json.compact, Json.quote, escaped]
    simp
  refine ⟨⟨'"', _, text, rfl⟩, fun fuel rest => ?_⟩
  obtain ⟨c, tail, split⟩ := List.exists_cons_of_ne_nil nonempty
  have letter := letters c (by simp [split])
  have within : s.toList.length < (s.toList ++ '"' :: '\n' :: rest).length + 1 := by
    rw [List.length_append]
    omega
  have read := basic?_letters ('\n' :: rest) letters [] within
  rw [text, List.cons_append, List.append_assoc, List.singleton_append, value?.eq_def]
  dsimp only
  split
  case h_1 spelled =>
    rw [split] at spelled
    exact absurd (List.cons.inj (List.cons.inj spelled).2).1 (letter_ne letter (by decide))
  case h_2 spelled => cases spelled
  case h_3 spelled =>
    cases spelled
    rw [read, List.reverse_nil, List.nil_append, String.ofList_toList]
    rfl
  case h_4 spelled | h_5 spelled | h_6 spelled => cases spelled
  case h_7 other _ _ _ => exact absurd rfl (other _)

theorem numeric_of_pointed {body : List Char} (pointed : Notation.IsPointed body) :
    ∀ c ∈ body, c.isDigit = true ∨ c = '.' := by
  obtain ⟨whole, fraction, rfl, isWhole, isFraction⟩ := pointed
  intro c member
  rcases List.mem_append.mp member with first | second
  · exact .inl (isWhole.digits c first)
  · rcases List.mem_cons.mp second with rfl | later
    · exact .inr rfl
    · exact .inl (isFraction.digits c later)

theorem spelled_pointed (minus : Bool) {body : List Char} (pointed : Notation.IsPointed body)
    {x : Float} (finite : Scalar.isFinite x = true)
    (read : float? ((if minus then ['-'] else []) ++ body) = some x) :
    Spelled (.number (String.ofList ((if minus then ['-'] else []) ++ body))) := by
  have numeric := numeric_of_pointed pointed
  have literal := number?_pointed minus pointed finite read
  cases minus with
  | true => exact spelled_number (by rfl) numeric literal
  | false =>
    obtain ⟨c, rest, rfl⟩ : ∃ c rest, body = c :: rest := by
      obtain ⟨whole, fraction, rfl, isWhole, -⟩ := pointed
      exact List.exists_cons_of_ne_nil (List.append_ne_nil_of_left_ne_nil isWhole.nonempty _)
    exact spelled_number (isScalarPart_of_numeric (numeric c List.mem_cons_self))
      (fun d member => numeric d (List.mem_cons_of_mem c member)) literal

/-- A double in settings is written as a value, if its text reads back as it. -/
theorem spelled_real {x : Float} (readsBack : Scalar.isFinite x = true → Notation.ReadsBack x) :
    Spelled (.number (Notation.setting.write x)) := by
  cases finite : Scalar.isFinite x with
  | false =>
    rcases Notation.eq_special finite with rfl | rfl | rfl
    · exact ⟨⟨'n', "an".toList, rfl, rfl⟩, fun _ _ => rfl⟩
    · exact ⟨⟨'i', "nf".toList, rfl, rfl⟩, fun _ _ => rfl⟩
    · exact ⟨⟨'-', "inf".toList, rfl, rfl⟩, fun _ _ => rfl⟩
  | true =>
    obtain ⟨body, written, pointed⟩ := Notation.write_finite finite
    have read : float? (Notation.setting.write x).toList = some x := readsBack finite
    rw [written] at read
    rw [← String.ofList_toList (s := Notation.setting.write x), written]
    exact spelled_pointed _ pointed finite read

/-! ## Keys -/

/-- A key that needs no quotes. -/
def IsBare (key : String) : Prop :=
  key.toList.isEmpty = false ∧ key.toList.all isBareKeyPart = true

instance (key : String) : Decidable (IsBare key) := inferInstanceAs (Decidable (_ ∧ _))

theorem isBare_of_letters {key : String} (nonempty : key.toList ≠ [])
    (letters : ∀ c ∈ key.toList, c.isLower = true ∨ c = '_') : IsBare key := by
  refine ⟨List.isEmpty_eq_false_iff.mpr nonempty, List.all_eq_true.mpr fun c member => ?_⟩
  rcases letters c member with small | rfl
  · simp [isBareKeyPart, Char.isAlphanum, Char.isAlpha, small]
  · rfl

theorem IsBare.nonempty {key : String} (bare : IsBare key) : key.toList ≠ [] :=
  List.isEmpty_eq_false_iff.mp bare.1

theorem IsBare.parts {key : String} (bare : IsBare key) :
    ∀ c ∈ key.toList, isBareKeyPart c = true := List.all_eq_true.mp bare.2

theorem ne_of_bareKeyPart {c d : Char} (part : isBareKeyPart c = true)
    (other : isBareKeyPart d = false) : c ≠ d := by
  rintro rfl
  rw [part] at other
  cases other

theorem isBlank_of_bareKeyPart {c : Char} (part : isBareKeyPart c = true) : isBlank c = false := by
  simp [isBlank, ne_of_bareKeyPart (d := ' ') part (by decide),
    ne_of_bareKeyPart (d := '\t') part (by decide)]

theorem simpleKey?_bare {key : String} (bare : IsBare key) {d : Char}
    (stops : isBareKeyPart d = false) (rest : List Char) :
    simpleKey? (key.toList ++ d :: rest) = some (key, d :: rest) := by
  obtain ⟨c, letters, split⟩ := List.exists_cons_of_ne_nil bare.nonempty
  have part : isBareKeyPart c = true := bare.parts c (by simp [split])
  have other {e : Char} {more : List Char} (spelled : key.toList ++ d :: rest = e :: more) :
      isBareKeyPart e = true := by
    rw [split] at spelled
    exact (List.cons.inj spelled).1 ▸ part
  rw [simpleKey?.eq_def]
  split
  case h_1 spelled | h_2 spelled => exact absurd (other spelled) (by decide)
  case h_3 =>
    rw [List.takeWhile_append_of_pos bare.parts, List.dropWhile_append_of_pos bare.parts,
      List.takeWhile_cons_of_neg (by simp [stops]), List.dropWhile_cons_of_neg (by simp [stops]),
      List.append_nil]
    simp only [bare.1, Bool.false_eq_true, if_false, String.ofList_toList]

/-- A bare key is read up to the character after it and the blanks from there. -/
theorem key?_bare {key : String} (bare : IsBare key) (d : Char) (rest : List Char)
    (stops : isBareKeyPart d = false) (ends : ∀ more, skipBlanks (d :: rest) ≠ '.' :: more)
    (fuel : Nat) :
    key? (fuel + 1) (key.toList ++ d :: rest) = some ([key], skipBlanks (d :: rest)) := by
  obtain ⟨c, letters, split⟩ := List.exists_cons_of_ne_nil bare.nonempty
  have part : isBareKeyPart c = true := bare.parts c (by simp [split])
  have visible : skipBlanks (key.toList ++ d :: rest) = key.toList ++ d :: rest := by
    rw [split, List.cons_append, skipBlanks,
      List.dropWhile_cons_of_neg (by simp [isBlank_of_bareKeyPart part])]
  rw [key?, visible, simpleKey?_bare bare stops]
  dsimp only
  split
  case h_1 more spelled => exact absurd spelled (ends more)
  case h_2 => rfl

/-! ## Lines -/

/-- A text leads from the members before it, in the table of the latest header, to members. -/
def ReadsTo (current : List String) (members : List (String × Node)) (s : List Char)
    (result : List (String × Node)) : Prop :=
  ∀ fuel, s.length < fuel → lines? fuel current members s = some result

namespace ReadsTo

variable {current : List String} {members result : List (String × Node)} {s : List Char}

theorem done : ReadsTo current members [] members
  | _ + 1, _ => rfl

theorem blank (later : ReadsTo current members s result) :
    ReadsTo current members ('\n' :: s) result
  | fuel + 1, enough => later (fuel + 1) (Nat.lt_of_succ_lt enough)

theorem skipLines_visible (c : Char) (rest : List Char) (visible : isBlank c = false)
    (noComment : c ≠ '#') (noBreak : c ≠ '\n') (noReturn : c ≠ '\r') (fuel : Nat) :
    skipLines fuel (c :: rest) = c :: rest := by
  have kept : skipComment (c :: rest) = c :: rest := by
    rw [skipComment, skipBlanks, List.dropWhile_cons_of_neg (by simp [visible])]
    split
    case h_1 spelled => exact absurd (List.cons.inj spelled).1 noComment
    case h_2 => rfl
  cases fuel with
  | zero => rfl
  | succ fuel =>
    have stays : lineBreak? (c :: rest) = none := by
      simp [lineBreak?, noBreak, noReturn]
    simp only [skipLines, kept, stays]

theorem header {name : String} (bare : IsBare name) {opened : List (String × Node)}
    (opens : open? name members = some opened) (later : ReadsTo [name] opened s result) :
    ReadsTo current members ('[' :: (name.toList ++ ']' :: '\n' :: s)) result
  | fuel + 1, enough => by
    have shown := skipLines_visible '[' (name.toList ++ ']' :: '\n' :: s)
      (by decide) (by decide) (by decide) (by decide)
    have key := key?_bare bare ']' ('\n' :: s) (by decide) (by simp [skipBlanks, isBlank])
    have closed : skipBlanks (']' :: '\n' :: s) = ']' :: '\n' :: s := rfl
    have changed : changeAt .passage (fun _ => true) open? [name] members = some opened := opens
    obtain ⟨c, letters, split⟩ := List.exists_cons_of_ne_nil bare.nonempty
    have part : isBareKeyPart c = true := bare.parts c (by simp [split])
    rw [lines?.eq_def]
    simp only [shown]
    split
    case h_1 spelled => cases spelled
    case h_2 more spelled =>
      rw [split, List.cons_append] at spelled
      exact absurd (List.cons.inj (List.cons.inj spelled).2).1
        (ne_of_bareKeyPart part (by decide))
    case h_3 more _ spelled =>
      cases spelled
      have left : s.length < fuel := by
        simp only [List.length_cons, List.length_append] at enough
        omega
      rw [key, closed]
      simp only [changed]
      exact later fuel left
    case h_4 other => exact absurd rfl (other (name.toList ++ ']' :: '\n' :: s))

theorem key {key : String} (bare : IsBare key) {value : Json} (spelled : Spelled value)
    {assigned : List (String × Node)}
    (assigns : assignIn current [key] value members = some assigned)
    (later : ReadsTo current assigned s result) :
    ReadsTo current members
      (key.toList ++ ' ' :: '=' :: ' ' :: (value.compact.toList ++ '\n' :: s)) result
  | fuel + 1, enough => by
    obtain ⟨c, letters, split⟩ := List.exists_cons_of_ne_nil bare.nonempty
    have part : isBareKeyPart c = true := bare.parts c (by simp [split])
    generalize line : ' ' :: '=' :: ' ' :: (value.compact.toList ++ '\n' :: s) = after at enough
    have shown : ∀ fuel, skipLines fuel (key.toList ++ after) = key.toList ++ after := by
      rw [split]
      exact skipLines_visible c _ (isBlank_of_bareKeyPart part) (ne_of_bareKeyPart part (by decide))
        (ne_of_bareKeyPart part (by decide)) (ne_of_bareKeyPart part (by decide))
    have other {rest : List Char} : key.toList ++ after ≠ '[' :: rest := by
      rw [split]
      intro opening
      exact ne_of_bareKeyPart part (by decide) (List.cons.inj opening).1
    have read := key?_bare bare ' ' ('=' :: ' ' :: (value.compact.toList ++ '\n' :: s))
      (by decide) (by simp [skipBlanks, isBlank])
    have shownValue : skipBlanks (' ' :: (value.compact.toList ++ '\n' :: s)) =
        value.compact.toList ++ '\n' :: s := by
      obtain ⟨d, rest, start, visible⟩ := spelled.visible
      rw [start, skipBlanks, List.dropWhile_cons_of_pos (by decide), List.cons_append,
        List.dropWhile_cons_of_neg (by simp [visible])]
    have equals : skipBlanks (' ' :: '=' :: ' ' :: (value.compact.toList ++ '\n' :: s)) =
        '=' :: ' ' :: (value.compact.toList ++ '\n' :: s) := rfl
    have left : s.length < fuel := by
      rw [← line] at enough
      simp only [List.length_cons, List.length_append] at enough
      omega
    rw [equals, line] at read
    rw [lines?.eq_def]
    simp only [shown]
    split
    case h_1 nothing => simp [split] at nothing
    case h_2 opening => exact absurd opening other
    case h_3 opening => exact absurd opening other
    case h_4 =>
      rw [read]
      simp only [shownValue, spelled.read, assigns]
      exact later fuel left

end ReadsTo

/-! ## Tables -/

section Tables

variable {key name : String}

theorem lookup_new {members : List (String × Node)} (fresh : key ∉ members.map Prod.fst) :
    members.lookup key = none := by
  rw [List.lookup_eq_none_iff]
  intro member inside
  simp only [bne_iff_ne, ne_eq]
  rintro rfl
  exact fresh (List.mem_map_of_mem inside)

theorem put_append (node : Node) {before : List (String × Node)}
    (fresh : key ∉ before.map Prod.fst) (after : List (String × Node)) :
    put key node (before ++ after) = before ++ put key node after := by
  induction before with
  | nil => rfl
  | cons head rest ih =>
    rw [List.map_cons, List.mem_cons, not_or] at fresh
    rw [List.cons_append, put, if_neg (Ne.symm fresh.1), ih fresh.2]
    rfl

theorem put_new (node : Node) {members : List (String × Node)}
    (fresh : key ∉ members.map Prod.fst) :
    put key node members = members ++ [(key, node)] := by
  simpa [put] using put_append node fresh []

theorem open?_new {members : List (String × Node)} (fresh : name ∉ members.map Prod.fst) :
    open? name members = some (members ++ [(name, .table .header [])]) := by
  rw [open?, lookup_new fresh]
  exact congrArg some (put_new _ fresh)

/-- A new key of the latest table goes to its end. -/
theorem assignIn_last (value : Json) {before inner : List (String × Node)}
    (table : name ∉ before.map Prod.fst) (fresh : key ∉ inner.map Prod.fst) :
    assignIn [name] [key] value (before ++ [(name, .table .header inner)]) =
      some (before ++ [(name, .table .header (inner ++ [(key, .value value)]))]) := by
  have found : (before ++ [(name, Node.table .header inner)]).lookup name =
      some (.table .header inner) := by
    rw [List.lookup_append, lookup_new table]
    simp
  have assigned : assign [key] value inner = some (inner ++ [(key, .value value)]) := by
    rw [assign, changeAt, define, lookup_new fresh]
    exact congrArg some (put_new _ fresh)
  simp only [assignIn, changeAt, found, assigned, Option.map_some, put_append _ table]
  simp [put]

end Tables

end Toml

end FactorSearch
