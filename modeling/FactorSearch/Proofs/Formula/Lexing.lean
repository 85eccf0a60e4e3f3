import FactorSearch.Formula.Syntax

/-!
# Lexemes of a text

`Spells` says which texts a list of lexemes stands for: every lexeme as it is written, and blanks
anywhere between them.  A name ends where no letter, digit or underscore follows, which is why a
text has one list of lexemes at most.  Reading a text finds that list.
-/

set_option autoImplicit false

namespace FactorSearch

namespace Formula

/-- The text does not go on with a name. -/
def Apart (text : List Char) : Prop := ∀ c ∈ text.head?, isNamePart c = false

def IsName : List Char → Prop
  | [] => False
  | c :: rest => isLetter c = true ∧ ∀ d ∈ rest, isNamePart d = true

instance : DecidablePred IsName
  | [] => isFalse id
  | c :: rest =>
    decidable_of_iff (isLetter c = true ∧ rest.all isNamePart = true)
      (and_congr_right fun _ => List.all_eq_true)

namespace Lexeme

def spelling : Lexeme → List Char
  | name letters => letters
  | opening => ['(']
  | comma => [',']
  | closing => [')']

/-- Whether a lexeme is well formed and ends where the text after it begins. -/
def Fits (text : List Char) : Lexeme → Prop
  | name letters => IsName letters ∧ Apart text
  | opening => True
  | comma => True
  | closing => True

def isName : Lexeme → Bool
  | name _ => true
  | _ => false

end Lexeme

/-- The texts of a list of lexemes. -/
inductive Spells : List Lexeme → List Char → Prop where
  | done : Spells [] []
  | blank (c : Char) (parts : List Lexeme) (text : List Char) (blank : isBlank c = true)
      (rest : Spells parts text) : Spells parts (c :: text)
  | lexeme (part : Lexeme) (parts : List Lexeme) (text : List Char) (fits : part.Fits text)
      (rest : Spells parts text) : Spells (part :: parts) (part.spelling ++ text)

/-! ## Kinds of characters -/

theorem not_namePart_of_blank (c : Char) (blank : isBlank c = true) : isNamePart c = false := by
  simp only [isBlank, Bool.or_eq_true, decide_eq_true_eq] at blank
  rcases blank with ((rfl | rfl) | rfl) | rfl <;> decide

theorem namePart_of_letter (c : Char) (letter : isLetter c = true) : isNamePart c = true := by
  simp only [isLetter] at letter
  simp [isNamePart, Char.isAlphanum, letter]

theorem not_letter_of_not_namePart (c : Char) (other : isNamePart c = false) :
    isLetter c = false := by
  cases letter : isLetter c with
  | false => rfl
  | true => rw [namePart_of_letter c letter] at other; contradiction

theorem not_blank_of_letter (c : Char) (letter : isLetter c = true) : isBlank c = false := by
  cases blank : isBlank c with
  | false => rfl
  | true =>
    have other := not_letter_of_not_namePart c (not_namePart_of_blank c blank)
    rw [letter] at other
    contradiction

theorem ne_of_letter (c d : Char) (letter : isLetter c = true) (other : isLetter d = false) :
    c ≠ d := by
  rintro rfl
  rw [letter] at other
  contradiction

/-! ## Reading lexemes -/

theorem apart_dropWhile (text : List Char) : Apart (text.dropWhile isNamePart) := by
  intro c first
  have stopped := List.head?_dropWhile_not isNamePart text
  rw [Option.mem_def.mp first] at stopped
  exact stopped

theorem takeWhile_of_apart (text : List Char) (apart : Apart text) :
    text.takeWhile isNamePart = [] := by
  cases text with
  | nil => rfl
  | cons c rest => simp [apart c (by simp)]

theorem dropWhile_of_apart (text : List Char) (apart : Apart text) :
    text.dropWhile isNamePart = text := by
  cases text with
  | nil => rfl
  | cons c rest => simp [apart c (by simp)]

theorem lexemes?_name (c : Char) (letters text : List Char) (letter : isLetter c = true)
    (all : ∀ d ∈ letters, isNamePart d = true) (apart : Apart text) :
    lexemes? (c :: letters ++ text) =
      (lexemes? text).map (Lexeme.name (c :: letters) :: ·) := by
  rw [List.cons_append, lexemes?]
  simp only [not_blank_of_letter c letter, ne_of_letter c '(' letter (by decide),
    ne_of_letter c ',' letter (by decide), ne_of_letter c ')' letter (by decide), letter,
    Bool.false_eq_true, if_false, if_true, List.takeWhile_append_of_pos all,
    List.dropWhile_append_of_pos all, takeWhile_of_apart text apart, dropWhile_of_apart text apart,
    List.append_nil]

theorem Spells.lexemes? {parts : List Lexeme} {text : List Char} (spelled : Spells parts text) :
    lexemes? text = some parts := by
  induction spelled with
  | done => rw [Formula.lexemes?]
  | blank c parts text blank rest ih => rw [Formula.lexemes?, if_pos blank, ih]
  | lexeme part parts text fits rest ih =>
    cases part with
    | name letters =>
      obtain ⟨proper, apart⟩ := fits
      cases letters with
      | nil => exact proper.elim
      | cons c letters =>
        rw [Lexeme.spelling, lexemes?_name c letters text proper.1 proper.2 apart, ih]
        rfl
    | opening | comma | closing =>
      rw [Lexeme.spelling, List.singleton_append, Formula.lexemes?, ih]
      rfl

theorem spells_of_lexemes? (text : List Char) (parts : List Lexeme)
    (read : lexemes? text = some parts) : Spells parts text := by
  fun_induction lexemes? text generalizing parts with
  | case1 =>
    cases Option.some.inj read
    exact .done
  | case2 c rest blank ih => exact .blank c parts rest blank (ih parts read)
  | case3 rest _ ih | case4 rest _ _ ih | case5 rest _ _ _ ih =>
    obtain ⟨later, here, rfl⟩ := Option.map_eq_some_iff.mp read
    exact .lexeme _ later rest trivial (ih later here)
  | case6 c rest _ _ _ _ letter ih =>
    obtain ⟨later, here, rfl⟩ := Option.map_eq_some_iff.mp read
    -- a name is read as far as it goes, which is what keeps the rest apart from it
    have split : c :: rest =
        c :: rest.takeWhile isNamePart ++ rest.dropWhile isNamePart := by
      rw [List.cons_append, List.takeWhile_append_dropWhile]
    rw [split]
    have all : ∀ d ∈ rest.takeWhile isNamePart, isNamePart d = true :=
      List.all_eq_true.mp List.all_takeWhile
    exact .lexeme (.name _) later _ ⟨⟨letter, all⟩, apart_dropWhile rest⟩ (ih later here)
  | case7 => contradiction

theorem lexemes?_eq_some_iff (text : List Char) (parts : List Lexeme) :
    lexemes? text = some parts ↔ Spells parts text :=
  ⟨spells_of_lexemes? text parts, Spells.lexemes?⟩

/-! ## Joining and splitting -/

theorem Apart.append {text : List Char} (apart : Apart text) (more : List Char)
    (after : text = [] → Apart more) : Apart (text ++ more) := by
  cases text with
  | nil => exact after rfl
  | cons c rest => exact apart

theorem Lexeme.Fits.append {part : Lexeme} {text : List Char} (fits : part.Fits text)
    (more : List Char) (apart : Apart more) : part.Fits (text ++ more) := by
  cases part with
  | name letters => exact ⟨fits.1, fits.2.append more fun _ => apart⟩
  | opening | comma | closing => trivial

theorem Apart.of_append {text more : List Char} (apart : Apart (text ++ more)) : Apart text := by
  cases text with
  | nil => simp [Apart]
  | cons c rest => exact apart

theorem Lexeme.Fits.of_append {part : Lexeme} {text more : List Char}
    (fits : part.Fits (text ++ more)) : part.Fits text := by
  cases part with
  | name letters => exact ⟨fits.1, fits.2.of_append⟩
  | opening | comma | closing => trivial

theorem Spells.append {parts more : List Lexeme} {text rest : List Char}
    (first : Spells parts text) (last : Spells more rest) (apart : Apart rest) :
    Spells (parts ++ more) (text ++ rest) := by
  induction first with
  | done => exact last
  | blank c parts text blank _ ih => exact .blank c _ _ blank ih
  | lexeme part parts text fits _ ih =>
    rw [List.append_assoc]
    exact .lexeme part _ _ (fits.append rest apart) ih

theorem Spells.of_blanks (gap : List Char) (blank : ∀ c ∈ gap, isBlank c = true) :
    Spells [] gap := by
  induction gap with
  | nil => exact .done
  | cons c gap ih =>
    exact .blank c _ _ (blank c (List.mem_cons_self ..))
      (ih fun d member => blank d (List.mem_cons_of_mem _ member))

theorem Spells.blanks {text : List Char} (spelled : Spells [] text) :
    ∀ c ∈ text, isBlank c = true := by
  generalize shape : ([] : List Lexeme) = parts at spelled
  induction spelled with
  | done => simp
  | blank c parts text blank _ ih =>
    intro d member
    rcases List.mem_cons.mp member with rfl | member
    · exact blank
    · exact ih shape d member
  | lexeme => contradiction

theorem apart_of_blanks (gap : List Char) (blank : ∀ c ∈ gap, isBlank c = true) : Apart gap := by
  intro c first
  exact not_namePart_of_blank c (blank c (List.mem_of_mem_head? first))

theorem Spells.before {parts : List Lexeme} {text : List Char} (spelled : Spells parts text)
    (gap : List Char) (blank : ∀ c ∈ gap, isBlank c = true) : Spells parts (gap ++ text) := by
  induction gap with
  | nil => exact spelled
  | cons c gap ih =>
    exact .blank c _ _ (blank c (List.mem_cons_self ..))
      (ih fun d member => blank d (List.mem_cons_of_mem _ member))

/-- A text is cut at any of its lexemes, with the blanks in front of it left in front. -/
theorem Spells.cut (front : List Lexeme) {part : Lexeme} {back : List Lexeme} {text : List Char}
    (spelled : Spells (front ++ part :: back) text) :
    ∃ before after, text = before ++ part.spelling ++ after ∧ Spells front before ∧
      part.Fits after ∧ Spells back after := by
  generalize shape : front ++ part :: back = parts at spelled
  induction spelled generalizing front with
  | done => simp at shape
  | blank c parts text blank _ ih =>
    obtain ⟨before, after, rfl, first, fits, last⟩ := ih front shape
    exact ⟨c :: before, after, rfl, .blank c _ _ blank first, fits, last⟩
  | lexeme other parts text fits rest ih =>
    cases front with
    | nil =>
      obtain ⟨rfl, rfl⟩ := List.cons.inj shape
      exact ⟨[], text, rfl, .done, fits, rest⟩
    | cons head front =>
      obtain ⟨rfl, same⟩ := List.cons.inj shape
      obtain ⟨before, after, rfl, first, ends, last⟩ := ih front same
      -- a shorter text behind the first lexeme leaves it as well formed as it was
      refine ⟨head.spelling ++ before, after, ?_, ?_, ends, last⟩
      · simp only [List.append_assoc]
      · rw [List.append_assoc] at fits
        exact .lexeme head _ _ fits.of_append first

/-! ## Counting -/

theorem countNamesFrom_apart (text : List Char) (apart : Apart text) :
    countNamesFrom true text = countNamesFrom false text := by
  cases text with
  | nil => rfl
  | cons c rest =>
    have other : isNamePart c = false := apart c (by simp)
    simp [countNamesFrom, other, not_letter_of_not_namePart c other]

theorem countNamesFrom_letters (letters text : List Char)
    (all : ∀ c ∈ letters, isNamePart c = true) :
    countNamesFrom true (letters ++ text) = countNamesFrom true text := by
  induction letters with
  | nil => rfl
  | cons c letters ih =>
    simp only [List.cons_append, countNamesFrom, if_true, all c (List.mem_cons_self ..)]
    exact ih fun d member => all d (List.mem_cons_of_mem _ member)

theorem Spells.countNames {parts : List Lexeme} {text : List Char} (spelled : Spells parts text) :
    countNamesFrom false text = parts.countP Lexeme.isName := by
  induction spelled with
  | done => rfl
  | blank c parts text blank _ ih =>
    have other := not_letter_of_not_namePart c (not_namePart_of_blank c blank)
    simpa only [countNamesFrom, other, Bool.false_eq_true, if_false] using ih
  | lexeme part parts text fits _ ih =>
    cases part with
    | name letters =>
      obtain ⟨proper, apart⟩ := fits
      cases letters with
      | nil => exact proper.elim
      | cons c letters =>
        simp only [Lexeme.spelling, List.cons_append, countNamesFrom, proper.1, if_true,
          Bool.false_eq_true, if_false, countNamesFrom_letters letters text proper.2,
          countNamesFrom_apart text apart, ih]
        rw [List.countP_cons_of_pos rfl]
    | opening | comma | closing =>
      rw [List.countP_cons_of_neg (by decide)]
      exact ih

theorem not_opening_of_namePart (c : Char) (part : isNamePart c = true) : c ≠ '(' := by
  rintro rfl
  contradiction

theorem not_opening_of_isName (letters : List Char) (proper : IsName letters) :
    ∀ c ∈ letters, c ≠ '(' := by
  cases letters with
  | nil => exact proper.elim
  | cons first rest =>
    intro c member
    rcases List.mem_cons.mp member with rfl | member
    · exact not_opening_of_namePart c (namePart_of_letter c proper.1)
    · exact not_opening_of_namePart c (proper.2 c member)

theorem Spells.countOpenings {parts : List Lexeme} {text : List Char}
    (spelled : Spells parts text) :
    text.countP (· = '(') = parts.countP (· = Lexeme.opening) := by
  induction spelled with
  | done => rfl
  | blank c parts text blank _ ih =>
    have other : c ≠ '(' := by
      rintro rfl
      contradiction
    rw [List.countP_cons_of_neg (by simpa using other), ih]
  | lexeme part parts text fits _ ih =>
    cases part with
    | name letters =>
      have none : letters.countP (· = '(') = 0 := by
        rw [List.countP_eq_zero]
        intro c member
        simpa using not_opening_of_isName letters fits.1 c member
      rw [Lexeme.spelling, List.countP_append, none, Nat.zero_add,
        List.countP_cons_of_neg (by simp), ih]
    | opening =>
      rw [Lexeme.spelling, List.singleton_append, List.countP_cons_of_pos (by simp),
        List.countP_cons_of_pos (by simp), ih]
    | comma | closing =>
      rw [Lexeme.spelling, List.singleton_append, List.countP_cons_of_neg (by simp),
        List.countP_cons_of_neg (by simp), ih]

end Formula

end FactorSearch
