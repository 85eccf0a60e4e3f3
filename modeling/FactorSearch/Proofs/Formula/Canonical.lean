import FactorSearch.Proofs.Formula.Rendering

/-!
# Canonical texts

The rendering of a program is a text like any other: parsing it gives the program back.  So no two
programs share a canonical text, and a text that parses differs from its canonical text in blanks
and letter case alone.
-/

set_option autoImplicit false

namespace FactorSearch

variable {v : Vocabulary}

def Tree.call : Tree v → Formula.Call
  | node entry children => ⟨v.letters entry, List.ofFn fun i => (children i).call⟩

namespace Formula

theorem denotes_call (tree : Tree v) : Denotes tree.call tree := by
  induction tree with
  | node entry children ih => exact .call (v.letters entry) entry _ children rfl ih

/-! ## Rendered trees -/

theorem toList_renderCall (name : String) (operands : List String) :
    (Program.renderCall name operands).toList =
      name.toList ++ if operands.isEmpty then [] else
        '(' :: ([',', ' '].intercalate (operands.map String.toList) ++ [')']) := by
  cases operands with
  | nil => simp [Program.renderCall]
  | cons first rest => simp [Program.renderCall, String.toList_intercalate]

theorem spells_renderCall (name : String) (proper : IsName name.toList)
    (parts : List (List Lexeme)) (operands : List String)
    (each : List.Forall₂ Spells parts (operands.map String.toList)) :
    Spells (.name name.toList :: bracketed .opening .comma .closing parts)
      (Program.renderCall name operands).toList := by
  rw [toList_renderCall]
  cases operands with
  | nil =>
    cases each
    exact .lexeme (.name _) _ _ ⟨proper, by simp [Apart]⟩ .done
  | cons first rest =>
    cases parts with
    | nil => cases each
    | cons head tail =>
      have inside := spells_arguments [' '] (by simp [isBlank]) _ _ (List.cons_ne_nil _ _) each
      exact .lexeme (.name _) _ _ ⟨proper, by simp [Apart]; decide⟩
        (.lexeme .opening _ _ trivial inside)

/-- The rendering of a tree spells the call with the names of the vocabulary. -/
theorem spells_render (tree : Tree v) : Spells tree.call.lexemes tree.render.toList := by
  induction tree with
  | node entry children ih =>
    rw [Tree.call, Call.lexemes, lexemesAll_ofFn, Tree.render]
    apply spells_renderCall _ (Vocabulary.isName_letters entry)
    rw [List.map_ofFn]
    exact forall₂_ofFn Spells _ _ ih

theorem renders_render (tree : Tree v) : tree.Renders tree.render.toList :=
  (denotes_call tree).renders _ (spells_render tree)

theorem postorder_eq_of_render (first second : Tree v) (same : first.render = second.render) :
    first.postorder = second.postorder := by
  have one := (read?_eq_some_iff first.render first.call).mpr (spells_render first)
  have two := (read?_eq_some_iff second.render second.call).mpr (spells_render second)
  -- one text is read as one call, and a call resolves to one listing
  rw [same, two] at one
  have resolved := (denotes_call first).resolve
  rw [← Option.some.inj one, (denotes_call second).resolve] at resolved
  exact (Except.ok.inj resolved).symm

/-! ## Letter case and blanks -/

/-- The letters of a text without blanks, in upper case. -/
def bare (text : List Char) : List Char :=
  (text.filter fun c => !isBlank c).map Char.toUpper

theorem bare_append (first second : List Char) :
    bare (first ++ second) = bare first ++ bare second := by
  simp [bare]

namespace Lexeme

def upper : Lexeme → Lexeme
  | name letters => name (letters.map Char.toUpper)
  | opening => opening
  | comma => comma
  | closing => closing

end Lexeme

theorem bare_of_isName (letters : List Char) (proper : IsName letters) :
    bare letters = letters.map Char.toUpper := by
  have kept : letters.filter (fun c => !isBlank c) = letters := by
    rw [List.filter_eq_self]
    intro c member
    cases blank : isBlank c with
    | false => rfl
    | true =>
      have other := not_namePart_of_blank c blank
      cases letters with
      | nil => exact proper.elim
      | cons first rest =>
        rcases List.mem_cons.mp member with rfl | member
        · rw [namePart_of_letter c proper.1] at other
          contradiction
        · rw [proper.2 c member] at other
          contradiction
  rw [bare, kept]

/-- Without blanks and letter case a text is its lexemes. -/
theorem Spells.bare_eq {parts : List Lexeme} {text : List Char} (spelled : Spells parts text) :
    bare text = ((parts.map Lexeme.upper).map Lexeme.spelling).flatten := by
  induction spelled with
  | done => rfl
  | blank c parts text blank _ ih =>
    rw [← ih]
    simp [bare, blank]
  | lexeme part parts text fits _ ih =>
    rw [bare_append, ih]
    cases part with
    | name letters => rw [Lexeme.spelling, bare_of_isName letters fits.1]; rfl
    | opening | comma | closing => rfl

theorem map_intercalate {β γ : Type} (f : β → γ) (comma : β) (lists : List (List β)) :
    ([comma].intercalate lists).map f = [f comma].intercalate (lists.map (List.map f)) := by
  induction lists with
  | nil => rfl
  | cons first rest ih =>
    cases rest with
    | nil => simp
    | cons second rest =>
      rw [List.map_cons] at ih
      simp only [List.intercalate_cons_cons, List.map_append, List.map_cons, ih, List.map_nil]

theorem map_bracketed {β γ : Type} (f : β → γ) (opening comma closing : β)
    (lists : List (List β)) :
    (bracketed opening comma closing lists).map f =
      bracketed (f opening) (f comma) (f closing) (lists.map (List.map f)) := by
  cases lists with
  | nil => rfl
  | cons first rest => simp only [bracketed, List.map_cons, List.map_append, map_intercalate,
      List.map_nil]

/-- In upper case all calls that denote a tree are one. -/
theorem Denotes.upper {call : Call} {tree : Tree v} (denotes : Denotes call tree) :
    call.lexemes.map Lexeme.upper = tree.call.lexemes := by
  induction denotes with
  | call letters entry arguments children named each ih =>
    rw [Tree.call, Call.lexemes, Call.lexemes, lexemesAll_ofFn, lexemesAll_ofFn, List.map_cons,
      map_bracketed, List.map_ofFn, Lexeme.upper, named, Vocabulary.letters_upper]
    simp only [Function.comp_def, ih, Lexeme.upper]

theorem bare_of_renders {tree : Tree v} {text : List Char} (renders : tree.Renders text) :
    bare text = bare tree.render.toList := by
  obtain ⟨call, denotes, spelled⟩ := exists_call_of_renders renders
  rw [spelled.bare_eq, denotes.upper, (spells_render tree).bare_eq, (denotes_call tree).upper]

/-! ## Programs and their canonical texts -/

/-- Parsing and rendering are inverse: a canonical text parses to its program, no two programs
share one, and a text that parses has the canonical text of its program but for blanks and letter
case. -/
theorem canonical_parse_inverse (v : Vocabulary) :
    (∀ (program : Program) (formula : String), program.length ≤ 128 →
      program.canonical? v = some formula → parse v formula = .ok program) ∧
    (∀ (first second : Program) (formula : String), first.canonical? v = some formula →
      second.canonical? v = some formula → first = second) ∧
    (∀ (text : String) (program : Program), parse v text = .ok program →
      ∃ formula, program.canonical? v = some formula ∧ parse v formula = .ok program ∧
        bare formula.toList = bare text.toList) := by
  refine ⟨?roundTrip, ?injective, ?canonical⟩
  case roundTrip =>
    intro program formula short rendered
    obtain ⟨tree, rfl, rfl⟩ := (Program.canonical?_eq_some_iff ..).mp rendered
    rw [tree.length_postorder] at short
    exact (parse_eq_ok_iff ..).mpr ⟨tree, renders_render tree, short, rfl⟩
  case injective =>
    intro first second formula one two
    obtain ⟨tree, rfl, here⟩ := (Program.canonical?_eq_some_iff ..).mp one
    obtain ⟨other, rfl, there⟩ := (Program.canonical?_eq_some_iff ..).mp two
    exact postorder_eq_of_render tree other (here.trans there.symm)
  case canonical =>
    intro text program parsed
    obtain ⟨tree, renders, small, rfl⟩ := (parse_eq_ok_iff text program).mp parsed
    refine ⟨tree.render, (Program.canonical?_eq_some_iff ..).mpr ⟨tree, rfl, rfl⟩, ?_, ?_⟩
    · exact (parse_eq_ok_iff ..).mpr ⟨tree, renders_render tree, small, rfl⟩
    · exact (bare_of_renders renders).symm

theorem negatedTurnover_canonical :
    ([Token.ofNat 27, .ofNat 4].length ≤ 128 ∧
      Program.canonical? ⟨false⟩ [.ofNat 27, .ofNat 4] = some "NEG(TURNOVER)" ∧
      parse ⟨false⟩ "NEG(TURNOVER)" = .ok [.ofNat 27, .ofNat 4]) ∧
    (∀ program : Program, program.canonical? ⟨false⟩ = some "NEG(TURNOVER)" →
      program = [.ofNat 27, .ofNat 4]) ∧
    (parse ⟨false⟩ " neg( Turnover\t)" = .ok [.ofNat 27, .ofNat 4] ∧
      ∃ formula, Program.canonical? ⟨false⟩ [.ofNat 27, .ofNat 4] = some formula ∧
        parse ⟨false⟩ formula = .ok [.ofNat 27, .ofNat 4] ∧
        bare formula.toList = bare " neg( Turnover\t)".toList) := by
  obtain ⟨roundTrip, injective, canonical⟩ := canonical_parse_inverse ⟨false⟩
  have rendered : Program.canonical? ⟨false⟩ [.ofNat 27, .ofNat 4] = some "NEG(TURNOVER)" := by
    decide
  have parsed : parse ⟨false⟩ " neg( Turnover\t)" = .ok [.ofNat 27, .ofNat 4] :=
    (parse_eq_ok_iff ..).mpr ⟨negatedTurnover, negatedTurnover_renders, by decide, by decide⟩
  exact ⟨⟨by decide, rendered, roundTrip _ _ (by decide) rendered⟩,
    fun program same => injective program _ _ same rendered, parsed, canonical _ _ parsed⟩

end Formula

end FactorSearch
