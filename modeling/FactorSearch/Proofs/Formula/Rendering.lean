import FactorSearch.Proofs.Formula.Resolution

/-!
# Texts that render a tree

A text renders a tree when it writes the name of every node, in any letter case, followed by the
renderings of the children in parentheses with commas between them, and blanks anywhere between
the parts.  Parsing succeeds exactly on the renderings of trees of limited size, and gives the
listing of the tree.
-/

set_option autoImplicit false

namespace FactorSearch

variable {v : Vocabulary}

/-- The renderings of a tree: names in any letter case, children in parentheses, blanks around the
name and after the parentheses. -/
inductive Tree.Renders : Tree v → List Char → Prop where
  | node (entry : Fin v.entries.length) (children : Fin (v.entries.get entry).arity → Tree v)
      (letters before between after : List Char)
      (arguments : Fin (v.entries.get entry).arity → List Char)
      (named : letters.map Char.toUpper = (v.letters entry).map Char.toUpper)
      (each : ∀ i, Renders (children i) (arguments i))
      (blank : ∀ c ∈ before ++ between ++ after, Formula.isBlank c = true) :
      Renders (.node entry children)
        (before ++ (letters ++ (between ++
          (Formula.bracketed '(' ',' ')' (List.ofFn arguments) ++ after))))

namespace Formula

/-! ## From renderings to lexemes -/

theorem spells_arguments (gap : List Char) (blank : ∀ c ∈ gap, isBlank c = true)
    (parts : List (List Lexeme)) (texts : List (List Char)) (some : parts ≠ [])
    (each : List.Forall₂ Spells parts texts) :
    Spells ([Lexeme.comma].intercalate parts ++ [.closing])
      ((',' :: gap).intercalate texts ++ [')']) := by
  have closing : Spells [.closing] [')'] := .lexeme .closing [] [] trivial .done
  induction each with
  | nil => exact absurd rfl some
  | cons first others ih =>
    cases others with
    | nil =>
      simp only [List.intercalate_singleton]
      exact first.append closing (by simp [Apart]; decide)
    | cons second others =>
      have rest := ih (List.cons_ne_nil _ _)
      simp only [List.intercalate_cons_cons, List.append_assoc, List.singleton_append]
      exact first.append (.lexeme .comma _ _ trivial (rest.before gap blank))
        (by simp [Apart]; decide)

theorem spells_bracketed (parts : List (List Lexeme)) (texts : List (List Char))
    (each : List.Forall₂ Spells parts texts) :
    Spells (bracketed .opening .comma .closing parts) (bracketed '(' ',' ')' texts) := by
  cases each with
  | nil => exact .done
  | cons first others =>
    exact .lexeme .opening _ _ trivial
      (spells_arguments [] (by simp) _ _ (List.cons_ne_nil _ _) (.cons first others))

theorem apart_bracketed (texts : List (List Char)) (after : List Char) (apart : Apart after) :
    Apart (bracketed '(' ',' ')' texts ++ after) := by
  cases texts with
  | nil => exact apart
  | cons first others =>
    simp [bracketed, Apart]
    decide

/-- A rendering is spelled by a call that denotes the tree. -/
theorem exists_call_of_renders {tree : Tree v} {text : List Char} (renders : tree.Renders text) :
    ∃ call, Denotes call tree ∧ Spells call.lexemes text := by
  induction renders with
  | node entry children letters before between after arguments named each blank ih =>
    choose calls denotes spelled using ih
    refine ⟨⟨letters, List.ofFn calls⟩, .call letters entry calls children named denotes, ?_⟩
    have gap : ∀ c ∈ before, isBlank c = true :=
      fun c member => blank c (by simp [member])
    have middle : ∀ c ∈ between, isBlank c = true :=
      fun c member => blank c (by simp [member])
    have final : ∀ c ∈ after, isBlank c = true :=
      fun c member => blank c (by simp [member])
    have closed := apart_bracketed (List.ofFn arguments) after (apart_of_blanks after final)
    have bracket := spells_bracketed (List.ofFn fun i => (calls i).lexemes) (List.ofFn arguments)
      (forall₂_ofFn _ _ _ spelled)
    have whole := bracket.append (.of_blanks after final) (apart_of_blanks after final)
    rw [List.append_nil] at whole
    have proper : IsName letters := by
      rw [← isName_map_toUpper, named, isName_map_toUpper]
      exact Vocabulary.isName_letters entry
    have ends : Apart (between ++ (bracketed '(' ',' ')' (List.ofFn arguments) ++ after)) :=
      (apart_of_blanks between middle).append _ fun _ => closed
    rw [Call.lexemes, lexemesAll_ofFn]
    exact (Spells.lexeme (.name letters) _ _ ⟨proper, ends⟩ (whole.before between middle)).before
      before gap

/-! ## From lexemes to renderings -/

theorem exists_texts_of_spells (parts : List (List Lexeme)) (some : parts ≠ [])
    (text : List Char)
    (spelled : Spells ([Lexeme.comma].intercalate parts ++ [.closing]) text) :
    ∃ texts after, List.Forall₂ Spells parts texts ∧
      text = [','].intercalate texts ++ ')' :: after ∧ Spells [] after := by
  induction parts generalizing text with
  | nil => exact absurd rfl some
  | cons first others ih =>
    cases others with
    | nil =>
      rw [List.intercalate_singleton] at spelled
      obtain ⟨front, after, rfl, here, _, rest⟩ := spelled.cut first
      exact ⟨[front], after, .cons here .nil, by simp [Lexeme.spelling], rest⟩
    | cons second others =>
      rw [List.intercalate_cons_cons, List.append_assoc, List.append_assoc,
        List.singleton_append] at spelled
      obtain ⟨front, behind, rfl, here, _, rest⟩ := spelled.cut first
      obtain ⟨texts, after, each, rfl, last⟩ := ih (List.cons_ne_nil _ _) behind rest
      refine ⟨front :: texts, after, .cons here each, ?_, last⟩
      cases each with
      | cons _ _ => simp [Lexeme.spelling, List.intercalate_cons_cons]

theorem exists_texts_of_spells_bracketed (parts : List (List Lexeme)) (text : List Char)
    (spelled : Spells (bracketed .opening .comma .closing parts) text) :
    ∃ texts between after, List.Forall₂ Spells parts texts ∧
      text = between ++ (bracketed '(' ',' ')' texts ++ after) ∧ Spells [] between ∧
        Spells [] after := by
  cases parts with
  | nil => exact ⟨[], text, [], .nil, by simp [bracketed], spelled, .done⟩
  | cons first others =>
    obtain ⟨between, behind, rfl, blank, _, rest⟩ := Spells.cut [] spelled
    obtain ⟨texts, after, each, rfl, last⟩ :=
      exists_texts_of_spells (first :: others) (List.cons_ne_nil _ _) behind rest
    refine ⟨texts, between, after, each, ?_, blank, last⟩
    cases each with
    | cons _ _ => simp [Lexeme.spelling, bracketed]

theorem Denotes.renders {call : Call} {tree : Tree v} (denotes : Denotes call tree)
    (text : List Char) (spelled : Spells call.lexemes text) : tree.Renders text := by
  induction denotes generalizing text with
  | call letters entry arguments children named each ih =>
    rw [Call.lexemes, lexemesAll_ofFn] at spelled
    -- cut the text behind the name, and what is left at the parentheses and the commas
    obtain ⟨before, behind, rfl, gap, _, rest⟩ := Spells.cut [] spelled
    obtain ⟨texts, between, after, inner, rfl, middle, final⟩ :=
      exists_texts_of_spells_bracketed _ behind rest
    obtain ⟨_, given, same, rfl, spells⟩ :=
      exists_ofFn_of_forall₂ Spells _ texts (List.length_ofFn ..) inner
    have parts := List.ofFn_injective same
    subst parts
    rw [List.append_assoc]
    refine .node entry children letters before between after given named
      (fun i => ih i (given i) (spells i)) ?_
    intro c member
    rcases List.mem_append.mp member with member | member
    · rcases List.mem_append.mp member with member | member
      · exact gap.blanks c member
      · exact middle.blanks c member
    · exact final.blanks c member

/-! ## Parsing -/

theorem countNames_of_renders {tree : Tree v} {text : String}
    (renders : tree.Renders text.toList) : countNames text = tree.size := by
  obtain ⟨call, denotes, spelled⟩ := exists_call_of_renders renders
  rw [countNames, spelled.countNames, denotes.countNames]

theorem countOpenings_of_renders {tree : Tree v} {text : String}
    (renders : tree.Renders text.toList) : text.toList.countP (· = '(') ≤ tree.size := by
  obtain ⟨call, denotes, spelled⟩ := exists_call_of_renders renders
  rw [spelled.countOpenings]
  exact denotes.countOpenings

theorem parse_eq_ok_iff (text : String) (program : Program) :
    parse v text = .ok program ↔
      ∃ tree : Tree v, tree.Renders text.toList ∧ tree.size ≤ sizeLimit ∧
        tree.postorder = program := by
  simp only [parse, Bool.or_eq_true, decide_eq_true_eq]
  constructor
  · intro parsed
    split at parsed
    · contradiction
    · rename_i small
      split at parsed
      · contradiction
      · rename_i call read
        obtain ⟨tree, denotes, listing⟩ := (resolve_eq_ok_iff call program).mp parsed
        have renders := denotes.renders _ ((read?_eq_some_iff text call).mp read)
        refine ⟨tree, renders, ?_, listing⟩
        rw [← countNames_of_renders renders]
        exact Nat.not_lt.mp fun large => small (Or.inl large)
  · rintro ⟨tree, renders, small, rfl⟩
    have names := countNames_of_renders renders
    have openings := countOpenings_of_renders renders
    -- a tree has no more parentheses than nodes, so the limit on nesting refuses none that fits
    have inside : ¬ (sizeLimit < countNames text ∨ sizeLimit < text.toList.countP (· = '(')) := by
      omega
    obtain ⟨call, denotes, spelled⟩ := exists_call_of_renders renders
    rw [if_neg inside, (read?_eq_some_iff text call).mpr spelled]
    exact denotes.resolve

/-- Parsing accepts exactly the renderings of trees of at most 128 nodes, with the listing of the
tree as result, which has a token for every name of the text; everything else is a malformed
formula. -/
theorem parse_exact (v : Vocabulary) (text : String) :
    (∀ program, parse v text = .ok program ↔
      ∃ tree : Tree v, tree.Renders text.toList ∧ tree.size ≤ 128 ∧ tree.postorder = program) ∧
    (∀ program, parse v text = .ok program → program.length = countNames text) ∧
    ((¬ ∃ tree : Tree v, tree.Renders text.toList ∧ tree.size ≤ 128) →
      ∃ fault, parse v text = .error fault) := by
  refine ⟨parse_eq_ok_iff text, ?length, ?malformed⟩
  case length =>
    intro program parsed
    obtain ⟨tree, renders, _, rfl⟩ := (parse_eq_ok_iff text program).mp parsed
    rw [tree.length_postorder, countNames_of_renders renders]
  case malformed =>
    intro other
    cases parsed : parse v text with
    | error fault => exact ⟨fault, rfl⟩
    | ok program =>
      obtain ⟨tree, renders, small, _⟩ := (parse_eq_ok_iff text program).mp parsed
      exact absurd ⟨tree, renders, small⟩ other

def negatedTurnover : Tree ⟨false⟩ := .node ⟨4, by decide⟩ fun _ => .node ⟨27, by decide⟩ nofun

theorem negatedTurnover_renders : negatedTurnover.Renders " neg( Turnover\t)".toList := by
  have leaf : (Tree.node ⟨27, by decide⟩ nofun : Tree ⟨false⟩).Renders " Turnover\t".toList :=
    .node (v := ⟨false⟩) ⟨27, by decide⟩ nofun "Turnover".toList [' '] ['\t'] [] nofun (by decide)
      nofun (by simp [isBlank])
  exact .node (v := ⟨false⟩) ⟨4, by decide⟩ _ "neg".toList [' '] [] []
    (fun _ => " Turnover\t".toList) (by decide) (fun _ => leaf) (by simp [isBlank])

theorem negatedTurnover_parsed :
    (negatedTurnover.Renders " neg( Turnover\t)".toList ∧ negatedTurnover.size ≤ 128 ∧
      parse ⟨false⟩ " neg( Turnover\t)" = .ok [.ofNat 27, .ofNat 4] ∧
      [Token.ofNat 27, .ofNat 4].length = countNames " neg( Turnover\t)") ∧
    (¬ ∃ tree : Tree ⟨false⟩, tree.Renders "ADD(RET)".toList ∧ tree.size ≤ 128) ∧
      ∃ fault, parse ⟨false⟩ "ADD(RET)" = .error fault := by
  have renders := negatedTurnover_renders
  have parsed := ((parse_exact ⟨false⟩ " neg( Turnover\t)").1 [.ofNat 27, .ofNat 4]).mpr
    ⟨negatedTurnover, renders, by decide, by decide⟩
  have refused : ∀ program, parse ⟨false⟩ "ADD(RET)" ≠ .ok program := by
    have fault : parse ⟨false⟩ "ADD(RET)" = .error (.argumentCount "ADD" 2 1) := by decide +kernel
    simp [fault]
  have other : ¬ ∃ tree : Tree ⟨false⟩, tree.Renders "ADD(RET)".toList ∧ tree.size ≤ 128 := by
    rintro ⟨tree, rendered, small⟩
    exact refused _ (((parse_exact ⟨false⟩ "ADD(RET)").1 _).mpr ⟨tree, rendered, small, rfl⟩)
  exact ⟨⟨renders, by decide, parsed, (parse_exact ⟨false⟩ _).2.1 _ parsed⟩, other,
    (parse_exact ⟨false⟩ _).2.2 other⟩

end Formula

end FactorSearch
