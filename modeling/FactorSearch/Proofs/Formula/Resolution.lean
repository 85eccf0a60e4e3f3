import Mathlib
import FactorSearch.Proofs.Formula.Calls
import FactorSearch.Proofs.Formula.Validity

/-!
# Calls and trees

A call denotes a tree when it names the entry of every node, in any letter case, and has as many
arguments as there are children.  Names are distinct even in letter case, so a call denotes one
tree at most; resolving the call succeeds exactly when there is one and gives its listing.
-/

set_option autoImplicit false

namespace FactorSearch

variable {v : Vocabulary}

/-! ## The names of a vocabulary -/

namespace Formula

theorem isNamePart_toUpper (c : Char) : isNamePart c.toUpper = isNamePart c := by
  by_cases lower : c.isLower = true
  · have letter : c.isAlpha = true := by simp [Char.isAlpha, lower]
    simp [isNamePart, Char.isAlphanum, letter]
  · rw [Char.toUpper_eq_of_not_isLower lower]

theorem isName_map_toUpper (letters : List Char) :
    IsName (letters.map Char.toUpper) ↔ IsName letters := by
  cases letters with
  | nil => exact Iff.rfl
  | cons c rest =>
    simp [IsName, isLetter, isNamePart_toUpper]

end Formula

namespace Vocabulary

def letters (v : Vocabulary) (entry : Fin v.entries.length) : List Char :=
  (v.entries.get entry).name.toList

theorem letters_upper (entry : Fin v.entries.length) :
    (v.letters entry).map Char.toUpper = v.letters entry := by
  revert entry
  rcases v with ⟨_ | _⟩ <;> decide

theorem isName_letters (entry : Fin v.entries.length) : Formula.IsName (v.letters entry) := by
  revert entry
  rcases v with ⟨_ | _⟩ <;> decide

theorem names_nodup (v : Vocabulary) : (v.entries.map Entry.name).Nodup := by
  rcases v with ⟨_ | _⟩ <;> decide

theorem name_injective (first second : Fin v.entries.length)
    (same : (v.entries.get first).name = (v.entries.get second).name) : first = second := by
  have distinct := List.nodup_iff_injective_get.mp v.names_nodup
  have size : v.entries.length = (v.entries.map Entry.name).length := (List.length_map _).symm
  have positions : first.cast size = second.cast size := distinct (by simpa using same)
  simpa [Fin.ext_iff] using positions

theorem upperName_eq_name_iff (spelled : List Char) (entry : Fin v.entries.length) :
    upperName (String.ofList spelled) = (v.entries.get entry).name ↔
      spelled.map Char.toUpper = (v.letters entry).map Char.toUpper := by
  rw [letters_upper, letters, upperName, String.toList_ofList, ← String.toList_inj,
    String.toList_ofList]

/-- The token of a text is that of the entry whose name it is in any letter case. -/
theorem token?_eq_some_iff (spelled : List Char) (token : Token) :
    v.token? (String.ofList spelled) = some token ↔
      ∃ entry : Fin v.entries.length, token = Token.ofNat entry.val ∧
        spelled.map Char.toUpper = (v.letters entry).map Char.toUpper := by
  simp only [token?, Option.map_eq_some_iff, List.findIdx?_eq_some_iff_getElem]
  constructor
  · rintro ⟨index, ⟨inside, here, _⟩, rfl⟩
    refine ⟨⟨index, inside⟩, rfl, ?_⟩
    rw [← upperName_eq_name_iff]
    exact (of_decide_eq_true here).symm
  · rintro ⟨entry, rfl, named⟩
    have here := (upperName_eq_name_iff spelled entry).mpr named
    refine ⟨entry.val, ⟨entry.isLt, decide_eq_true here.symm, ?_⟩, rfl⟩
    intro other before found
    have same := name_injective ⟨other, Nat.lt_trans before entry.isLt⟩ entry
      ((of_decide_eq_true found).trans here)
    exact absurd (congrArg Fin.val same) (Nat.ne_of_lt before)

end Vocabulary

/-! ## Calls that stand for a tree -/

namespace Formula

theorem forall₂_ofFn {α β : Type} {n : Nat} (relation : α → β → Prop) (f : Fin n → α)
    (g : Fin n → β) (each : ∀ i, relation (f i) (g i)) :
    List.Forall₂ relation (List.ofFn f) (List.ofFn g) := by
  rw [List.forall₂_iff_get]
  refine ⟨by rw [List.length_ofFn, List.length_ofFn], ?_⟩
  intro i inside _
  simpa only [List.get_eq_getElem, List.getElem_ofFn] using each ⟨i, by simpa using inside⟩

theorem exists_ofFn_of_forall₂ {α β : Type} {n : Nat} (relation : α → β → Prop) (first : List α)
    (second : List β) (count : first.length = n) (each : List.Forall₂ relation first second) :
    ∃ (f : Fin n → α) (g : Fin n → β), List.ofFn f = first ∧ List.ofFn g = second ∧
      ∀ i, relation (f i) (g i) := by
  subst count
  have same := each.length_eq
  refine ⟨first.get, fun i => second.get (i.cast same), List.ofFn_get first, ?_, ?_⟩
  · apply List.ext_getElem
    · rw [List.length_ofFn, same]
    · intro i _ _
      simp
  · intro i
    exact (List.forall₂_iff_get.mp each).2 i.val i.isLt (same ▸ i.isLt)

/-- A call that names the entries of a tree, with as many arguments as there are children. -/
inductive Denotes : Call → Tree v → Prop where
  | call (letters : List Char) (entry : Fin v.entries.length)
      (arguments : Fin (v.entries.get entry).arity → Call)
      (children : Fin (v.entries.get entry).arity → Tree v)
      (named : letters.map Char.toUpper = (v.letters entry).map Char.toUpper)
      (each : ∀ i, Denotes (arguments i) (children i)) :
      Denotes ⟨letters, List.ofFn arguments⟩ (.node entry children)

theorem resolveAll_of_each (calls : List Call) (programs : List Program)
    (each : List.Forall₂ (fun call program => call.resolve v = .ok program) calls programs) :
    Call.resolveAll v calls = .ok programs.flatten := by
  induction each with
  | nil => rfl
  | cons here _ ih => simp only [Call.resolveAll, here, ih, List.flatten_cons]

theorem Denotes.resolve {call : Call} {tree : Tree v} (denotes : Denotes call tree) :
    call.resolve v = .ok tree.postorder := by
  induction denotes with
  | call letters entry arguments children named each ih =>
    have found : v.token? (String.ofList letters) = some (Token.ofNat entry.val) :=
      (Vocabulary.token?_eq_some_iff ..).mpr ⟨entry, rfl, named⟩
    have operands := resolveAll_of_each (v := v) (List.ofFn arguments)
      (List.ofFn fun i => (children i).postorder) (forall₂_ofFn _ _ _ ih)
    simp only [Call.resolve, found, Vocabulary.entry?_ofNat, operands, List.length_ofFn, if_true,
      Tree.postorder]

mutual

theorem exists_tree_of_resolve (call : Call) (program : Program)
    (resolved : call.resolve v = .ok program) :
    ∃ tree : Tree v, Denotes call tree ∧ tree.postorder = program := by
  obtain ⟨letters, arguments⟩ := call
  simp only [Call.resolve] at resolved
  split at resolved
  · contradiction
  · rename_i token found
    split at resolved
    · contradiction
    · rename_i known here
      obtain ⟨entry, rfl, named⟩ := (Vocabulary.token?_eq_some_iff ..).mp found
      rw [Vocabulary.entry?_ofNat] at here
      cases Option.some.inj here
      split at resolved
      · contradiction
      · rename_i operands inner
        split at resolved
        · rename_i count
          obtain ⟨trees, each, rfl⟩ := exists_trees_of_resolveAll arguments operands inner
          cases Except.ok.inj resolved
          obtain ⟨inputs, children, rfl, rfl, denotes⟩ :=
            exists_ofFn_of_forall₂ Denotes arguments trees count each
          refine ⟨.node entry children, .call letters entry inputs children named denotes, ?_⟩
          rw [Tree.postorder, List.map_ofFn]
          rfl
        · contradiction

theorem exists_trees_of_resolveAll (calls : List Call) (program : Program)
    (resolved : Call.resolveAll v calls = .ok program) :
    ∃ trees : List (Tree v), List.Forall₂ Denotes calls trees ∧
      (trees.map Tree.postorder).flatten = program := by
  match calls with
  | [] =>
    cases Except.ok.inj resolved
    exact ⟨[], .nil, rfl⟩
  | call :: rest =>
    simp only [Call.resolveAll] at resolved
    split at resolved
    · contradiction
    · rename_i first here
      split at resolved
      · contradiction
      · rename_i others later
        cases Except.ok.inj resolved
        obtain ⟨tree, denotes, rfl⟩ := exists_tree_of_resolve call first here
        obtain ⟨trees, each, rfl⟩ := exists_trees_of_resolveAll rest others later
        exact ⟨tree :: trees, .cons denotes each, rfl⟩

end

/-- Resolving a call gives exactly the listing of the tree that it denotes. -/
theorem resolve_eq_ok_iff (call : Call) (program : Program) :
    call.resolve v = .ok program ↔
      ∃ tree : Tree v, Denotes call tree ∧ tree.postorder = program := by
  constructor
  · exact exists_tree_of_resolve call program
  · rintro ⟨tree, denotes, rfl⟩
    exact denotes.resolve

/-! ## Sizes -/

theorem size_node (entry : Fin v.entries.length)
    (children : Fin (v.entries.get entry).arity → Tree v) :
    (Tree.node entry children).size = (List.ofFn fun i => (children i).size).sum + 1 := rfl

theorem countP_intercalate {β : Type} (p : β → Bool) (comma : β) (other : p comma = false)
    (lists : List (List β)) :
    ([comma].intercalate lists).countP p = (lists.map (List.countP p)).sum := by
  induction lists with
  | nil => rfl
  | cons first rest ih =>
    cases rest with
    | nil => simp
    | cons second rest =>
      rw [List.intercalate_cons_cons, List.countP_append, List.countP_append, ih,
        List.countP_singleton, other]
      simp

theorem countP_bracketed {β : Type} (p : β → Bool) (opening comma closing : β)
    (comma_out : p comma = false) (closing_out : p closing = false) (lists : List (List β)) :
    (bracketed opening comma closing lists).countP p =
      (if lists ≠ [] ∧ p opening = true then 1 else 0) + (lists.map (List.countP p)).sum := by
  cases lists with
  | nil => rfl
  | cons first rest =>
    rw [bracketed, List.countP_cons, List.countP_append, countP_intercalate p comma comma_out,
      List.countP_singleton, closing_out]
    simp [Nat.add_comm]

theorem lexemesAll_ofFn {n : Nat} (arguments : Fin n → Call) :
    Call.lexemesAll (List.ofFn arguments) = List.ofFn fun i => (arguments i).lexemes := by
  rw [Call.lexemesAll_eq_map, List.map_ofFn]
  rfl

theorem Denotes.countNames {call : Call} {tree : Tree v} (denotes : Denotes call tree) :
    call.lexemes.countP Lexeme.isName = tree.size := by
  induction denotes with
  | call letters entry arguments children named each ih =>
    rw [Call.lexemes, lexemesAll_ofFn, List.countP_cons_of_pos rfl,
      countP_bracketed _ _ _ _ rfl rfl, List.map_ofFn, size_node]
    simp only [Function.comp_def, ih, Lexeme.isName, Bool.false_eq_true, and_false, if_false,
      Nat.zero_add]

theorem Denotes.countOpenings {call : Call} {tree : Tree v} (denotes : Denotes call tree) :
    call.lexemes.countP (· = Lexeme.opening) ≤ tree.size := by
  induction denotes with
  | call letters entry arguments children named each ih =>
    have inner : (List.ofFn fun i => (arguments i).lexemes.countP (· = Lexeme.opening)).sum ≤
        (List.ofFn fun i => (children i).size).sum := by
      rw [List.sum_ofFn, List.sum_ofFn]
      exact Finset.sum_le_sum fun i _ => ih i
    rw [Call.lexemes, lexemesAll_ofFn, List.countP_cons_of_neg (by simp),
      countP_bracketed _ _ _ _ (by simp) (by simp), List.map_ofFn, size_node]
    simp only [Function.comp_def]
    split
    · omega
    · omega

end Formula

namespace Tree

theorem length_postorder (tree : Tree v) : tree.postorder.length = tree.size := by
  induction tree with
  | node entry children ih =>
    rw [postorder, Formula.size_node, List.length_append, List.length_flatten, List.map_ofFn]
    simp only [Function.comp_def, ih, List.length_singleton]

end Tree

end FactorSearch
