import FactorSearch.Proofs.Formula.Lexing
import Mathlib.Data.List.Basic

/-!
# Calls in a list of lexemes

A call is written as its name, followed by its arguments in parentheses if it has any.  Reading a
call from the front of a list of lexemes is the inverse of writing it, given fuel for two steps a
lexeme, and unless an opening parenthesis follows that the call would take for its own.
-/

set_option autoImplicit false

namespace FactorSearch

namespace Formula

/-- Lists in parentheses with commas between them; nothing when there are none. -/
def bracketed {β : Type} (opening comma closing : β) : List (List β) → List β
  | [] => []
  | first :: rest => opening :: ([comma].intercalate (first :: rest) ++ [closing])

mutual

def Call.lexemes : Call → List Lexeme
  | ⟨letters, arguments⟩ =>
    .name letters :: bracketed .opening .comma .closing (Call.lexemesAll arguments)

def Call.lexemesAll : List Call → List (List Lexeme)
  | [] => []
  | call :: rest => call.lexemes :: Call.lexemesAll rest

end

def Call.argumentLexemes (arguments : List Call) : List Lexeme :=
  [Lexeme.comma].intercalate (Call.lexemesAll arguments) ++ [.closing]

theorem Call.lexemesAll_eq_map (calls : List Call) :
    Call.lexemesAll calls = calls.map Call.lexemes := by
  induction calls with
  | nil => rfl
  | cons call rest ih => rw [Call.lexemesAll, ih, List.map_cons]

theorem Call.lexemes_bare (letters : List Char) : Call.lexemes ⟨letters, []⟩ = [.name letters] :=
  rfl

theorem Call.lexemes_applied (letters : List Char) (first : Call) (others : List Call) :
    Call.lexemes ⟨letters, first :: others⟩ =
      .name letters :: .opening :: Call.argumentLexemes (first :: others) :=
  rfl

theorem Call.argumentLexemes_last (last : Call) :
    Call.argumentLexemes [last] = last.lexemes ++ [.closing] := by
  simp [Call.argumentLexemes, Call.lexemesAll]

theorem Call.argumentLexemes_cons (first second : Call) (others : List Call) :
    Call.argumentLexemes (first :: second :: others) =
      first.lexemes ++ .comma :: Call.argumentLexemes (second :: others) := by
  simp [Call.argumentLexemes, Call.lexemesAll, List.intercalate_cons_cons]

/-! ## What is read has been written -/

theorem read_sound (fuel : Nat) :
    (∀ parts call rest, call? fuel parts = some (call, rest) → parts = call.lexemes ++ rest) ∧
    (∀ parts arguments rest, arguments? fuel parts = some (arguments, rest) →
      arguments ≠ [] ∧ parts = Call.argumentLexemes arguments ++ rest) := by
  -- the two readers call each other with less fuel, so both statements go through one induction
  induction fuel with
  | zero => exact ⟨fun _ _ _ read => by simp [call?] at read,
      fun _ _ _ read => by simp [arguments?] at read⟩
  | succ fuel ih =>
    obtain ⟨callSound, argumentsSound⟩ := ih
    refine ⟨?call, ?arguments⟩
    case call =>
      intro parts call rest read
      unfold call? at read
      split at read
      · contradiction
      · rename_i letters inner same
        cases same
        split at read
        · rename_i arguments after found
          obtain ⟨rfl, rfl⟩ := Prod.mk.inj (Option.some.inj read)
          obtain ⟨some, rfl⟩ := argumentsSound _ _ _ found
          obtain ⟨first, others, rfl⟩ := List.exists_cons_of_ne_nil some
          rw [Call.lexemes_applied]
          rfl
        · contradiction
      · rename_i letters inner _ _
        obtain ⟨rfl, rfl⟩ := Prod.mk.inj (Option.some.inj read)
        rfl
      · contradiction
    case arguments =>
      intro parts arguments rest read
      simp only [arguments?] at read
      split at read
      · rename_i first inner found
        have front := callSound _ _ _ found
        split at read
        · rename_i others after more
          obtain ⟨rfl, rfl⟩ := Prod.mk.inj (Option.some.inj read)
          obtain ⟨some, rfl⟩ := argumentsSound _ _ _ more
          obtain ⟨second, others, rfl⟩ := List.exists_cons_of_ne_nil some
          refine ⟨List.cons_ne_nil _ _, ?_⟩
          rw [front, Call.argumentLexemes_cons, List.append_assoc, List.cons_append]
        · contradiction
      · rename_i last inner found
        have front := callSound _ _ _ found
        obtain ⟨rfl, rfl⟩ := Prod.mk.inj (Option.some.inj read)
        refine ⟨List.cons_ne_nil _ _, ?_⟩
        rw [front, Call.argumentLexemes_last, List.append_assoc, List.singleton_append]
      · contradiction

/-! ## What is written is read -/

theorem read_complete (fuel : Nat) :
    (∀ (call : Call) rest, 2 * call.lexemes.length ≤ fuel → rest.head? ≠ some .opening →
      call? fuel (call.lexemes ++ rest) = some (call, rest)) ∧
    (∀ arguments rest, arguments ≠ [] → 2 * (Call.argumentLexemes arguments).length ≤ fuel →
      arguments? fuel (Call.argumentLexemes arguments ++ rest) = some (arguments, rest)) := by
  induction fuel with
  | zero =>
    refine ⟨?call, ?arguments⟩
    case call =>
      intro call rest enough
      cases call
      simp [Call.lexemes] at enough
    case arguments =>
      intro arguments rest _ enough
      simp [Call.argumentLexemes] at enough
  | succ fuel ih =>
    obtain ⟨callComplete, argumentsComplete⟩ := ih
    refine ⟨?call, ?arguments⟩
    case call =>
      intro call rest enough closed
      obtain ⟨letters, arguments⟩ := call
      cases arguments with
      | nil =>
        rw [Call.lexemes_bare, List.singleton_append]
        -- a bare name ends here only because no parenthesis follows it
        cases rest with
        | nil => rfl
        | cons part rest => cases part <;> first | rfl | exact absurd rfl closed
      | cons first others =>
        rw [Call.lexemes_applied] at enough ⊢
        simp only [List.length_cons] at enough
        have inner := argumentsComplete (first :: others) rest (List.cons_ne_nil _ _) (by omega)
        simp only [List.cons_append, call?, inner]
    case arguments =>
      intro arguments rest some enough
      obtain ⟨first, others, rfl⟩ := List.exists_cons_of_ne_nil some
      cases others with
      | nil =>
        rw [Call.argumentLexemes_last] at enough ⊢
        rw [List.length_append, List.length_singleton] at enough
        have inner := callComplete first (.closing :: rest) (by omega) (by simp)
        simp only [List.append_assoc, List.singleton_append, arguments?, inner]
      | cons second others =>
        rw [Call.argumentLexemes_cons] at enough ⊢
        rw [List.length_append, List.length_cons] at enough
        have front := callComplete first
          (.comma :: (Call.argumentLexemes (second :: others) ++ rest)) (by omega) (by simp)
        have back := argumentsComplete (second :: others) rest (List.cons_ne_nil _ _) (by omega)
        simp only [List.append_assoc, List.cons_append, arguments?, front, back]

/-- Reading a text finds exactly the call whose lexemes spell it. -/
theorem read?_eq_some_iff (text : String) (call : Call) :
    read? text = some call ↔ Spells call.lexemes text.toList := by
  simp only [read?, ← lexemes?_eq_some_iff]
  cases lexemes? text.toList with
  | none => simp
  | some parts =>
    simp only [Option.some.injEq]
    constructor
    · intro read
      split at read
      · rename_i found here
        cases Option.some.inj read
        rw [(read_sound _).1 _ _ _ here, List.append_nil]
      · contradiction
    · rintro rfl
      have whole := (read_complete (2 * call.lexemes.length)).1 call [] (Nat.le_refl _) (by simp)
      rw [List.append_nil] at whole
      rw [whole]

end Formula

end FactorSearch
