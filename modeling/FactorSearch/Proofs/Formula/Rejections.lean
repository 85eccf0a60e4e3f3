import FactorSearch.Proofs.Formula.Validity

/-!
# Why a program is rejected

Tokens are well behaved when they list trees one after the other, and then they leave as many
values as there are trees.  A program that is no listing of one tree has a first token that no
longer fits what the tokens before it leave, or it leaves several values; the rejection tells
which, after the length and emptiness were looked at.
-/

set_option autoImplicit false

namespace FactorSearch

namespace Program

variable {v : Vocabulary}

/-! ## Well behaved tokens -/

/-- The tokens are the listings of so many trees, one after the other. -/
def Leaves (v : Vocabulary) (program : Program) (count : Nat) : Prop :=
  ∃ trees : List (Tree v), trees.length = count ∧ (trees.map Tree.postorder).flatten = program

theorem leaves_iff_depthAfter (program : Program) (count : Nat) :
    Leaves v program count ↔ depthAfter v 0 0 program = .ok count := by
  have readings := depthAfter_ok_iff_foldOnto (Tree.node (v := v)) program 0 [] count
  rw [List.length_nil] at readings
  rw [readings]
  constructor
  · intro given
    obtain ⟨trees, rfl, rfl⟩ := given
    have run := foldOnto_listings Tree.node trees (fun tree _ => foldOnto_postorder _ tree) []
    exact ⟨_, run, by simp⟩
  · intro given
    obtain ⟨out, reading, rfl⟩ := given
    have listed := flatten_foldOnto_node program [] out reading
    exact ⟨out.reverse, List.length_reverse, by simpa using listed⟩

theorem not_leaves_zero (token : Token) (rest : Program) : ¬ Leaves v (token :: rest) 0 := by
  rintro ⟨trees, none, listed⟩
  rw [List.length_eq_zero_iff.mp none] at listed
  cases listed

/-! ## The first token that does not fit -/

/-- Why a token at a position cannot follow tokens that leave `depth` values. -/
inductive Misfit (v : Vocabulary) (position depth : Nat) (token : Token) : Rejection → Prop where
  | unknown : v.entry? token = none →
      Misfit v position depth token (.unknownToken position token.index)
  | underflow (arity : Nat) : v.arity? token = some arity → depth < arity →
      Misfit v position depth token (.underflow position arity depth)

theorem Misfit.not_fits {position depth arity : Nat} {token : Token} {reason : Rejection}
    (misfit : Misfit v position depth token reason) (known : v.arity? token = some arity) :
    depth < arity := by
  cases misfit with
  | unknown unknown =>
    rw [Vocabulary.arity?, unknown] at known
    cases known
  | underflow other found few =>
    cases Option.some.inj (found.symm.trans known)
    exact few

theorem depthAfter_cons_eq_error_iff (token : Token) (rest : Program) (position depth : Nat)
    (reason : Rejection) :
    depthAfter v position depth (token :: rest) = .error reason ↔
      Misfit v position depth token reason ∨
        ∃ arity, v.arity? token = some arity ∧ arity ≤ depth ∧
          depthAfter v (position + 1) (depth - arity + 1) rest = .error reason := by
  simp only [depthAfter]
  cases found : v.arity? token with
  | none =>
    have unknown : v.entry? token = none := Option.map_eq_none_iff.mp found
    simp only [Except.error.injEq, reduceCtorEq, false_and, exists_false, or_false]
    constructor
    · rintro rfl
      exact .unknown unknown
    · intro misfit
      cases misfit with
      | unknown => rfl
      | underflow arity known => rw [found] at known; cases known
  | some arity =>
    by_cases short : depth < arity
    · simp only [short, if_true, Except.error.injEq, Option.some.injEq]
      constructor
      · rintro rfl
        exact Or.inl (.underflow arity found short)
      · rintro (misfit | ⟨other, rfl, enough, _⟩)
        · cases misfit with
          | unknown unknown => rw [Vocabulary.arity?, unknown] at found; cases found
          | underflow other known => cases Option.some.inj (known.symm.trans found); rfl
        · exact absurd short (Nat.not_lt.mpr enough)
    · simp only [short, if_false, Option.some.injEq]
      constructor
      · intro later
        exact Or.inr ⟨arity, rfl, Nat.not_lt.mp short, later⟩
      · rintro (misfit | ⟨other, rfl, _, later⟩)
        · exact absurd (misfit.not_fits found) short
        · exact later

/-- The check stops at the first misfit, with the number of values left by what is before it. -/
theorem depthAfter_eq_error_iff (program : Program) (position depth : Nat) (reason : Rejection) :
    depthAfter v position depth program = .error reason ↔
      ∃ before token rest count, program = before ++ token :: rest ∧
        depthAfter v position depth before = .ok count ∧
          Misfit v (position + before.length) count token reason := by
  induction program generalizing position depth with
  | nil => simp [depthAfter]
  | cons first program ih =>
    rw [depthAfter_cons_eq_error_iff]
    simp only [ih]
    constructor
    · rintro (misfit | ⟨arity, found, enough, before, token, rest, count, rfl, run, misfit⟩)
      · exact ⟨[], first, program, depth, rfl, rfl, misfit⟩
      · refine ⟨first :: before, token, rest, count, rfl,
          (depthAfter_cons_ok_iff ..).mpr ⟨arity, found, enough, run⟩, ?_⟩
        rwa [List.length_cons, Nat.add_comm before.length, ← Nat.add_assoc]
    · rintro ⟨_ | ⟨head, before⟩, token, rest, count, split, run, misfit⟩
      · cases split
        cases run
        exact Or.inl misfit
      · cases split
        obtain ⟨arity, found, enough, run⟩ := (depthAfter_cons_ok_iff ..).mp run
        rw [List.length_cons, Nat.add_comm before.length, ← Nat.add_assoc] at misfit
        exact Or.inr ⟨arity, found, enough, before, token, rest, count, rfl, run, misfit⟩

/-! ## Verdicts -/

/-- What a rejection says of a program.  The length is looked at first, then whether there is a
token at all, then the tokens from the front, and last the number of values. -/
inductive Faulty (v : Vocabulary) (limit : Nat) (program : Program) : Rejection → Prop where
  | tooLong : limit < program.length → Faulty v limit program (.tooLong program.length limit)
  | empty : program = [] → Faulty v limit program .empty
  | misfit (before : Program) (token : Token) (rest : Program) (count : Nat) (reason : Rejection) :
      program.length ≤ limit → program = before ++ token :: rest → Leaves v before count →
        Misfit v before.length count token reason → Faulty v limit program reason
  | unclosed (count : Nat) : program.length ≤ limit → Leaves v program count → 2 ≤ count →
      Faulty v limit program (.unclosed count)

theorem validate_eq_error_iff_stackDepth (limit : Nat) (program : Program) (reason : Rejection)
    (short : program.length ≤ limit) :
    program.validate v limit = .error reason ↔ stackDepth v program = .error reason := by
  rw [validate, if_neg (Nat.not_lt.mpr short)]
  cases depth : stackDepth v program with
  | error other => simp
  | ok out =>
    obtain ⟨tree, listing⟩ :=
      (depthAfter_eq_one_iff program).mp ((stackDepth_eq_ok_iff program out).mp depth).2
    have rendered := (canonical?_eq_some_iff program tree.render).mpr ⟨tree, listing, rfl⟩
    simp [rendered]

theorem stackDepth_eq_error_iff (program : Program) (reason : Rejection) (some : program ≠ []) :
    stackDepth v program = .error reason ↔
      depthAfter v 0 0 program = .error reason ∨
        ∃ count, depthAfter v 0 0 program = .ok count ∧ count ≠ 1 ∧ reason = .unclosed count := by
  rw [stackDepth, if_neg (by rwa [List.isEmpty_iff])]
  cases depthAfter v 0 0 program with
  | error other => simp
  | ok count =>
    by_cases one : count = 1
    · simp [one]
    · simp [one, eq_comm]

theorem stackDepth_eq_error_iff_faulty (limit : Nat) (program : Program) (reason : Rejection)
    (short : program.length ≤ limit) :
    stackDepth v program = .error reason ↔ Faulty v limit program reason := by
  by_cases none : program = []
  · subst none
    constructor
    · intro rejected
      cases rejected
      exact .empty rfl
    · intro faulty
      cases faulty with
      | tooLong long => exact absurd long (Nat.not_lt.mpr short)
      | empty => rfl
      | misfit before token rest _ _ _ split => cases before <;> cases split
      | unclosed count _ behaves several =>
        cases (leaves_iff_depthAfter [] count).mp behaves
        omega
  rw [stackDepth_eq_error_iff program reason none, depthAfter_eq_error_iff]
  simp only [← leaves_iff_depthAfter, Nat.zero_add]
  constructor
  · rintro (⟨before, token, rest, count, split, behaves, misfit⟩ | ⟨count, behaves, other, rfl⟩)
    · exact .misfit before token rest count reason short split behaves misfit
    · refine .unclosed count short behaves ?_
      have nonzero : count ≠ 0 := by
        rintro rfl
        obtain ⟨token, rest, rfl⟩ := List.exists_cons_of_ne_nil none
        exact not_leaves_zero token rest behaves
      omega
  · intro faulty
    cases faulty with
    | tooLong long => exact absurd long (Nat.not_lt.mpr short)
    | empty empty => exact absurd empty none
    | misfit before token rest count _ _ split behaves misfit =>
      exact Or.inl ⟨before, token, rest, count, split, behaves, misfit⟩
    | unclosed count _ behaves several => exact Or.inr ⟨count, behaves, by omega, rfl⟩

theorem validate_eq_error_iff (limit : Nat) (program : Program) (reason : Rejection) :
    program.validate v limit = .error reason ↔ Faulty v limit program reason := by
  by_cases long : limit < program.length
  · rw [validate, if_pos long, Except.error.injEq]
    constructor
    · rintro rfl
      exact .tooLong long
    · intro faulty
      cases faulty with
      | tooLong => rfl
      | empty none =>
        rw [none] at long
        exact absurd long (Nat.not_lt_zero limit)
      | misfit _ _ _ _ _ short | unclosed _ short => exact absurd long (Nat.not_lt.mpr short)
  · have short := Nat.not_lt.mp long
    rw [validate_eq_error_iff_stackDepth limit program reason short,
      stackDepth_eq_error_iff_faulty limit program reason short]

/-- Validation accepts exactly the listings of a tree that are short enough, and the tree is the
only one with the listing; the formula is its rendering.  Every other program is rejected, for the
first reason that it gives. -/
theorem validate_verdict (v : Vocabulary) (limit : Nat) (program : Program) :
    (∀ formula, program.validate v limit = .ok formula ↔
      program.length ≤ limit ∧ ∃ tree : Tree v, tree.postorder = program ∧
        (∀ other : Tree v, other.postorder = program → other = tree) ∧ tree.render = formula) ∧
      ∀ reason, program.validate v limit = .error reason ↔ Faulty v limit program reason := by
  refine ⟨fun formula => ?_, validate_eq_error_iff limit program⟩
  rw [validate_eq_ok_iff]
  refine and_congr_right fun _ => exists_congr fun tree => and_congr_right fun listing => ?_
  refine (and_iff_right fun other listed => ?_).symm
  exact other.postorder_injective tree (listed.trans listing.symm)

example : Program.validate ⟨false⟩ 15 [.ofNat 24, .ofNat 0, .ofNat 99] =
    .error (.underflow 1 2 1) := by decide

end Program

end FactorSearch
