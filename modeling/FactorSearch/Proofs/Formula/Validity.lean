import FactorSearch.Proofs.Formula.Postorder

/-!
# Valid programs

The depth check, the renderer and the reader of listings run the same stack, so each of them
succeeds where the others do.  A program is valid within a length exactly when it is no longer
and is the listing of a tree; its formula is the rendering of that tree.
-/

set_option autoImplicit false

namespace FactorSearch

variable {v : Vocabulary} {β : Type}

namespace Vocabulary

theorem entry?_ofNat (entry : Fin v.entries.length) :
    v.entry? (Token.ofNat entry.val) = some (v.entries.get entry) := by
  rw [Vocabulary.entry?, Token.index_ofNat_entry]
  exact List.getElem?_eq_getElem entry.isLt

theorem entry?_eq_none_iff (token : Token) :
    v.entry? token = none ↔ v.entries.length ≤ token.index :=
  List.getElem?_eq_none_iff

theorem exists_entry_of_entry? (token : Token) (found : Entry)
    (known : v.entry? token = some found) :
    ∃ entry : Fin v.entries.length,
      token = Token.ofNat entry.val ∧ v.entries.get entry = found := by
  obtain ⟨inside, here⟩ := List.getElem?_eq_some_iff.mp known
  exact ⟨⟨token.index, inside⟩, token.ofNat_index.symm, here⟩

theorem arity?_ofNat (entry : Fin v.entries.length) :
    v.arity? (Token.ofNat entry.val) = some (v.entries.get entry).arity := by
  rw [arity?, entry?_ofNat]
  rfl

theorem exists_entry_of_arity? (token : Token) (arity : Nat) (found : v.arity? token = some arity) :
    ∃ entry : Fin v.entries.length,
      token = Token.ofNat entry.val ∧ (v.entries.get entry).arity = arity := by
  obtain ⟨known, here, rfl⟩ := Option.map_eq_some_iff.mp found
  obtain ⟨entry, rfl, rfl⟩ := exists_entry_of_entry? token known here
  exact ⟨entry, rfl, rfl⟩

end Vocabulary

namespace Program

/-- Whether the validator accepts a program of at most `limit` tokens. -/
def Valid (v : Vocabulary) (limit : Nat) (program : Program) : Prop :=
  ∃ formula, program.validate v limit = .ok formula

/-! ## Depths -/

theorem depthAfter_cons_ok_iff (token : Token) (rest : Program) (position depth out : Nat) :
    depthAfter v position depth (token :: rest) = .ok out ↔
      ∃ arity, v.arity? token = some arity ∧ arity ≤ depth ∧
        depthAfter v (position + 1) (depth - arity + 1) rest = .ok out := by
  simp only [depthAfter]
  cases found : v.arity? token with
  | none => simp
  | some arity =>
    by_cases short : depth < arity
    · simp only [short, if_true, reduceCtorEq, Option.some.injEq, false_iff]
      intro given
      obtain ⟨other, rfl, enough, _⟩ := given
      omega
    · simp only [short, if_false, Option.some.injEq]
      constructor
      · intro run
        exact ⟨arity, rfl, by omega, run⟩
      · intro given
        obtain ⟨other, rfl, _, run⟩ := given
        exact run

/-- The position only shows in rejections. -/
theorem depthAfter_ok_position (program : Program) (position other depth out : Nat)
    (run : depthAfter v position depth program = .ok out) :
    depthAfter v other depth program = .ok out := by
  induction program generalizing position other depth with
  | nil => exact run
  | cons token rest ih =>
    obtain ⟨arity, found, enough, tail⟩ := (depthAfter_cons_ok_iff ..).mp run
    exact (depthAfter_cons_ok_iff ..).mpr ⟨arity, found, enough, ih _ _ _ tail⟩

theorem depthAfter_append_ok_iff (program rest : Program) (position depth out : Nat) :
    depthAfter v position depth (program ++ rest) = .ok out ↔
      ∃ middle, depthAfter v position depth program = .ok middle ∧
        depthAfter v (position + program.length) middle rest = .ok out := by
  induction program generalizing position depth with
  | nil => simp [depthAfter]
  | cons token program ih =>
    simp only [List.cons_append, depthAfter_cons_ok_iff, ih, List.length_cons]
    have shift : position + 1 + program.length = position + (program.length + 1) := by omega
    rw [shift]
    constructor
    · intro given
      obtain ⟨arity, found, enough, middle, front, back⟩ := given
      exact ⟨middle, ⟨arity, found, enough, front⟩, back⟩
    · intro given
      obtain ⟨middle, ⟨arity, found, enough, front⟩, back⟩ := given
      exact ⟨arity, found, enough, middle, front, back⟩

theorem depthAfter_ok_le (program : Program) (position depth out : Nat)
    (run : depthAfter v position depth program = .ok out) : out ≤ depth + program.length := by
  induction program generalizing position depth with
  | nil =>
    cases run
    exact Nat.le_refl _
  | cons token rest ih =>
    obtain ⟨arity, _, enough, tail⟩ := (depthAfter_cons_ok_iff ..).mp run
    have bound := ih _ _ tail
    simp only [List.length_cons]
    omega

/-! ## One stack, whatever its values -/

theorem push?_length (f : Meaning v β) (token : Token) (stack next : List β)
    (pushed : push? f token stack = some next) :
    ∃ arity, v.arity? token = some arity ∧ arity ≤ stack.length ∧
      next.length = stack.length - arity + 1 := by
  obtain ⟨entry, enough, rfl, rfl⟩ := push?_eq_some f token stack next pushed
  refine ⟨(v.entries.get entry).arity, Vocabulary.arity?_ofNat entry, enough, ?_⟩
  rw [List.length_cons, List.length_drop]

theorem push?_unknown (f : Meaning v β) (token : Token) (stack : List β)
    (unknown : v.entry? token = none) : push? f token stack = none := by
  have beyond := (Vocabulary.entry?_eq_none_iff token).mp unknown
  rw [push?, dif_neg (Nat.not_lt.mpr beyond)]

theorem exists_push? (f : Meaning v β) (token : Token) (stack : List β) (arity : Nat)
    (found : v.arity? token = some arity) (enough : arity ≤ stack.length) :
    ∃ next, push? f token stack = some next := by
  obtain ⟨entry, rfl, rfl⟩ := Vocabulary.exists_entry_of_arity? token arity found
  exact ⟨_, by rw [push?_entry, dif_pos enough]⟩

/-- The depth check follows the length of the stack, whatever the values are. -/
theorem depthAfter_ok_iff_foldOnto (f : Meaning v β) (program : Program) (position : Nat)
    (stack : List β) (depth : Nat) :
    depthAfter v position stack.length program = .ok depth ↔
      ∃ out, foldOnto f stack program = some out ∧ out.length = depth := by
  induction program generalizing position stack with
  | nil => simp [depthAfter, foldOnto]
  | cons token rest ih =>
    rw [depthAfter_cons_ok_iff]
    simp only [foldOnto]
    constructor
    · intro given
      obtain ⟨arity, found, enough, run⟩ := given
      obtain ⟨next, pushed⟩ := exists_push? f token stack arity found enough
      obtain ⟨other, same, _, grown⟩ := push?_length f token stack next pushed
      cases Option.some.inj (found.symm.trans same)
      rw [← grown, ih] at run
      simpa only [pushed] using run
    · intro given
      obtain ⟨out, run, size⟩ := given
      cases pushed : push? f token stack with
      | none => simp [pushed] at run
      | some next =>
        obtain ⟨arity, found, enough, grown⟩ := push?_length f token stack next pushed
        refine ⟨arity, found, enough, ?_⟩
        rw [← grown, ih]
        exact ⟨out, by simpa only [pushed] using run, size⟩

/-- A run leaves one value exactly on the listing of a tree, and then it is the value of the
tree. -/
theorem foldOnto_eq_singleton_iff (f : Meaning v β) (program : Program) (value : β) :
    foldOnto f [] program = some [value] ↔
      ∃ tree : Tree v, tree.postorder = program ∧ tree.fold f = value := by
  constructor
  · intro run
    have depth : depthAfter v 0 ([] : List β).length program = .ok 1 :=
      (depthAfter_ok_iff_foldOnto f program 0 [] 1).mpr ⟨[value], run, rfl⟩
    obtain ⟨out, reading, single⟩ :=
      (depthAfter_ok_iff_foldOnto Tree.node program 0 [] 1).mp depth
    obtain ⟨tree, rfl⟩ := List.length_eq_one_iff.mp single
    have listing : tree.postorder = program := by
      simpa using flatten_foldOnto_node program [] [tree] reading
    refine ⟨tree, listing, ?_⟩
    rw [← listing, foldOnto_postorder] at run
    exact (List.cons.inj (Option.some.inj run)).1
  · intro given
    obtain ⟨tree, rfl, rfl⟩ := given
    exact foldOnto_postorder f tree []

theorem depthAfter_eq_one_iff (program : Program) :
    depthAfter v 0 0 program = .ok 1 ↔ ∃ tree : Tree v, tree.postorder = program := by
  have readings := depthAfter_ok_iff_foldOnto (Tree.node (v := v)) program 0 [] 1
  rw [List.length_nil] at readings
  rw [readings]
  constructor
  · intro given
    obtain ⟨out, reading, single⟩ := given
    obtain ⟨tree, rfl⟩ := List.length_eq_one_iff.mp single
    obtain ⟨tree, listing, _⟩ := (foldOnto_eq_singleton_iff Tree.node program tree).mp reading
    exact ⟨tree, listing⟩
  · intro given
    obtain ⟨tree, listing⟩ := given
    exact ⟨[tree], (foldOnto_eq_singleton_iff _ _ _).mpr ⟨tree, listing, tree.fold_node⟩, rfl⟩

/-! ## Renderings and verdicts -/

def rendering (v : Vocabulary) : Meaning v String := fun entry operands =>
  renderCall (v.entries.get entry).name (List.ofFn operands)

theorem fold_rendering (tree : Tree v) : tree.fold (rendering v) = tree.render := by
  induction tree with
  | node entry children ih =>
    simp only [Tree.fold, Tree.render, rendering]
    rw [funext ih]

theorem renderOnto_eq_foldOnto (stack : List String) (program : Program) :
    renderOnto v stack program = foldOnto (rendering v) stack program := by
  induction program generalizing stack with
  | nil => rfl
  | cons token rest ih =>
    simp only [renderOnto, foldOnto]
    cases known : v.entry? token with
    | none => rw [push?_unknown _ token stack known]
    | some found =>
      obtain ⟨entry, rfl, rfl⟩ := Vocabulary.exists_entry_of_entry? token found known
      rw [push?_entry]
      by_cases enough : (v.entries.get entry).arity ≤ stack.length
      · simp only [Nat.not_lt.mpr enough, if_false, enough, dif_pos, ih, rendering, ofFn_operands]
      · simp only [Nat.not_le.mp enough, if_true, enough, dif_neg, not_false_iff]

theorem canonical?_eq_some_iff (program : Program) (formula : String) :
    canonical? v program = some formula ↔
      ∃ tree : Tree v, tree.postorder = program ∧ tree.render = formula := by
  have runs := foldOnto_eq_singleton_iff (rendering v) program formula
  simp only [fold_rendering] at runs
  rw [← runs, canonical?, renderOnto_eq_foldOnto]
  cases foldOnto (rendering v) [] program with
  | none => simp
  | some out => rcases out with _ | ⟨text, _ | ⟨other, rest⟩⟩ <;> simp

theorem stackDepth_eq_ok_iff (program : Program) (depth : Nat) :
    stackDepth v program = .ok depth ↔ depth = 1 ∧ depthAfter v 0 0 program = .ok 1 := by
  cases program with
  | nil => simp [stackDepth, depthAfter]
  | cons token rest =>
    simp only [stackDepth, List.isEmpty_cons, Bool.false_eq_true, if_false]
    cases run : depthAfter v 0 0 (token :: rest) with
    | error reason => simp
    | ok out =>
      by_cases one : out = 1
      · subst one
        simp [eq_comm]
      · simp [one]

theorem validate_eq_ok_iff (limit : Nat) (program : Program) (formula : String) :
    program.validate v limit = .ok formula ↔
      program.length ≤ limit ∧
        ∃ tree : Tree v, tree.postorder = program ∧ tree.render = formula := by
  rw [← canonical?_eq_some_iff]
  simp only [validate]
  by_cases long : limit < program.length
  · simp only [long, if_true, reduceCtorEq, false_iff]
    omega
  · simp only [long, if_false, Nat.not_lt.mp long, true_and]
    cases depth : stackDepth v program with
    | error reason =>
      simp only [reduceCtorEq, false_iff]
      intro rendered
      obtain ⟨tree, listing, _⟩ := (canonical?_eq_some_iff program formula).mp rendered
      have one := (stackDepth_eq_ok_iff program 1).mpr
        ⟨rfl, (depthAfter_eq_one_iff program).mpr ⟨tree, listing⟩⟩
      simp [depth] at one
    | ok out => cases canonical? v program <;> simp

theorem valid_iff_tree (limit : Nat) (program : Program) :
    program.Valid v limit ↔
      program.length ≤ limit ∧ ∃ tree : Tree v, tree.postorder = program := by
  simp only [Valid, validate_eq_ok_iff]
  constructor
  · intro given
    obtain ⟨_, short, tree, listing, _⟩ := given
    exact ⟨short, tree, listing⟩
  · intro given
    obtain ⟨short, tree, listing⟩ := given
    exact ⟨tree.render, short, tree, listing, rfl⟩

theorem valid_iff_depth (limit : Nat) (program : Program) :
    program.Valid v limit ↔ program.length ≤ limit ∧ depthAfter v 0 0 program = .ok 1 := by
  rw [valid_iff_tree, depthAfter_eq_one_iff]

end Program

end FactorSearch
