import FactorSearch.Proofs.Evaluation.Agreement
import FactorSearch.Proofs.Evaluation.Causality
import FactorSearch.Proofs.Kernel.MissingCells

/-!
# Missing cells in factors

A program has a factor on every feature set that holds the panels it reads, and the machine and the
tree agree there whatever else the set lacks.  Where one of these panels is missing so is the value
of every tree over it, up to the first gate.  A gate keeps a missing condition, and of its branches
the one that it selects.
-/

set_option autoImplicit false

namespace FactorSearch

variable {v : Vocabulary} {α : Type} {periods instruments : Nat}

/-! ## Present values -/

namespace Result

variable {β : Type}

theorem map_ok_injective : Function.Injective (List.map (Except.ok : β → Result β)) :=
  List.map_injective_iff.mpr fun _ _ => Except.ok.inj

theorem cons_eq_map_ok_iff (first : Result β) (stack next : List β) :
    first :: stack.map .ok = next.map .ok ↔ ∃ value, first = .ok value ∧ next = value :: stack := by
  constructor
  · intro same
    obtain ⟨value, rest, rfl, rfl, under⟩ := List.map_eq_cons_iff.mp same.symm
    exact ⟨value, rfl, by rw [map_ok_injective under]⟩
  · rintro ⟨value, rfl, rfl⟩
    rfl

theorem eq_map_ok_of_mapM (results : List (Result β)) (values : List β)
    (all : results.mapM id = .ok values) : results = values.map .ok := by
  induction results generalizing values with
  | nil =>
    cases all
    rfl
  | cons first rest ih =>
    rw [List.mapM_cons, bind_eq_ok_iff] at all
    obtain ⟨value, present, tail⟩ := all
    obtain ⟨others, under, made⟩ := (bind_eq_ok_iff ..).mp tail
    cases made
    rw [List.map_cons, ← ih others under, ← present, id]

end Result

namespace StackMachine

variable [Scalar α] {features : FeatureSet α periods instruments}

theorem valuation_eq_ok_iff (entry : Fin v.entries.length)
    (operands : Fin (v.entries.get entry).arity → Result (Panel α periods instruments))
    (computed : (v.entries.get entry).feature? = none) (value : Panel α periods instruments) :
    valuation v features entry operands = .ok value ↔
      ∃ panels, List.ofFn operands = panels.map .ok ∧
        (v.entries.get entry).operator.apply panels = .ok value := by
  constructor
  · intro valued
    simp only [valuation, computed] at valued
    cases all : (List.ofFn operands).mapM id with
    | error failure => simp [all, bind, Except.bind] at valued
    | ok panels =>
      rw [all] at valued
      exact ⟨panels, Result.eq_map_ok_of_mapM _ _ all, valued⟩
  · rintro ⟨panels, present, applied⟩
    rw [valuation_operator entry operands panels computed present, applied]

/-! ## Runs on any feature set -/

theorem step_eq_ok_iff (position : Nat) (stack next : List (Panel α periods instruments))
    (token : Token) :
    step v features position stack token = .ok next ↔
      Program.push? (valuation v features) token (stack.map .ok) = some (next.map .ok) := by
  cases known : v.entry? token with
  | none =>
    rw [Program.push?_unknown _ token _ known]
    simp [step, known]
  | some found =>
    obtain ⟨entry, rfl, rfl⟩ := Vocabulary.exists_entry_of_entry? token found known
    have size : (stack.map (Except.ok (ε := Failure))).length = stack.length := List.length_map ..
    rw [Program.push?_entry, ← List.map_drop]
    simp only [step, known]
    cases leaf : (v.entries.get entry).feature? with
    | some name =>
      have nullary := (v.entries.get entry).arity_of_feature? name leaf
      dsimp only
      rw [dif_pos (by omega), valuation_leaf entry _ name leaf, nullary, List.drop_zero,
        Option.some.injEq, Result.cons_eq_map_ok_iff]
      cases features.panel name <;> simp [bind, Except.bind, pure, Except.pure, eq_comm]
    | none =>
      by_cases enough : (v.entries.get entry).arity ≤ stack.length
      · have operands := Program.ofFn_operands (stack.map (Except.ok (ε := Failure))) _
          (size ▸ enough)
        rw [← List.map_take, ← List.map_reverse] at operands
        rw [dif_pos (size ▸ enough), valuation_operator entry _ _ leaf operands,
          if_neg (Nat.not_lt.mpr enough), Option.some.injEq, Result.cons_eq_map_ok_iff]
        cases (v.entries.get entry).operator.apply
            (stack.take (v.entries.get entry).arity).reverse <;>
          simp [bind, Except.bind, pure, Except.pure, eq_comm]
      · rw [dif_neg (size ▸ enough), if_pos (Nat.not_le.mp enough)]
        simp

theorem present_of_push? (token : Token) (values : List (Result (Panel α periods instruments)))
    (next : List (Panel α periods instruments))
    (pushed : Program.push? (valuation v features) token values = some (next.map .ok)) :
    ∃ stack : List (Panel α periods instruments), values = stack.map .ok := by
  obtain ⟨entry, enough, rfl, same⟩ := Program.push?_eq_some (valuation v features) _ _ _ pushed
  obtain ⟨value, rest, rfl, valued, under⟩ := List.map_eq_cons_iff.mp same
  cases leaf : (v.entries.get entry).feature? with
  | some name =>
    rw [(v.entries.get entry).arity_of_feature? name leaf, List.drop_zero] at under
    exact ⟨rest, under.symm⟩
  | none =>
    have whole : valuation v features entry (Program.operands values _ enough) = .ok value :=
      valued.symm
    obtain ⟨panels, present, _⟩ := (valuation_eq_ok_iff entry _ leaf value).mp whole
    rw [Program.ofFn_operands, List.reverse_eq_iff] at present
    refine ⟨panels.reverse ++ rest, ?_⟩
    rw [List.map_append, under, List.map_reverse, ← present, List.take_append_drop]

theorem present_of_foldOnto (program : Program)
    (values : List (Result (Panel α periods instruments)))
    (out : List (Panel α periods instruments))
    (folded : Program.foldOnto (valuation v features) values program = some (out.map .ok)) :
    ∃ stack : List (Panel α periods instruments), values = stack.map .ok := by
  induction program generalizing values with
  | nil => exact ⟨out, Option.some.inj folded⟩
  | cons token rest ih =>
    simp only [Program.foldOnto] at folded
    cases pushed : Program.push? (valuation v features) token values with
    | none => simp [pushed] at folded
    | some next =>
      rw [pushed] at folded
      obtain ⟨stack, rfl⟩ := ih next folded
      exact present_of_push? token values stack pushed

theorem runFrom_eq_ok_iff (program : Program) (position : Nat)
    (stack out : List (Panel α periods instruments)) :
    runFrom v features position stack program = .ok out ↔
      Program.foldOnto (valuation v features) (stack.map .ok) program = some (out.map .ok) := by
  induction program generalizing position stack with
  | nil =>
    simp only [runFrom, Program.foldOnto, Except.ok.injEq, Option.some.injEq,
      Result.map_ok_injective.eq_iff]
  | cons token rest ih =>
    simp only [runFrom, Program.foldOnto]
    constructor
    · intro ran
      cases stepped : step v features position stack token with
      | error failure => simp [stepped] at ran
      | ok next =>
        rw [stepped] at ran
        rw [(step_eq_ok_iff position stack next token).mp stepped]
        exact (ih (position + 1) next).mp ran
    · intro folded
      cases pushed : Program.push? (valuation v features) token (stack.map .ok) with
      | none => simp [pushed] at folded
      | some values =>
        rw [pushed] at folded
        obtain ⟨next, rfl⟩ := present_of_foldOnto rest values out folded
        rw [(step_eq_ok_iff position stack next token).mpr pushed]
        exact (ih (position + 1) next).mpr folded

theorem run_eq_ok_iff_runFrom (program : Program) (factor : Panel α periods instruments) :
    run v features program = .ok factor ↔ runFrom v features 0 [] program = .ok [factor] := by
  simp only [run]
  cases runFrom v features 0 [] program with
  | error failure => simp
  | ok out => rcases out with _ | ⟨first, _ | ⟨second, rest⟩⟩ <;> simp

/-- The machine gives the value of the tree that is listed, if that tree has one. -/
theorem run_eq_ok_iff (program : Program) (factor : Panel α periods instruments) :
    run v features program = .ok factor ↔
      ∃ tree : Tree v, tree.postorder = program ∧ tree.evaluate features = .ok factor := by
  rw [run_eq_ok_iff_runFrom, runFrom_eq_ok_iff]
  refine (Program.foldOnto_eq_singleton_iff _ program _).trans ?_
  simp only [fold_valuation]

theorem run_postorder_eq_ok_iff (tree : Tree v) (factor : Panel α periods instruments) :
    run v features tree.postorder = .ok factor ↔ tree.evaluate features = .ok factor := by
  rw [run_eq_ok_iff]
  constructor
  · rintro ⟨other, same, value⟩
    rwa [← Tree.postorder_injective _ _ same]
  · intro value
    exact ⟨tree, rfl, value⟩

theorem runFrom_append (program rest : Program) (position : Nat)
    (stack out : List (Panel α periods instruments)) :
    runFrom v features position stack (program ++ rest) = .ok out ↔
      ∃ middle, runFrom v features position stack program = .ok middle ∧
        runFrom v features (position + program.length) middle rest = .ok out := by
  induction program generalizing position stack with
  | nil => simp [runFrom]
  | cons token program ih =>
    simp only [List.cons_append, runFrom, List.length_cons]
    cases step v features position stack token with
    | error failure => simp
    | ok next =>
      dsimp only
      rw [ih, show position + 1 + program.length = position + (program.length + 1) by omega]

theorem runFrom_singleton (token : Token) (position : Nat)
    (stack : List (Panel α periods instruments)) :
    runFrom v features position stack [token] = step v features position stack token := by
  simp only [runFrom]
  cases step v features position stack token <;> rfl

end StackMachine

/-! ## What a program reads -/

def Vocabulary.operator? (v : Vocabulary) (token : Token) : Option Operator :=
  (v.entry? token).map Entry.operator

theorem Vocabulary.operator?_ofNat (entry : Fin v.entries.length) :
    v.operator? (Token.ofNat entry.val) = some (v.entries.get entry).operator := by
  rw [operator?, entry?_ofNat, Option.map_some]

namespace Program

def Reads (v : Vocabulary) (program : Program) (name : String) : Prop :=
  ∃ token ∈ program, v.operator? token = some (.feature name)

def Ungated (v : Vocabulary) (program : Program) : Prop :=
  ∀ token ∈ program, v.operator? token ≠ some .gate

instance (v : Vocabulary) (program : Program) (name : String) : Decidable (program.Reads v name) :=
  inferInstanceAs (Decidable (∃ token ∈ program, v.operator? token = some (.feature name)))

instance (v : Vocabulary) (program : Program) : Decidable (program.Ungated v) :=
  inferInstanceAs (Decidable (∀ token ∈ program, v.operator? token ≠ some .gate))

end Program

namespace Tree

section Node

variable (entry : Fin v.entries.length) (children : Fin (v.entries.get entry).arity → Tree v)

theorem reads_node_iff (name : String) :
    (node entry children).postorder.Reads v name ↔
      (v.entries.get entry).operator = .feature name ∨
        ∃ i, (children i).postorder.Reads v name := by
  constructor
  · rintro ⟨token, member, leaf⟩
    rw [postorder, List.mem_append, List.mem_flatten, List.mem_singleton] at member
    rcases member with ⟨listing, listed, inside⟩ | rfl
    · obtain ⟨i, rfl⟩ := (List.mem_ofFn' _ _).mp listed
      exact Or.inr ⟨i, token, inside, leaf⟩
    · rw [Vocabulary.operator?_ofNat, Option.some.injEq] at leaf
      exact Or.inl leaf
  · rintro (leaf | ⟨i, token, member, read⟩)
    · refine ⟨_, root_mem_postorder entry children, ?_⟩
      rw [Vocabulary.operator?_ofNat, leaf]
    · exact ⟨token, child_postorder_subset entry children i token member, read⟩

theorem ungated_root (ungated : (node entry children).postorder.Ungated v) :
    (v.entries.get entry).operator ≠ .gate := by
  have root := ungated _ (root_mem_postorder entry children)
  rwa [Vocabulary.operator?_ofNat, Ne, Option.some.injEq] at root

theorem ungated_child (ungated : (node entry children).postorder.Ungated v)
    (i : Fin (v.entries.get entry).arity) : (children i).postorder.Ungated v :=
  fun token member => ungated token (child_postorder_subset entry children i token member)

/-- An operator has a value where all its children have one. -/
theorem evaluate_operator_eq_ok_iff [Scalar α] {features : FeatureSet α periods instruments}
    (computed : (v.entries.get entry).feature? = none) (value : Panel α periods instruments) :
    (node entry children).evaluate features = .ok value ↔
      ∃ panels : Fin (v.entries.get entry).arity → Panel α periods instruments,
        (∀ i, (children i).evaluate features = .ok (panels i)) ∧
          (v.entries.get entry).operator.apply (List.ofFn panels) = .ok value := by
  constructor
  · intro evaluated
    have valued := evaluated
    rw [← StackMachine.fold_valuation] at valued
    obtain ⟨operands, present, _⟩ :=
      (StackMachine.valuation_eq_ok_iff entry _ computed value).mp valued
    have each : ∀ i, ∃ panel, (children i).evaluate features = .ok panel := by
      intro i
      have member := (List.mem_ofFn'
        (fun i => (children i).fold (StackMachine.valuation v features)) _).mpr ⟨i, rfl⟩
      rw [present] at member
      obtain ⟨panel, _, same⟩ := List.mem_map.mp member
      exact ⟨panel, (StackMachine.fold_valuation (children i)).symm.trans same.symm⟩
    choose panels values using each
    rw [evaluate_operator entry children computed panels values] at evaluated
    exact ⟨panels, values, evaluated⟩
  · rintro ⟨panels, values, applied⟩
    rw [evaluate_operator entry children computed panels values, applied]

end Node

theorem exists_evaluate_iff [Scalar α] {features : FeatureSet α periods instruments}
    (tree : Tree v) :
    (∃ value, tree.evaluate features = .ok value) ↔
      ∀ name, tree.postorder.Reads v name → ∃ panel, features.panel name = .ok panel := by
  induction tree with
  | node entry children ih =>
    simp only [reads_node_iff]
    cases leaf : (v.entries.get entry).feature? with
    | some name =>
      have childless := (v.entries.get entry).arity_of_feature? name leaf
      have named := ((v.entries.get entry).feature?_eq_some_iff name).mp leaf
      rw [evaluate_leaf entry children name leaf]
      constructor
      · rintro present other (same | ⟨i, _⟩)
        · rw [named] at same
          cases same
          exact present
        · exact absurd i.isLt (by omega)
      · intro present
        exact present name (Or.inl named)
    | none =>
      simp only [evaluate_operator_eq_ok_iff entry children leaf]
      constructor
      · rintro ⟨value, panels, values, _⟩ name (same | ⟨i, read⟩)
        · exact absurd same ((v.entries.get entry).feature?_eq_none leaf name)
        · exact (ih i).mp ⟨panels i, values i⟩ name read
      · intro present
        choose panels values using fun i =>
          (ih i).mpr fun name read => present name (Or.inr ⟨i, read⟩)
        obtain ⟨value, applied⟩ := (v.entries.get entry).operator.apply_of_arity (List.ofFn panels)
          ((v.entries.get entry).feature?_eq_none leaf) List.length_ofFn
        exact ⟨value, panels, values, applied⟩

/-! ## Missing cells -/

/-- Without a gate a tree is missing where a panel that it reads is.  The cell goes up one operator
at a time, along the path from the leaf to the root. -/
theorem missing_evaluate {features : FeatureSet Float periods instruments} (tree : Tree v)
    (ungated : tree.postorder.Ungated v) (value : Panel Float periods instruments)
    (evaluated : tree.evaluate features = .ok value) (name : String)
    (read : tree.postorder.Reads v name) (panel : Panel Float periods instruments)
    (found : features.panel name = .ok panel) (t : Fin periods) (i : Fin instruments)
    (missing : Double.Missing (panel.cell t i)) : Double.Missing (value.cell t i) := by
  induction tree generalizing value with
  | node entry children ih =>
    cases leaf : (v.entries.get entry).feature? with
    | some own =>
      rw [evaluate_leaf entry children own leaf] at evaluated
      rcases (reads_node_iff ..).mp read with same | ⟨j, _⟩
      · rw [((v.entries.get entry).feature?_eq_some_iff own).mp leaf] at same
        cases same
        cases found.symm.trans evaluated
        exact missing
      · have childless := (v.entries.get entry).arity_of_feature? own leaf
        exact absurd j.isLt (by omega)
    | none =>
      obtain ⟨panels, values, applied⟩ :=
        (evaluate_operator_eq_ok_iff entry children leaf value).mp evaluated
      rcases (reads_node_iff ..).mp read with same | ⟨j, under⟩
      · exact absurd same ((v.entries.get entry).feature?_eq_none leaf name)
      · have child := ih j (ungated_child entry children ungated j) (panels j) (values j) under
        exact (v.entries.get entry).operator.missing_apply (ungated_root entry children ungated)
          (List.ofFn panels) List.length_ofFn value applied (panels j)
          ((List.mem_ofFn' _ _).mpr ⟨j, rfl⟩) child

end Tree

namespace StackMachine

theorem step_gate [Scalar α] {features : FeatureSet α periods instruments} (token : Token)
    (gate : v.operator? token = some .gate) (position : Nat)
    (stack next : List (Panel α periods instruments))
    (stepped : step v features position stack token = .ok next) :
    ∃ condition first second rest, stack = second :: first :: condition :: rest ∧
      next = Kernel.gate condition first second :: rest := by
  obtain ⟨entry, known, gated⟩ := Option.map_eq_some_iff.mp gate
  have arity : entry.arity = 3 := by rw [Entry.arity, gated]; rfl
  have computed : entry.feature? = none := by rw [Entry.feature?, gated]
  simp only [step, known, computed, arity, gated] at stepped
  rcases stack with _ | ⟨second, _ | ⟨first, _ | ⟨condition, rest⟩⟩⟩
  · cases stepped
  · cases stepped
  · cases stepped
  · cases stepped
    exact ⟨condition, first, second, rest, rfl, rfl⟩

/-- No missing cell is lost.  A valid program has a factor on the feature sets that hold what it
reads.  Without a gate the factor is missing wherever a panel that the program reads is.  The value
that a gate leaves is missing where its condition or the selected branch is, and is the cell of the
selected branch elsewhere. -/
theorem run_keeps_missing (v : Vocabulary) (limit : Nat) (program : Program)
    (valid : program.Valid v limit) (features : FeatureSet Float periods instruments) :
    ((∃ factor, run v features program = .ok factor) ↔
      ∀ name, program.Reads v name → ∃ panel, features.panel name = .ok panel) ∧
    ∀ factor, run v features program = .ok factor →
      (program.Ungated v →
        ∀ name panel, program.Reads v name → features.panel name = .ok panel →
          ∀ t i, Scalar.isNaN (panel.cell t i) = true → Scalar.isNaN (factor.cell t i) = true) ∧
      (∀ before token after, program = before ++ token :: after → v.operator? token = some .gate →
        ∃ condition first second value rest,
          runFrom v features 0 [] before = .ok (second :: first :: condition :: rest) ∧
          runFrom v features 0 [] (before ++ [token]) = .ok (value :: rest) ∧
          ∀ t i,
            let selected :=
              if Scalar.lt 0 (condition.cell t i) then first.cell t i else second.cell t i
            (Scalar.isNaN (condition.cell t i) = true ∨ Scalar.isNaN selected = true →
              Scalar.isNaN (value.cell t i) = true) ∧
            (Scalar.isNaN (condition.cell t i) = false → value.cell t i = selected)) := by
  obtain ⟨_, tree, rfl⟩ := (Program.valid_iff_tree ..).mp valid
  refine ⟨?total, fun factor ran => ⟨?plain, ?gates⟩⟩
  case total =>
    simp only [run_postorder_eq_ok_iff]
    exact tree.exists_evaluate_iff
  case plain =>
    intro ungated name panel read found t i missing
    rw [Double.isNaN_iff] at missing ⊢
    exact tree.missing_evaluate ungated factor ((run_postorder_eq_ok_iff ..).mp ran) name read panel
      found t i missing
  case gates =>
    intro before token after split gate
    rw [split, List.append_cons, run_eq_ok_iff_runFrom, runFrom_append] at ran
    obtain ⟨next, past, _⟩ := ran
    obtain ⟨stack, earlier, stepped⟩ := (runFrom_append ..).mp past
    rw [runFrom_singleton] at stepped
    obtain ⟨condition, first, second, rest, rfl, rfl⟩ :=
      step_gate token gate _ stack next stepped
    exact ⟨condition, first, second, _, rest, earlier, past,
      Kernel.gate_keeps_missing condition first second⟩

def gappedFeatures : FeatureSet Float 2 1 :=
  ⟨[("RET", .ofFn fun t _ => if t.val = 0 then Scalar.nan else 1), ("TURNOVER", .fill 2),
    ("VOL", .fill 3)], none⟩

theorem gappedFeatures_missing :
    (Program.Valid ⟨false⟩ 4 [.ofNat 24, .ofNat 25, .ofNat 8] ∧
      ∃ factor, run ⟨false⟩ gappedFeatures [.ofNat 24, .ofNat 25, .ofNat 8] = .ok factor ∧
        Scalar.isNaN (factor.cell 0 0) = true) ∧
    Program.Valid ⟨false⟩ 4 [.ofNat 24, .ofNat 25, .ofNat 27, .ofNat 7] ∧
      ∃ value, runFrom ⟨false⟩ gappedFeatures 0 [] [.ofNat 24, .ofNat 25, .ofNat 27, .ofNat 7] =
          .ok [value] ∧
        Scalar.isNaN (value.cell 0 0) = true ∧ value.cell 1 0 = 3 := by
  have plain : Program.Valid ⟨false⟩ 4 [.ofNat 24, .ofNat 25, .ofNat 8] := ⟨"MAX(RET, VOL)", rfl⟩
  have gated : Program.Valid ⟨false⟩ 4 [.ofNat 24, .ofNat 25, .ofNat 27, .ofNat 7] :=
    ⟨"GATE(RET, VOL, TURNOVER)", rfl⟩
  refine ⟨⟨plain, _, rfl, ?_⟩, gated, ?_⟩
  · exact ((run_keeps_missing _ _ _ plain gappedFeatures).2 _ rfl).1 (by decide) "RET" _ (by decide)
      rfl 0 0 rfl
  · obtain ⟨condition, first, second, value, rest, before, after, cells⟩ :=
      ((run_keeps_missing _ _ _ gated gappedFeatures).2 _ rfl).2 [.ofNat 24, .ofNat 25, .ofNat 27]
        (.ofNat 7) [] rfl rfl
    cases before
    exact ⟨value, after, (cells 0 0).1 (Or.inl rfl), (cells 1 0).2 rfl⟩

end StackMachine

end FactorSearch
