import FactorSearch.Evaluation.StackMachine
import FactorSearch.Proofs.Formula.Validity
import Mathlib.Data.List.Basic

/-!
# The machine computes the tree

On a feature set that holds every feature of the vocabulary, the stack machine gives a value exactly
on the listings of expression trees, and the value is that of the recursion on the tree.  On any
other list of tokens it stops at an unknown token, at an operator without operands, or with a
stack that is not one value.
-/

set_option autoImplicit false

namespace FactorSearch

variable {v : Vocabulary} {α : Type} {periods instruments : Nat}

/-! ## Operands and features -/

namespace Panel

theorem length_toRows (x : Panel α periods instruments) : x.toRows.length = periods := by
  rw [toRows, List.length_map, Vector.length_toList]

theorem length_of_mem_toRows (x : Panel α periods instruments) (row : List α)
    (member : row ∈ x.toRows) : row.length = instruments := by
  obtain ⟨cells, _, rfl⟩ := List.mem_map.mp member
  exact Vector.length_toList

end Panel

theorem Operator.apply_of_arity [Scalar α] (operator : Operator)
    (operands : List (Panel α periods instruments))
    (computed : ∀ name, operator ≠ .feature name) (count : operands.length = operator.arity) :
    ∃ value, operator.apply operands = .ok value := by
  cases operator with
  | feature name => exact absurd rfl (computed name)
  | gate =>
    obtain ⟨c, x, y, rfl⟩ := List.length_eq_three.mp count
    exact ⟨_, rfl⟩
  | add | sub | mul | div | max | min =>
    obtain ⟨x, y, rfl⟩ := List.length_eq_two.mp count
    exact ⟨_, rfl⟩
  | neg | abs | sign | rank | zScore | delay | delta | mean | deviation | decay | highest =>
    obtain ⟨x, rfl⟩ := List.length_eq_one_iff.mp count
    exact ⟨_, rfl⟩

namespace Entry

theorem feature?_eq_some_iff (entry : Entry) (name : String) :
    entry.feature? = some name ↔ entry.operator = .feature name := by
  cases operator : entry.operator <;> simp [feature?, operator]

theorem feature?_eq_none (entry : Entry) (computed : entry.feature? = none) (name : String) :
    entry.operator ≠ .feature name := by
  intro leaf
  rw [(feature?_eq_some_iff entry name).mpr leaf] at computed
  contradiction

theorem arity_of_feature? (entry : Entry) (name : String) (leaf : entry.feature? = some name) :
    entry.arity = 0 := by
  rw [arity, (feature?_eq_some_iff entry name).mp leaf]
  rfl

end Entry

namespace FeatureSet

/-- The set holds every feature that the vocabulary names. -/
def Holds (v : Vocabulary) (features : FeatureSet α periods instruments) : Prop :=
  ∀ name ∈ v.featureNames, features.contains name = true

theorem exists_panel_of_contains (features : FeatureSet α periods instruments) (name : String)
    (held : features.contains name = true) : ∃ panel, features.panel name = .ok panel := by
  cases found : features.panels.lookup (upperName name) with
  | some panel => exact ⟨panel, by rw [FeatureSet.panel, found]⟩
  | none =>
    simp only [contains, names, List.contains_iff_mem, List.mem_map] at held
    obtain ⟨pair, member, same⟩ := held
    have other := List.lookup_eq_none_iff.mp found pair member
    simp [same] at other

theorem Holds.exists_panel {features : FeatureSet α periods instruments} (held : features.Holds v)
    (entry : Fin v.entries.length) (name : String)
    (leaf : (v.entries.get entry).feature? = some name) :
    ∃ panel, features.panel name = .ok panel := by
  apply features.exists_panel_of_contains
  apply held
  exact List.mem_filterMap.mpr ⟨v.entries.get entry, List.get_mem .., leaf⟩

end FeatureSet

/-! ## Values of trees -/

variable [Scalar α]

namespace Tree

/-- The panel of a tree: a leaf's feature, and an operator's value on the panels of its children in
their order. -/
def evaluate (features : FeatureSet α periods instruments) :
    Tree v → Result (Panel α periods instruments)
  | node entry children =>
    match (v.entries.get entry).feature? with
    | some name => features.panel name
    | none => do
      let operands ← (List.ofFn fun i => (children i).evaluate features).mapM id
      (v.entries.get entry).operator.apply operands

end Tree

namespace StackMachine

variable {features : FeatureSet α periods instruments}

def valuation (v : Vocabulary) (features : FeatureSet α periods instruments) :
    Meaning v (Result (Panel α periods instruments)) := fun entry operands =>
  match (v.entries.get entry).feature? with
  | some name => features.panel name
  | none => do
    let operands ← (List.ofFn operands).mapM id
    (v.entries.get entry).operator.apply operands

theorem fold_valuation (tree : Tree v) :
    tree.fold (valuation v features) = tree.evaluate features := by
  induction tree with
  | node entry children ih =>
    rw [Tree.fold, Tree.evaluate, valuation, funext ih]

theorem valuation_leaf (entry : Fin v.entries.length)
    (operands : Fin (v.entries.get entry).arity → Result (Panel α periods instruments))
    (name : String) (leaf : (v.entries.get entry).feature? = some name) :
    valuation v features entry operands = features.panel name := by
  simp only [valuation, leaf]

theorem valuation_operator (entry : Fin v.entries.length)
    (operands : Fin (v.entries.get entry).arity → Result (Panel α periods instruments))
    (panels : List (Panel α periods instruments))
    (computed : (v.entries.get entry).feature? = none)
    (values : List.ofFn operands = panels.map .ok) :
    valuation v features entry operands = (v.entries.get entry).operator.apply panels := by
  have all : (panels.map (Except.ok (ε := Failure))).mapM id = .ok panels := by
    rw [List.mapM_map]
    have pure_all := List.mapM_pure (m := Except Failure) (l := panels) (f := id)
    rwa [List.map_id] at pure_all
  simp only [valuation, computed, values, all]
  rfl

/-! ## Runs -/

/-- The faults of a list of tokens that is not the listing of a tree. -/
inductive Malformed : InternalFault → Prop where
  | unknownToken (id position : Nat) : Malformed (.unknownToken id position)
  | stackUnderflow (position : Nat) (name : String) : Malformed (.stackUnderflow position name)
  | stackResidue (count : Nat) : Malformed (.stackResidue count)

/-- A stack of panels is the stack of values that are all present, and a malformed list of tokens
has no stack of values. -/
inductive Tracks :
    Option (List (Result (Panel α periods instruments))) →
      Result (List (Panel α periods instruments)) → Prop where
  | stack (panels : List (Panel α periods instruments)) :
    Tracks (some (panels.map .ok)) (.ok panels)
  | fault (reason : InternalFault) (malformed : Malformed reason) :
    Tracks none (.error (.internal reason))

omit [Scalar α] in
theorem Tracks.of_some {values : List (Result (Panel α periods instruments))}
    {outcome : Result (List (Panel α periods instruments))}
    (tracks : Tracks (some values) outcome) :
    ∃ panels, values = panels.map .ok ∧ outcome = .ok panels := by
  cases tracks with
  | stack panels => exact ⟨panels, rfl, rfl⟩

omit [Scalar α] in
theorem Tracks.of_none {outcome : Result (List (Panel α periods instruments))}
    (tracks : Tracks none outcome) :
    ∃ reason, outcome = .error (.internal reason) ∧ Malformed reason := by
  cases tracks with
  | fault reason malformed => exact ⟨reason, rfl, malformed⟩

theorem step_tracks (held : features.Holds v) (position : Nat)
    (stack : List (Panel α periods instruments)) (token : Token) :
    Tracks (Program.push? (valuation v features) token (stack.map .ok))
      (step v features position stack token) := by
  cases known : v.entry? token with
  | none =>
    rw [Program.push?_unknown _ token _ known]
    simp only [step, known]
    exact .fault _ (.unknownToken ..)
  | some found =>
    obtain ⟨entry, rfl, rfl⟩ := Vocabulary.exists_entry_of_entry? token found known
    have size : (stack.map (Except.ok (ε := Failure))).length = stack.length := List.length_map ..
    rw [Program.push?_entry, ← List.map_drop]
    simp only [step, known]
    cases leaf : (v.entries.get entry).feature? with
    | some name =>
      obtain ⟨panel, here⟩ := held.exists_panel entry name leaf
      have nullary := (v.entries.get entry).arity_of_feature? name leaf
      dsimp only
      rw [dif_pos (by omega), valuation_leaf entry _ name leaf, here, nullary, List.drop_zero]
      exact .stack (panel :: stack)
    | none =>
      by_cases enough : (v.entries.get entry).arity ≤ stack.length
      · have operands := Program.ofFn_operands (stack.map (Except.ok (ε := Failure))) _
          (size ▸ enough)
        rw [← List.map_take, ← List.map_reverse] at operands
        obtain ⟨value, computed⟩ := (v.entries.get entry).operator.apply_of_arity
          (stack.take (v.entries.get entry).arity).reverse
          (Entry.feature?_eq_none _ leaf) (by simpa [Entry.arity] using enough)
        rw [dif_pos (size ▸ enough), valuation_operator entry _ _ leaf operands, computed,
          if_neg (Nat.not_lt.mpr enough)]
        exact .stack (value :: stack.drop (v.entries.get entry).arity)
      · rw [dif_neg (size ▸ enough), if_pos (Nat.not_le.mp enough)]
        exact .fault _ (.stackUnderflow ..)

theorem runFrom_tracks (held : features.Holds v) (program : Program) (position : Nat)
    (stack : List (Panel α periods instruments)) :
    Tracks (Program.foldOnto (valuation v features) (stack.map .ok) program)
      (runFrom v features position stack program) := by
  induction program generalizing position stack with
  | nil => exact .stack stack
  | cons token rest ih =>
    have first := step_tracks held position stack token
    simp only [Program.foldOnto, runFrom]
    generalize Program.push? _ token _ = pushed at first ⊢
    generalize step v features position stack token = stepped at first ⊢
    cases first with
    | stack panels => exact ih (position + 1) panels
    | fault reason malformed => exact .fault reason malformed

theorem run_postorder (held : features.Holds v) (tree : Tree v) :
    ∃ factor, run v features tree.postorder = .ok factor ∧ tree.evaluate features = .ok factor := by
  have tracks := runFrom_tracks held tree.postorder 0 []
  rw [List.map_nil, Program.foldOnto_postorder, fold_valuation] at tracks
  obtain ⟨panels, values, ran⟩ := tracks.of_some
  have single := congrArg List.length values
  rw [List.length_map] at single
  obtain ⟨factor, rfl⟩ := List.length_eq_one_iff.mp single.symm
  refine ⟨factor, ?_, List.singleton_inj.mp values⟩
  simp only [run, ran]

theorem run_malformed (held : features.Holds v) (program : Program)
    (other : ∀ tree : Tree v, tree.postorder ≠ program) :
    ∃ reason, run v features program = .error (.internal reason) ∧ Malformed reason := by
  have tracks := runFrom_tracks held program 0 []
  rw [List.map_nil] at tracks
  cases folded : Program.foldOnto (valuation v features) [] program with
  | none =>
    rw [folded] at tracks
    obtain ⟨reason, ran, malformed⟩ := tracks.of_none
    refine ⟨reason, ?_, malformed⟩
    simp only [run, ran]
  | some values =>
    rw [folded] at tracks
    obtain ⟨panels, rfl, ran⟩ := tracks.of_some
    refine ⟨.stackResidue panels.length, ?_, .stackResidue _⟩
    rcases panels with _ | ⟨first, _ | ⟨second, rest⟩⟩
    · simp only [run, ran]
    · obtain ⟨tree, listing, _⟩ := (Program.foldOnto_eq_singleton_iff ..).mp folded
      exact absurd listing (other tree)
    · simp only [run, ran]

/-- The machine computes the tree: it gives a value exactly on the listing of one tree, that value
is the tree's and has the shape of the features, and everywhere else it reports a malformed list. -/
theorem run_computes_tree (v : Vocabulary) (features : FeatureSet α periods instruments)
    (held : ∀ name ∈ v.featureNames, features.contains name = true) (program : Program) :
    ((∃ factor, run v features program = .ok factor) ↔
      ∃! tree : Tree v, tree.postorder = program) ∧
    (∀ tree : Tree v, tree.postorder = program →
      ∃ factor, run v features program = .ok factor ∧ tree.evaluate features = .ok factor ∧
        factor.toRows.length = periods ∧ ∀ row ∈ factor.toRows, row.length = instruments) ∧
    ((∀ tree : Tree v, tree.postorder ≠ program) →
      ∃ reason, run v features program = .error (.internal reason) ∧ Malformed reason) := by
  refine ⟨⟨?listed, ?run⟩, ?value, run_malformed held program⟩
  case listed =>
    intro given
    obtain ⟨factor, ran⟩ := given
    by_contra listing
    have other : ∀ tree : Tree v, tree.postorder ≠ program := by
      intro tree same
      exact listing ⟨tree, same, fun second again =>
        Tree.postorder_injective second tree (again.trans same.symm)⟩
    obtain ⟨reason, failed, _⟩ := run_malformed held program other
    rw [ran] at failed
    contradiction
  case run =>
    intro given
    obtain ⟨tree, rfl, _⟩ := given
    obtain ⟨factor, ran, _⟩ := run_postorder held tree
    exact ⟨factor, ran⟩
  case value =>
    rintro tree rfl
    obtain ⟨factor, ran, value⟩ := run_postorder held tree
    exact ⟨factor, ran, value, factor.length_toRows, factor.length_of_mem_toRows⟩

def unitFeatures : FeatureSet Float 3 2 :=
  ⟨requiredFeatures.map fun name => (name, .fill 1), none⟩

def delayedReturn : Tree ⟨false⟩ := .node ⟨10, by decide⟩ fun _ => .node ⟨24, by decide⟩ nofun

theorem delayedReturn_computed :
    (∀ name ∈ Vocabulary.featureNames ⟨false⟩, unitFeatures.contains name = true) ∧
      ∃ factor, run ⟨false⟩ unitFeatures [.ofNat 24, .ofNat 10] = .ok factor ∧
        delayedReturn.evaluate unitFeatures = .ok factor ∧
        factor.toRows.length = 3 ∧ ∀ row ∈ factor.toRows, row.length = 2 := by
  have held : ∀ name ∈ Vocabulary.featureNames ⟨false⟩, unitFeatures.contains name = true := by
    decide
  exact ⟨held, (run_computes_tree ⟨false⟩ unitFeatures held _).2.1 delayedReturn (by decide)⟩

end StackMachine

end FactorSearch
