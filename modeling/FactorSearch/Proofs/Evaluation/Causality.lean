import FactorSearch.Backtest
import FactorSearch.Proofs.Evaluation.TreeValue
import FactorSearch.Proofs.Kernel.Locality
import Mathlib

/-!
# Factors do not look ahead

The memory of a tree is the largest sum of look-backs along a path from its root to a leaf.  The
factor of a program in a period depends on the features in that period and in as many before it as
the memory of its tree, and on nothing later; if the program compares no instruments, the factor
of an instrument depends on that instrument alone.
-/

set_option autoImplicit false

namespace FactorSearch

variable {v : Vocabulary}

/-! ## Memory -/

namespace Tree

/-- The operators on a path from the root to a leaf. -/
inductive Path : Tree v → List Operator → Prop where
  | leaf (entry : Fin v.entries.length) (children : Fin (v.entries.get entry).arity → Tree v)
      (nullary : (v.entries.get entry).arity = 0) :
    Path (node entry children) [(v.entries.get entry).operator]
  | child (entry : Fin v.entries.length) (children : Fin (v.entries.get entry).arity → Tree v)
      (i : Fin (v.entries.get entry).arity) (rest : List Operator) (path : Path (children i) rest) :
    Path (node entry children) ((v.entries.get entry).operator :: rest)

/-- How many periods before its own the value of a tree reads. -/
def memory : Tree v → Nat
  | node entry children =>
    (v.entries.get entry).operator.lookBack + Finset.univ.sup fun i => (children i).memory

theorem memory_child_le (entry : Fin v.entries.length)
    (children : Fin (v.entries.get entry).arity → Tree v) (i : Fin (v.entries.get entry).arity) :
    (v.entries.get entry).operator.lookBack + (children i).memory ≤ (node entry children).memory :=
  Nat.add_le_add_left (Finset.le_sup (f := fun i => (children i).memory) (Finset.mem_univ i)) _

theorem Path.sum_le {tree : Tree v} {path : List Operator} (along : tree.Path path) :
    (path.map Operator.lookBack).sum ≤ tree.memory := by
  induction along with
  | leaf entry children nullary =>
    rw [List.map_singleton, List.sum_singleton]
    exact Nat.le_add_right _ _
  | child entry children i rest path ih =>
    rw [List.map_cons, List.sum_cons]
    exact Nat.le_trans (Nat.add_le_add_left ih _) (memory_child_le entry children i)

theorem exists_path_sum (tree : Tree v) :
    ∃ path, tree.Path path ∧ (path.map Operator.lookBack).sum = tree.memory := by
  induction tree with
  | node entry children ih =>
    by_cases nullary : (v.entries.get entry).arity = 0
    · have childless : IsEmpty (Fin (v.entries.get entry).arity) := by
        rw [nullary]
        exact Fin.isEmpty
      refine ⟨_, .leaf entry children nullary, ?_⟩
      rw [memory, Finset.univ_eq_empty, Finset.sup_empty, List.map_singleton, List.sum_singleton]
      rfl
    · have inhabited : (Finset.univ : Finset (Fin (v.entries.get entry).arity)).Nonempty :=
        ⟨⟨0, Nat.pos_of_ne_zero nullary⟩, Finset.mem_univ _⟩
      obtain ⟨i, _, deepest⟩ := Finset.exists_mem_eq_sup _ inhabited fun i => (children i).memory
      obtain ⟨rest, path, sum⟩ := ih i
      refine ⟨_, .child entry children i rest path, ?_⟩
      rw [List.map_cons, List.sum_cons, sum, memory, deepest]

/-- The memory of a tree is the largest sum of look-backs along its paths. -/
theorem memory_isGreatest (tree : Tree v) :
    IsGreatest {total | ∃ path, tree.Path path ∧ (path.map Operator.lookBack).sum = total}
      tree.memory := by
  refine ⟨tree.exists_path_sum, ?_⟩
  intro total given
  obtain ⟨path, along, rfl⟩ := given
  exact along.sum_le

end Tree

/-! ## Agreement -/

variable {α : Type} {periods others instruments : Nat}

/-- Two feature sets have the same cells in matched periods, for the instruments in question and
every feature of the vocabulary. -/
def FeatureSet.Agree (v : Vocabulary) (columns : Fin instruments → Prop)
    (matched : Nat → Nat → Prop) (first : FeatureSet α periods instruments)
    (second : FeatureSet α others instruments) : Prop :=
  ∀ name ∈ v.featureNames, ∀ x y, first.panel name = .ok x → second.panel name = .ok y →
    Panel.Agree columns matched x y

def UpTo (t s r : Nat) : Prop := s = r ∧ s ≤ t

/-- No token of the program compares instruments. -/
def Program.Isolated (v : Vocabulary) (program : Program) : Prop :=
  ∀ token ∈ program, ∀ entry, v.entry? token = some entry → ¬ entry.operator.Crosses

variable [Scalar α] {first : FeatureSet α periods instruments}
  {second : FeatureSet α others instruments} {columns : Fin instruments → Prop}

namespace Tree

theorem evaluate_leaf (entry : Fin v.entries.length)
    (children : Fin (v.entries.get entry).arity → Tree v) (name : String)
    (leaf : (v.entries.get entry).feature? = some name) :
    (node entry children).evaluate first = first.panel name := by
  rw [← StackMachine.fold_valuation]
  exact StackMachine.valuation_leaf entry _ name leaf

theorem evaluate_operator (entry : Fin v.entries.length)
    (children : Fin (v.entries.get entry).arity → Tree v)
    (computed : (v.entries.get entry).feature? = none)
    (panels : Fin (v.entries.get entry).arity → Panel α periods instruments)
    (values : ∀ i, (children i).evaluate first = .ok (panels i)) :
    (node entry children).evaluate first =
      (v.entries.get entry).operator.apply (List.ofFn panels) := by
  rw [← StackMachine.fold_valuation]
  refine StackMachine.valuation_operator entry _ (List.ofFn panels) computed ?_
  rw [List.map_ofFn]
  congr 1
  funext i
  rw [StackMachine.fold_valuation, values i]
  rfl

theorem child_postorder_subset (entry : Fin v.entries.length)
    (children : Fin (v.entries.get entry).arity → Tree v) (i : Fin (v.entries.get entry).arity)
    (token : Token) (member : token ∈ (children i).postorder) :
    token ∈ (node entry children).postorder := by
  rw [postorder]
  apply List.mem_append_left
  exact List.mem_flatten.mpr ⟨_, (List.mem_ofFn' _ _).mpr ⟨i, rfl⟩, member⟩

theorem root_mem_postorder (entry : Fin v.entries.length)
    (children : Fin (v.entries.get entry).arity → Tree v) :
    Token.ofNat entry.val ∈ (node entry children).postorder := by
  rw [postorder]
  exact List.mem_append_right _ (List.mem_singleton_self _)

theorem isolated_child (entry : Fin v.entries.length)
    (children : Fin (v.entries.get entry).arity → Tree v) (i : Fin (v.entries.get entry).arity)
    (isolated : (node entry children).postorder.Isolated v) :
    (children i).postorder.Isolated v := by
  intro token member
  exact isolated token (child_postorder_subset entry children i token member)

theorem isolated_root (entry : Fin v.entries.length)
    (children : Fin (v.entries.get entry).arity → Tree v)
    (isolated : (node entry children).postorder.Isolated v) :
    ¬ (v.entries.get entry).operator.Crosses := by
  exact isolated _ (root_mem_postorder entry children) _ (Vocabulary.entry?_ofNat entry)

/-- The induction goes through for any two periods from which the look back ends alike: a child is
read in periods from which the rest of the look back still does. -/
theorem evaluate_agree (held : first.Holds v) (held' : second.Holds v) (tree : Tree v) {t u : Nat}
    (aligned : Aligned tree.memory t u)
    (isolated : tree.postorder.Isolated v ∨ ∀ i, columns i)
    (agree : FeatureSet.Agree v columns (Before tree.memory t u) first second)
    (x : Panel α periods instruments) (y : Panel α others instruments)
    (value : tree.evaluate first = .ok x) (value' : tree.evaluate second = .ok y) :
    Panel.Agree columns (Before 0 t u) x y := by
  induction tree generalizing t u x y with
  | node entry children ih =>
    cases leaf : (v.entries.get entry).feature? with
    | some name =>
      rw [evaluate_leaf entry children name leaf] at value value'
      have member : name ∈ v.featureNames :=
        List.mem_filterMap.mpr ⟨v.entries.get entry, List.get_mem .., leaf⟩
      apply (agree name member x y value value').mono
      intro s r given
      obtain ⟨back, none, here, here'⟩ := given
      exact ⟨back, Nat.le_trans none (Nat.zero_le _), here, here'⟩
    | none =>
      choose panels _ values using fun i => StackMachine.run_postorder held (children i)
      choose panels' _ values' using fun i => StackMachine.run_postorder held' (children i)
      rw [evaluate_operator entry children leaf panels values] at value
      rw [evaluate_operator entry children leaf panels' values'] at value'
      have below := memory_child_le entry children
      refine (v.entries.get entry).operator.apply_agree (aligned.mono (Nat.le_add_right _ _))
        ?crossing (List.ofFn panels) (List.ofFn panels') List.length_ofFn ?operands x y value value'
      case crossing =>
        intro crosses
        rcases isolated with alone | all
        · exact absurd crosses (isolated_root entry children alone)
        · exact all
      case operands =>
        refine List.forall₂_iff_get.mpr ⟨by rw [List.length_ofFn, List.length_ofFn], ?_⟩
        intro j inside inside'
        rw [List.length_ofFn] at inside
        simp only [List.get_eq_getElem, List.getElem_ofFn]
        intro s r near
        -- the child is read in `s` and `r`, where its own memory is still aligned
        have child := ih ⟨j, inside⟩ (aligned.before (below _) near)
          (isolated.imp_left (isolated_child entry children _))
          (fun name member a b found found' => (agree name member a b found found').mono
            fun s' r' far => near.trans far (below _))
          (panels _) (panels' _) (values _) (values' _)
        exact child s r ((before_zero_iff ..).mpr ⟨rfl, rfl⟩)

/-- Agreement up to a period needs no memory: every period up to it is reached from itself. -/
theorem evaluate_agree_upTo (held : first.Holds v) (held' : second.Holds v) (tree : Tree v)
    (isolated : tree.postorder.Isolated v ∨ ∀ i, columns i) (t : Nat)
    (agree : FeatureSet.Agree v columns (UpTo t) first second)
    (x : Panel α periods instruments) (y : Panel α others instruments)
    (value : tree.evaluate first = .ok x) (value' : tree.evaluate second = .ok y) :
    Panel.Agree columns (UpTo t) x y := by
  intro s r near
  have earlier : FeatureSet.Agree v columns (Before tree.memory s r) first second := by
    intro name member a b found found'
    apply (agree name member a b found found').mono
    intro s' r' given
    obtain ⟨back, _, here, here'⟩ := given
    obtain ⟨same, bound⟩ := near
    exact ⟨by omega, by omega⟩
  have now := evaluate_agree held held' tree (Or.inl near.1) isolated earlier x y value value'
  exact now s r ((before_zero_iff ..).mpr ⟨rfl, rfl⟩)

end Tree

theorem Backtest.positions_agree (settings : RewardSettings α) (all : ∀ i, columns i)
    {matched : Nat → Nat → Prop} (x : Panel α periods instruments) (y : Panel α others instruments)
    (agree : Panel.Agree columns matched x y) :
    Panel.Agree columns matched (positions settings x) (positions settings y) :=
  (agree.mapRows all _ Kernel.zScoreRow).map (positionOf settings.signalThreshold)

/-- No look-ahead and bounded memory.  A valid program has a factor on both feature sets.  If the
features agree up to a period, so do the factors and the positions; if as many periods as the memory
before `t` and before `u` agree, so do the factors in `t` and `u`.  Without a comparison of
instruments both hold for the factor of each instrument on its own. -/
theorem StackMachine.run_causal (v : Vocabulary) (limit : Nat) (program : Program)
    (valid : program.Valid v limit) (first : FeatureSet α periods instruments)
    (second : FeatureSet α others instruments)
    (held : ∀ name ∈ v.featureNames, first.contains name = true)
    (held' : ∀ name ∈ v.featureNames, second.contains name = true)
    (settings : RewardSettings α) :
    ∃ (tree : Tree v) (memory : Nat) (x : Panel α periods instruments)
      (y : Panel α others instruments),
      tree.postorder = program ∧
      IsGreatest {total | ∃ path, tree.Path path ∧ (path.map Operator.lookBack).sum = total}
        memory ∧
      run v first program = .ok x ∧ run v second program = .ok y ∧
      (∀ t, FeatureSet.Agree v (fun _ => True) (UpTo t) first second →
        Panel.Agree (fun _ => True) (UpTo t) x y ∧
          Panel.Agree (fun _ => True) (UpTo t) (Backtest.positions settings x)
            (Backtest.positions settings y)) ∧
      (∀ (t : Fin periods) (u : Fin others), memory ≤ t → memory ≤ u →
        FeatureSet.Agree v (fun _ => True) (Before memory t u) first second →
          ∀ i, x.cell t i = y.cell u i) ∧
      (program.Isolated v → ∀ i,
        (∀ t, FeatureSet.Agree v (· = i) (UpTo t) first second →
          Panel.Agree (· = i) (UpTo t) x y) ∧
        (∀ (t : Fin periods) (u : Fin others), memory ≤ t → memory ≤ u →
          FeatureSet.Agree v (· = i) (Before memory t u) first second →
            x.cell t i = y.cell u i)) := by
  obtain ⟨_, tree, rfl⟩ := (Program.valid_iff_tree ..).mp valid
  obtain ⟨x, ran, value⟩ := run_postorder held tree
  obtain ⟨y, ran', value'⟩ := run_postorder held' tree
  refine ⟨tree, tree.memory, x, y, rfl, tree.memory_isGreatest, ran, ran', ?past, ?window, ?alone⟩
  case past =>
    intro t agree
    have factors := tree.evaluate_agree_upTo held held' (Or.inr fun _ => trivial) t agree x y value
      value'
    exact ⟨factors, Backtest.positions_agree settings (fun _ => trivial) x y factors⟩
  case window =>
    intro t u deep deep' agree i
    have factors := tree.evaluate_agree held held' (Or.inr ⟨deep, deep'⟩) (Or.inr fun _ => trivial)
      agree x y value value'
    exact factors t u ((before_zero_iff ..).mpr ⟨rfl, rfl⟩) i trivial
  case alone =>
    intro isolated i
    refine ⟨?_, ?_⟩
    · intro t agree
      exact tree.evaluate_agree_upTo held held' (Or.inl isolated) t agree x y value value'
    · intro t u deep deep' agree
      have factors := tree.evaluate_agree held held' (Or.inr ⟨deep, deep'⟩) (Or.inl isolated)
        agree x y value value'
      exact factors t u ((before_zero_iff ..).mpr ⟨rfl, rfl⟩) i rfl

namespace StackMachine

def stepFeatures : FeatureSet Float 4 2 :=
  ⟨requiredFeatures.map fun name => (name, .ofFn fun t _ => if t.val ≤ 1 then 1 else 2), none⟩

theorem delayedReturn_causal :
    Program.Valid ⟨false⟩ 2 [.ofNat 24, .ofNat 10] ∧
      (∀ name ∈ Vocabulary.featureNames ⟨false⟩, unitFeatures.contains name = true) ∧
      (∀ name ∈ Vocabulary.featureNames ⟨false⟩, stepFeatures.contains name = true) ∧
      ∃ x y, run ⟨false⟩ unitFeatures [.ofNat 24, .ofNat 10] = .ok x ∧
        run ⟨false⟩ stepFeatures [.ofNat 24, .ofNat 10] = .ok y ∧
        Panel.Agree (fun _ => True) (UpTo 1) x y := by
  have valid : Program.Valid ⟨false⟩ 2 [.ofNat 24, .ofNat 10] := ⟨"DELAY1(RET)", rfl⟩
  have held : ∀ name ∈ Vocabulary.featureNames ⟨false⟩, unitFeatures.contains name = true := by
    decide
  have held' : ∀ name ∈ Vocabulary.featureNames ⟨false⟩, stepFeatures.contains name = true := by
    decide
  obtain ⟨_, _, x, y, _, _, ran, ran', past, _⟩ :=
    run_causal ⟨false⟩ 2 _ valid unitFeatures stepFeatures held held' .defaults
  refine ⟨valid, held, held', x, y, ran, ran', (past 1 ?_).1⟩
  intro name member a b found found' s r near i _
  have names : name ∈ requiredFeatures := member
  simp only [requiredFeatures, List.mem_cons, List.not_mem_nil, or_false] at names
  obtain ⟨same, early⟩ := near
  rcases names with rfl | rfl | rfl | rfl <;> cases found <;> cases found' <;>
    simp [Panel.fill, ← same, early]

end StackMachine

end FactorSearch
