import FactorSearch.Evaluation.Degeneracy
import FactorSearch.Proofs.Evaluation.Agreement
import FactorSearch.Proofs.Exact.Extended
import FactorSearch.Proofs.Kernel.Reordering

/-!
# The order of instruments

In exact arithmetic the instruments of a market have no order.  With features and forward returns in
another order of instruments, factors and positions come out in that order, and whatever is one
number for all instruments is the same: why a factor is degenerate, and the returns, equity and
metrics of its backtest.
-/

set_option autoImplicit false

namespace FactorSearch

variable {α : Type} {periods instruments : Nat} (σ : Equiv.Perm (Fin instruments))

namespace FeatureSet

/-- The features and the forward returns with their instruments in another order. -/
def reorder (features : FeatureSet α periods instruments) : FeatureSet α periods instruments :=
  ⟨features.panels.map fun entry => (entry.1, entry.2.reorder σ),
    features.explicitForward.map (Panel.reorder σ)⟩

theorem panel_reorder (features : FeatureSet α periods instruments) (name : String) :
    (features.reorder σ).panel name = (features.panel name).map (Panel.reorder σ) := by
  have found (entries : List (String × Panel α periods instruments)) (key : String) :
      (entries.map fun entry => (entry.1, entry.2.reorder σ)).lookup key =
        (entries.lookup key).map (Panel.reorder σ) := by
    induction entries with
    | nil => rfl
    | cons head rest ih =>
      rw [List.map_cons, List.lookup_cons, List.lookup_cons, ih]
      cases key == head.1 <;> rfl
  rw [panel, panel, reorder, found]
  cases features.panels.lookup (upperName name) <;> rfl

theorem forwardReturns_reorder {features : FeatureSet α periods instruments} [Scalar α]
    {forward : Panel α periods instruments} (explicit : features.explicitForward = some forward) :
    (features.reorder σ).forwardReturns = .ok (forward.reorder σ) := by
  rw [forwardReturns, reorder, explicit]
  rfl

end FeatureSet

variable [Scalar α]

/-! ## Running programs -/

namespace StackMachine

variable [Scalar.Ordered α] [RightCommutative fun sum value : α => sum + value]

theorem step_reorder (v : Vocabulary) (features : FeatureSet α periods instruments)
    (position : Nat) (stack : List (Panel α periods instruments)) (token : Token) :
    step v (features.reorder σ) position (stack.map (Panel.reorder σ)) token =
      (step v features position stack token).map (List.map (Panel.reorder σ)) := by
  cases known : v.entry? token with
  | none =>
    simp only [step, known]
    rfl
  | some entry =>
    cases leaf : entry.feature? with
    | some name =>
      simp only [step, known, leaf, FeatureSet.panel_reorder]
      cases features.panel name <;> rfl
    | none =>
      simp only [step, known, leaf, List.length_map]
      split
      · rfl
      · rw [← List.map_take, ← List.map_reverse, Operator.apply_reorder, ← List.map_drop]
        cases entry.operator.apply (stack.take entry.arity).reverse <;> rfl

theorem runFrom_reorder (v : Vocabulary) (features : FeatureSet α periods instruments)
    (program : Program) (position : Nat) (stack : List (Panel α periods instruments)) :
    runFrom v (features.reorder σ) position (stack.map (Panel.reorder σ)) program =
      (runFrom v features position stack program).map (List.map (Panel.reorder σ)) := by
  induction program generalizing position stack with
  | nil => rfl
  | cons token rest ih =>
    rw [runFrom, runFrom, step_reorder]
    cases step v features position stack token with
    | error failure => rfl
    | ok next => exact ih (position + 1) next

theorem run_reorder (v : Vocabulary) (features : FeatureSet α periods instruments)
    (program : Program) :
    run v (features.reorder σ) program = (run v features program).map (Panel.reorder σ) := by
  have ran := runFrom_reorder σ v features program 0 []
  rw [List.map_nil] at ran
  rw [run, run, ran]
  cases runFrom v features 0 [] program with
  | error failure => rfl
  | ok stack => rcases stack with _ | ⟨factor, _ | ⟨second, rest⟩⟩ <;> simp [Except.map]

end StackMachine

/-! ## Degenerate factors -/

namespace Degeneracy

variable [RightCommutative fun sum value : α => sum + value]

omit σ in
theorem isFlat_perm (limit : α) {values others : List α} (order : values.Perm others) :
    isFlat limit values = isFlat limit others := by
  rw [isFlat, isFlat, order.length_eq, Statistics.deviation_perm order]

theorem classify?_reorder (limits : DegeneracyLimits α) (factor : Panel α periods instruments) :
    classify? limits (factor.reorder σ) = classify? limits factor := by
  have cells : (factor.reorder σ).cells.Perm factor.cells := by
    rw [Panel.cells, Panel.cells, Panel.toRows_eq, Panel.toRows_eq]
    refine List.Perm.flatten_congr ?_
    rw [List.forall₂_map_left_iff, List.forall₂_map_right_iff]
    exact List.forall₂_same.mpr fun t _ => Panel.row_reorder_perm σ factor t
  have flat : (factor.reorder σ).toRows.countP (fun row =>
        isFlat limits.flatDeviation (row.filter Scalar.isFinite)) =
      factor.toRows.countP fun row =>
        isFlat limits.flatDeviation (row.filter Scalar.isFinite) := by
    rw [Panel.toRows_eq, Panel.toRows_eq, List.countP_map, List.countP_map]
    congr 1
    funext t
    exact isFlat_perm _ ((Panel.row_reorder_perm σ factor t).filter _)
  simp only [classify?, cells.isEmpty_eq, cells.length_eq, cells.countP_eq, flat,
    isFlat_perm limits.flatDeviation (cells.filter Scalar.isFinite)]

end Degeneracy

/-! ## Backtests -/

namespace Backtest

variable [RightCommutative fun sum value : α => sum + value]

theorem positions_reorder (settings : RewardSettings α) (factor : Panel α periods instruments) :
    positions settings (factor.reorder σ) = (positions settings factor).reorder σ := by
  rw [positions, positions, Panel.zScore_reorder, Panel.map_reorder]

omit [Scalar α] [RightCommutative fun sum value : α => sum + value] in
theorem zip_perm {β : Type} (f : Fin instruments → α) (g : Fin instruments → β) :
    ((List.ofFn (f ∘ σ)).zip (List.ofFn (g ∘ σ))).Perm ((List.ofFn f).zip (List.ofFn g)) := by
  have pairs (f : Fin instruments → α) (g : Fin instruments → β) :
      (List.ofFn f).zip (List.ofFn g) = List.ofFn fun i => (f i, g i) := by
    rw [List.ofFn_eq_map, List.ofFn_eq_map, List.zip_map', List.ofFn_eq_map]
  rw [pairs, pairs]
  exact Equiv.Perm.ofFn_comp_perm σ fun i => (f i, g i)

theorem turnover_reorder (before current : Fin instruments → α) :
    turnover (List.ofFn (before ∘ σ)) (List.ofFn (current ∘ σ)) =
      turnover (List.ofFn before) (List.ofFn current) := by
  rw [turnover, turnover, ← List.map_uncurry_zip_eq_zipWith, ← List.map_uncurry_zip_eq_zipWith,
    Scalar.total_perm ((zip_perm σ current before).map _), List.length_ofFn, List.length_ofFn]

theorem period?_reorder (costRate : α) (before current forward : Fin instruments → α) :
    period? costRate (List.ofFn (before ∘ σ)) (List.ofFn (current ∘ σ))
        (List.ofFn (forward ∘ σ)) =
      period? costRate (List.ofFn before) (List.ofFn current) (List.ofFn forward) := by
  have trades : (tradable (List.ofFn (current ∘ σ)) (List.ofFn (forward ∘ σ))).Perm
      (tradable (List.ofFn current) (List.ofFn forward)) :=
    (zip_perm σ current forward).filter _
  rw [period?, period?, turnover_reorder]
  simp only [trades.isEmpty_eq, trades.length_eq, Scalar.total_perm (trades.map _)]

omit [RightCommutative fun sum value : α => sum + value] in
theorem exists_heldBefore (held : Panel α periods instruments) (t : Fin periods) :
    ∃ before : Fin instruments → α, heldBefore held t = List.ofFn before ∧
      heldBefore (held.reorder σ) t = List.ofFn (before ∘ σ) := by
  match t with
  | ⟨0, _⟩ =>
    refine ⟨fun _ => 0, ?_, ?_⟩
    · exact (List.ofFn_const _ _).symm
    · exact (List.ofFn_const _ _).symm
  | ⟨s + 1, inside⟩ =>
    refine ⟨held.cell ⟨s, Nat.lt_of_succ_lt inside⟩, ?_, ?_⟩
    · exact Panel.row_eq ..
    · exact Panel.row_reorder ..

theorem evaluatedPeriods_reorder (settings : RewardSettings α)
    (factor forward : Panel α periods instruments) :
    evaluatedPeriods settings (factor.reorder σ) (forward.reorder σ) =
      evaluatedPeriods settings factor forward := by
  rw [evaluatedPeriods_eq, evaluatedPeriods_eq, positions_reorder]
  congr 1
  funext t
  obtain ⟨before, plain, turned⟩ := exists_heldBefore σ (positions settings factor) t
  rw [plain, turned, Panel.row_reorder, Panel.row_reorder, period?_reorder, ← Panel.row_eq,
    ← Panel.row_eq]

variable [Scalar.Ordered α]

theorem informationCoefficient_reorder (ranked : Bool)
    (factor forward : Panel α periods instruments) :
    Statistics.informationCoefficient ranked (factor.reorder σ).toRows (forward.reorder σ).toRows =
      Statistics.informationCoefficient ranked factor.toRows forward.toRows := by
  rw [Statistics.informationCoefficient_eq, Statistics.informationCoefficient_eq]
  congr 2
  funext t
  rw [Panel.row_reorder, Panel.row_reorder, Panel.row_eq, Panel.row_eq]
  exact Statistics.rowCorrelation_perm ranked (zip_perm σ (factor.cell t) (forward.cell t))

theorem run_reorder (settings : RewardSettings α) (factor forward : Panel α periods instruments) :
    run settings (factor.reorder σ) (forward.reorder σ) = run settings factor forward := by
  simp only [run, evaluatedPeriods_reorder, informationCoefficient_reorder]

/-- The order of the instruments is irrelevant.  A valid program has a factor on features that hold
its names.  On the reordered features it has the reordered factor, with the reordered positions; why
a factor is degenerate, and what its backtest gives, is the same. -/
theorem instrument_order_irrelevant (v : Vocabulary) (limit : Nat) (program : Program)
    (valid : program.Valid v limit) (features : FeatureSet Extended periods instruments)
    (forward : Panel Extended periods instruments)
    (explicit : features.explicitForward = some forward) (settings : RewardSettings Extended)
    (σ : Equiv.Perm (Fin instruments)) :
    ((∀ name ∈ v.featureNames, features.contains name = true) →
      ∃ factor, StackMachine.run v features program = .ok factor) ∧
    StackMachine.run v (features.reorder σ) program =
      (StackMachine.run v features program).map (Panel.reorder σ) ∧
    (features.reorder σ).forwardReturns = .ok (forward.reorder σ) ∧
    ∀ factor : Panel Extended periods instruments,
      positions settings (factor.reorder σ) = (positions settings factor).reorder σ ∧
      Degeneracy.classify? settings.limits (factor.reorder σ) =
        Degeneracy.classify? settings.limits factor ∧
      run settings (factor.reorder σ) (forward.reorder σ) = run settings factor forward := by
  refine ⟨?_, StackMachine.run_reorder σ v features program,
    FeatureSet.forwardReturns_reorder σ explicit, ?_⟩
  · intro held
    obtain ⟨_, tree, rfl⟩ := (Program.valid_iff_tree ..).mp valid
    obtain ⟨factor, ran, _⟩ := StackMachine.run_postorder held tree
    exact ⟨factor, ran⟩
  · intro factor
    exact ⟨positions_reorder σ settings factor, Degeneracy.classify?_reorder σ _ factor,
      run_reorder σ settings factor forward⟩

noncomputable def pairForward : Panel Extended 1 2 :=
  .ofFn fun _ i => if i = 0 then .finite 0.01 else .finite 0.02

noncomputable def pairFeatures : FeatureSet Extended 1 2 :=
  ⟨requiredFeatures.map fun name => (name, .ofFn fun _ i => if i = 0 then .finite 1 else .missing),
    some pairForward⟩

/-- The rank of the return, with the two instruments swapped. -/
theorem pair_swapped :
    Program.Valid ⟨false⟩ 2 [.ofNat 24, .ofNat 22] ∧
    pairFeatures.explicitForward = some pairForward ∧
    ∃ factor, StackMachine.run ⟨false⟩ pairFeatures [.ofNat 24, .ofNat 22] = .ok factor ∧
      StackMachine.run ⟨false⟩ (pairFeatures.reorder (Equiv.swap 0 1)) [.ofNat 24, .ofNat 22] =
        .ok (factor.reorder (Equiv.swap 0 1)) ∧
      run .defaults (factor.reorder (Equiv.swap 0 1)) (pairForward.reorder (Equiv.swap 0 1)) =
        run .defaults factor pairForward := by
  have valid : Program.Valid ⟨false⟩ 2 [.ofNat 24, .ofNat 22] := ⟨"RANK(RET)", rfl⟩
  have held : ∀ name ∈ Vocabulary.featureNames ⟨false⟩, pairFeatures.contains name = true := by
    decide
  obtain ⟨runs, reordered, -, same⟩ := instrument_order_irrelevant ⟨false⟩ 2 _ valid pairFeatures
    pairForward rfl .defaults (Equiv.swap 0 1)
  obtain ⟨factor, ran⟩ := runs held
  rw [ran] at reordered
  exact ⟨valid, rfl, factor, ran, reordered, (same factor).2.2⟩

end Backtest

end FactorSearch
