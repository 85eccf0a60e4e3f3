import FactorSearch.Miner
import FactorSearch.Proofs.Evaluation.TreeValue
import FactorSearch.Proofs.Formula.Rendering

/-!
# Formulas as text and as tokens

A miner that was created holds every feature of its vocabulary, so the stack machine gives a
factor for every program that the validator accepts, and evaluation of tokens never fails.  Text
fails only when it is no formula, and has otherwise the outcome of the program that it parses to.
-/

set_option autoImplicit false

namespace FactorSearch

variable {α : Type} {periods instruments : Nat}

theorem Result.bind_eq_ok_iff {β γ : Type} (first : Result β) (next : β → Result γ) (out : γ) :
    (first >>= next) = .ok out ↔ ∃ value, first = .ok value ∧ next value = .ok out := by
  cases first with
  | error failure => simp [bind, Except.bind]
  | ok value => simp [bind, Except.bind]

theorem FeatureSet.holds_of_require {v : Vocabulary} (features : FeatureSet α periods instruments)
    (required : features.require v.featureNames = .ok ()) : features.Holds v := by
  intro name member
  simp only [require] at required
  split at required
  · contradiction
  · rename_i none
    simpa using List.find?_eq_none.mp none name member

variable [Scalar α]

theorem Scorer.exists_assess (s : Scorer α periods instruments)
    (held : s.features.Holds s.vocabulary) (tree : Tree s.vocabulary) :
    ∃ assessment, s.assess tree.postorder = .ok assessment := by
  obtain ⟨factor, ran, _⟩ := StackMachine.run_postorder held tree
  exact ⟨s.assessFactor factor, by rw [assess, ran]⟩

namespace Miner

theorem holds_of_create (settings : Settings α) (features : FeatureSet α periods instruments)
    (miner : Miner α periods instruments) (created : create settings features = .ok miner) :
    miner.settings = settings ∧ miner.features.Holds miner.vocabulary := by
  simp only [create, Scorer.create, Result.bind_eq_ok_iff] at created
  obtain ⟨_, _, _, required, scorer, ⟨forward, _, built⟩, made⟩ := created
  cases Except.ok.inj built
  cases Except.ok.inj made
  exact ⟨rfl, features.holds_of_require required⟩

theorem exists_evaluateProgram (miner : Miner α periods instruments)
    (held : miner.features.Holds miner.vocabulary) (program : Program) :
    ∃ outcome, miner.evaluateProgram program = .ok outcome := by
  simp only [evaluateProgram]
  cases verdict : program.validate miner.vocabulary miner.maxLength with
  | error reason => exact ⟨_, rfl⟩
  | ok formula =>
    obtain ⟨_, tree, rfl, _⟩ := (Program.validate_eq_ok_iff ..).mp verdict
    obtain ⟨assessment, assessed⟩ : ∃ a, miner.scorer.assess tree.postorder = .ok a :=
      miner.scorer.exists_assess held tree
    rw [assessed]
    exact ⟨_, rfl⟩

theorem evaluateProgram_tooLong (miner : Miner α periods instruments) (program : Program)
    (long : miner.maxLength < program.length) :
    miner.evaluateProgram program =
      .ok (miner.invalid (.tooLong program.length miner.maxLength)) := by
  rw [evaluateProgram, Program.validate, if_pos long]

/-- Text that parses has the outcome of its program, also when it is too long. -/
theorem evaluate_text_of_parse (miner : Miner α periods instruments) (formula : String)
    (program : Program) (parsed : Formula.parse miner.vocabulary formula = .ok program) :
    miner.evaluate (.text formula) = miner.evaluateProgram program := by
  obtain ⟨tree, renders, _, rfl⟩ := (Formula.parse_eq_ok_iff ..).mp parsed
  have names : Formula.countNames formula = tree.postorder.length := by
    rw [Formula.countNames_of_renders renders, tree.length_postorder]
  simp only [evaluate, names, parsed]
  split
  · rename_i long
    rw [evaluateProgram_tooLong miner _ long]
  · rfl

/-- Evaluation on a created miner: tokens always have an outcome; text has one or is malformed; and
text that parses has the outcome of its program, which names the length and the limit when the
program is too long. -/
theorem evaluate_text_tokens (settings : Settings α) (features : FeatureSet α periods instruments)
    (miner : Miner α periods instruments) (created : create settings features = .ok miner) :
    (∀ program, ∃ outcome, miner.evaluate (.tokens program) = .ok outcome) ∧
    (∀ formula, (∃ outcome, miner.evaluate (.text formula) = .ok outcome) ∨
      ∃ fault, miner.evaluate (.text formula) = .error (.malformedFormula fault)) ∧
    (∀ formula program, Formula.parse miner.vocabulary formula = .ok program →
      miner.evaluate (.text formula) = miner.evaluate (.tokens program) ∧
      (settings.model.maxLength < program.length →
        miner.evaluate (.text formula) = .ok (.invalid
          (.tooLong program.length settings.model.maxLength) settings.reward.invalidReward))) := by
  obtain ⟨rfl, held⟩ := holds_of_create settings features miner created
  refine ⟨miner.exists_evaluateProgram held, ?text, ?agree⟩
  case text =>
    intro formula
    cases parsed : Formula.parse miner.vocabulary formula with
    | ok program =>
      rw [miner.evaluate_text_of_parse formula program parsed]
      exact Or.inl (miner.exists_evaluateProgram held program)
    | error fault =>
      simp only [evaluate, parsed]
      split
      · exact Or.inl ⟨_, rfl⟩
      · exact Or.inr ⟨fault, rfl⟩
  case agree =>
    intro formula program parsed
    have same := miner.evaluate_text_of_parse formula program parsed
    refine ⟨same, ?_⟩
    intro long
    rw [same, miner.evaluateProgram_tooLong program long]
    rfl

def deepFormula : String :=
  "NEG(NEG(NEG(NEG(NEG(NEG(NEG(NEG(NEG(NEG(NEG(NEG(NEG(NEG(NEG(RET)))))))))))))))"

def deepProgram : Program := .ofNat 24 :: List.replicate 15 (.ofNat 4)

theorem deepFormula_tooLong :
    ∃ miner : Miner Float 3 2, create .defaults StackMachine.unitFeatures = .ok miner ∧
      Formula.parse miner.vocabulary deepFormula = .ok deepProgram ∧ 15 < deepProgram.length ∧
      miner.evaluate (.text deepFormula) = miner.evaluate (.tokens deepProgram) ∧
      miner.evaluate (.text deepFormula) = .ok (.invalid (.tooLong 16 15) (-5)) ∧
      ∃ outcome, miner.evaluate (.tokens [.ofNat 99]) = .ok outcome := by
  let miner : Miner Float 3 2 :=
    ⟨.defaults, ⟨false⟩, .defaults, StackMachine.unitFeatures,
      FeatureSet.following (.fill 1)⟩
  have created : create .defaults StackMachine.unitFeatures = .ok miner := by rfl
  have parsed : Formula.parse miner.vocabulary deepFormula = .ok deepProgram := by decide +kernel
  obtain ⟨total, _, agree⟩ := evaluate_text_tokens .defaults _ miner created
  obtain ⟨same, tooLong⟩ := agree deepFormula deepProgram parsed
  exact ⟨miner, created, parsed, by decide, same, tooLong (by decide), total _⟩

end Miner

end FactorSearch
