import FactorSearch.Proofs.Training.BestAgreement

/-!
# Penalties

Whatever is evaluated under settings that are in range, through a miner or as a draw of a scorer,
is paid one of three ways: the penalty for an invalid program, the one for a degenerate factor, or
the primary metric within its bounds.  The first two lie in this order below minus one, where the
third begins.  So a run keeps only factors of draws that were scored, and none that was penalized.
-/

set_option autoImplicit false

namespace FactorSearch

variable {α : Type}

def Outcome.assessment : Outcome α → Assessment α
  | scored _ metrics reward => .scored metrics reward
  | invalid reason reward => .invalid reason reward
  | degenerate _ reason reward => .degenerate reason reward

@[simp] theorem Outcome.assessment_ofAssessment (formula : String) (verdict : Assessment α) :
    (ofAssessment formula verdict).assessment = verdict := by
  cases verdict <;> rfl

variable [Scalar α]

/-- What a draw is paid by a scorer with these settings, or a formula by a miner with them. -/
inductive Settings.Pays (settings : Settings α) : Assessment α → Prop where
  | draw {periods instruments : Nat} (scorer : Scorer α periods instruments)
      (draw : Sampling.Draw) (verdict : Assessment α) (configured : scorer.reward = settings.reward)
      (assessed : Training.assessDraw scorer draw = .ok verdict) : Pays settings verdict
  | formula {periods instruments : Nat} (features : FeatureSet α periods instruments)
      (miner : Miner α periods instruments) (input : FormulaInput) (outcome : Outcome α)
      (created : Miner.create settings features = .ok miner)
      (evaluated : miner.evaluate input = .ok outcome) : Pays settings outcome.assessment

/-! ## The three ways of being paid -/

/-- A verdict whose reward is the penalty of its kind, or the score of its metrics. -/
inductive RewardSettings.Fits (settings : RewardSettings α) : Assessment α → Prop where
  | invalid (reason : Rejection) : Fits settings (.invalid reason settings.invalidReward)
  | degenerate (reason : Degeneracy α) :
      Fits settings (.degenerate reason settings.degenerateReward)
  | scored (metrics : Metrics α) (reward : α)
      (score : Backtest.score? settings metrics = some reward) :
      Fits settings (.scored metrics reward)

theorem RewardSettings.Fits.lt_of_isPenalized {settings : RewardSettings α} {verdict : Assessment α}
    (fits : settings.Fits verdict) (penalizes : settings.Penalizes)
    (isPenalized : verdict.isPenalized = true) : Scalar.lt verdict.reward (-1) = true := by
  cases fits with
  | invalid reason => exact penalizes.invalid
  | degenerate reason => exact penalizes.degenerate
  | scored metrics reward score => cases isPenalized

variable {periods instruments : Nat}

theorem Scorer.fits_of_assess (scorer : Scorer α periods instruments) (program : Program)
    (verdict : Assessment α) (assessed : scorer.assess program = .ok verdict) :
    scorer.reward.Fits verdict := by
  obtain ⟨metrics, reward, rfl, score⟩ | ⟨reason, rfl⟩ :=
    scorer.assess_cases program verdict assessed
  · exact .scored metrics reward score
  · exact .degenerate reason

theorem Training.fits_of_assessDraw (scorer : Scorer α periods instruments) (draw : Sampling.Draw)
    (verdict : Assessment α) (assessed : assessDraw scorer draw = .ok verdict) :
    scorer.reward.Fits verdict := by
  cases draw with
  | valid program formula => exact scorer.fits_of_assess program verdict assessed
  | rejected reason =>
    cases assessed
    exact .invalid reason

namespace Miner

variable (settings : Settings α) (features : FeatureSet α periods instruments)
  (miner : Miner α periods instruments) (created : create settings features = .ok miner)

include created

theorem reward_of_create :
    miner.settings.reward = settings.reward ∧ miner.scorer.reward = settings.reward := by
  simp only [create, Scorer.create, Result.bind_eq_ok_iff] at created
  obtain ⟨_, _, _, _, scorer, ⟨_, _, built⟩, made⟩ := created
  cases Except.ok.inj built
  cases Except.ok.inj made
  exact ⟨rfl, rfl⟩

theorem fits_of_evaluateProgram (program : Program) (outcome : Outcome α)
    (evaluated : miner.evaluateProgram program = .ok outcome) :
    settings.reward.Fits outcome.assessment := by
  obtain ⟨direct, scoring⟩ := reward_of_create settings features miner created
  simp only [evaluateProgram] at evaluated
  split at evaluated
  · rename_i reason _
    cases evaluated
    rw [← direct]
    exact .invalid reason
  · rename_i formula _
    cases assessed : miner.scorer.assess program with
    | error failure =>
      rw [assessed] at evaluated
      cases evaluated
    | ok verdict =>
      rw [assessed] at evaluated
      cases evaluated
      rw [Outcome.assessment_ofAssessment, ← scoring]
      exact miner.scorer.fits_of_assess program verdict assessed

theorem fits_of_evaluate (input : FormulaInput) (outcome : Outcome α)
    (evaluated : miner.evaluate input = .ok outcome) :
    settings.reward.Fits outcome.assessment := by
  cases input with
  | tokens program =>
    exact fits_of_evaluateProgram settings features miner created program outcome evaluated
  | text formula =>
    simp only [evaluate] at evaluated
    split at evaluated
    · cases evaluated
      rw [← (reward_of_create settings features miner created).1]
      exact .invalid _
    · split at evaluated
      · cases evaluated
      · exact fits_of_evaluateProgram settings features miner created _ outcome evaluated

end Miner

theorem Settings.Pays.fits {settings : Settings α} {verdict : Assessment α}
    (pays : settings.Pays verdict) : settings.reward.Fits verdict := by
  cases pays with
  | draw scorer draw _ configured assessed =>
    rw [← configured]
    exact Training.fits_of_assessDraw scorer draw verdict assessed
  | formula features miner input outcome created evaluated =>
    exact miner.fits_of_evaluate settings features created input outcome evaluated

/-! ## What a run keeps -/

namespace Training

namespace Run

omit [Scalar α] in
theorem mem_offered {trials : List (Trial α periods instruments)} {factor : Factor α}
    (member : factor ∈ offered trials) :
    ∃ trial ∈ trials, ∃ e ∈ trial.batch, ∃ program,
      e.sample.draw = .valid program factor.formula ∧
        e.verdict = .scored factor.metrics factor.reward := by
  obtain ⟨_, listed, inBatch⟩ := List.mem_flatten.mp member
  obtain ⟨trial, inTrials, rfl⟩ := List.mem_map.mp listed
  obtain ⟨e, drawn, some⟩ := List.mem_filterMap.mp inBatch
  exact ⟨trial, inTrials, e, drawn, factor?_eq_some _ e factor some⟩

theorem Recounts.offered_of_keeps {start run : Run α periods instruments}
    {trials : List (Trial α periods instruments)} (recounts : Recounts start trials run)
    {factor : Factor α} (kept : run.Keeps factor) : factor ∈ offered trials := by
  rcases kept with best | held | announced
  · rw [recounts.best] at best
    exact List.mem_of_find?_eq_some best
  · rw [recounts.hall] at held
    rcases HallOfFame.mem_offerAll _ _ factor held with before | found
    · cases before
    · exact found
  · rw [recounts.announced] at announced
    exact (mem_improvements announced).1

variable [Scalar.Ordered α]

/-- A draw of a trial, with its verdict by the scorer that the run started with, and the formula of
its program, when it has one, by the generator. -/
theorem Fresh.assessed_of_trial {fresh : Run α periods instruments} (unused : fresh.Fresh)
    (calls : List Call) (trial : Trial α periods instruments) (listed : trial ∈ fresh.trials calls)
    (e : Episode α trial.run.shape) (drawn : e ∈ trial.batch) :
    assessDraw fresh.scorer e.sample.draw = .ok e.verdict ∧
      ∀ program formula, e.sample.draw = .valid program formula →
        program.validate fresh.generator.vocabulary fresh.generator.limit = .ok formula := by
  obtain ⟨n, at?⟩ := List.mem_iff_getElem?.mp listed
  obtain ⟨earlier, stream, -, reached, sampled⟩ := trial_at fresh calls n trial at?
  have halfway := unused.recounts_calls earlier
  rw [reached] at halfway
  simp only [Run.batch] at sampled
  split at sampled
  · cases sampled
  · rename_i samples last draws
    obtain ⟨inSamples, assessed⟩ := episodes_assessed trial.run.scorer samples trial.batch
      (congrArg Prod.fst sampled) e drawn
    rw [halfway.scorer] at assessed
    refine ⟨assessed, fun program formula valid => ?_⟩
    rw [← halfway.generator]
    exact trial.run.generator.validate_of_samplesWith _ _ _ _ _ draws e.sample inSamples program
      formula valid

/-- A factor that was scored in a trial, within the bounds of a score.  It is paid more than every
penalized draw of the trials, and none of these has its formula. -/
structure Spares (trials : List (Trial α periods instruments)) (factor : Factor α) : Prop where
  scored : ∃ trial ∈ trials, ∃ e ∈ trial.batch, ∃ program,
    e.sample.draw = .valid program factor.formula ∧
      e.verdict = .scored factor.metrics factor.reward
  bounded : Scalar.le (-1) factor.reward = true ∧
    Scalar.le factor.reward Statistics.ratioCap = true
  penalized : ∀ trial ∈ trials, ∀ e ∈ trial.batch, e.verdict.isPenalized = true →
    Scalar.lt e.reward factor.reward = true ∧
      ∀ program, e.sample.draw ≠ .valid program factor.formula

theorem Fresh.spares {fresh : Run α periods instruments} (unused : fresh.Fresh)
    (penalizes : fresh.scorer.reward.Penalizes) (calls : List Call) (factor : Factor α)
    (kept : (fresh.after calls).Keeps factor) : Spares (fresh.trials calls) factor := by
  have recounts := unused.recounts_calls calls
  have member := recounts.offered_of_keeps kept
  have attested := recounts.attested factor member
  obtain ⟨-, least, most⟩ := attested.bounds
  refine ⟨mem_offered member, ⟨least, most⟩, fun trial listed e drawn isPenalized => ?_⟩
  obtain ⟨assessed, spelled⟩ := unused.assessed_of_trial calls trial listed e drawn
  constructor
  · have below : Scalar.lt e.reward (-1) = true :=
      (fits_of_assessDraw fresh.scorer e.sample.draw e.verdict assessed).lt_of_isPenalized
        penalizes isPenalized
    obtain ⟨present, -, under⟩ := (Scalar.Ordered.lt_iff ..).mp below
    obtain ⟨-, there, above⟩ := (Scalar.Ordered.le_iff ..).mp least
    exact (Scalar.Ordered.lt_iff ..).mpr ⟨present, there, under.trans_le above⟩
  · -- a formula stands for one program, which is scored in one way only
    intro program valid
    obtain ⟨twin, same, scored⟩ := attested
    rw [program.eq_of_validate (spelled program _ valid) same] at valid
    rw [valid, assessDraw, scored] at assessed
    rw [← Except.ok.inj assessed] at isPenalized
    cases isPenalized

end Run

end Training

/-! ## Penalties and scores -/

open Training in
/-- Under settings in range every penalty lies below every score, on doubles with all their special
values: what is invalid is paid at most what is degenerate, that is paid less than minus one, and a
score is at least minus one and at most its cap.  In every run with these settings, whatever it
starts from as its parameters and words, nothing that was penalized becomes the best, enters the
hall or is announced. -/
theorem penalties_below_scores (settings : Settings Float) (valid : settings.validate = .ok ()) :
    (∀ rejection invalid reason degenerate, settings.Pays (.invalid rejection invalid) →
      settings.Pays (.degenerate reason degenerate) → Scalar.le invalid degenerate = true) ∧
    (∀ reason reward, settings.Pays (.degenerate reason reward) → Scalar.lt reward (-1) = true) ∧
    (∀ metrics reward, settings.Pays (.scored metrics reward) →
      Scalar.le (-1) reward = true ∧ Scalar.le reward Statistics.ratioCap = true) ∧
    (∀ (periods instruments : Nat) (v : Vocabulary)
      (features : FeatureSet Float periods instruments) (seed : UInt64)
      (fresh : Run Float periods instruments),
      Run.create settings v features seed = .ok fresh →
      ∀ (learner : Learner Float fresh.shape) (stream : WordStream) (calls : List Call)
        (factor : Factor Float),
        let start := { fresh with learner := learner, stream := stream }
        (start.after calls).Keeps factor → Run.Spares (start.trials calls) factor) := by
  obtain ⟨ordered, below⟩ := settings.penalties_of_validate valid
  refine ⟨?invalid, ?degenerate, ?scored, ?kept⟩
  case invalid =>
    intro rejection invalid reason degenerate worst better
    cases worst.fits
    cases better.fits
    exact ordered
  case degenerate =>
    intro reason reward pays
    cases pays.fits
    exact below
  case scored =>
    intro metrics reward pays
    cases pays.fits with
    | scored _ _ score => exact (Backtest.score?_bounds _ metrics reward score).2
  case kept =>
    intro periods instruments v features seed fresh created learner stream calls factor start kept
    have unused : start.Fresh :=
      Run.fresh_of_create settings v features seed fresh created learner stream
    exact unused.spares (Run.penalizes_of_create settings v features seed fresh created) calls
      factor kept

namespace Miner

theorem evaluate_of_run (miner : Miner α periods instruments) (program : Program) (formula : String)
    (factor : Panel α periods instruments)
    (spelled : program.validate miner.vocabulary miner.maxLength = .ok formula)
    (ran : StackMachine.run miner.scorer.vocabulary miner.scorer.features program = .ok factor) :
    miner.evaluate (.tokens program) =
      .ok (.ofAssessment formula (miner.scorer.assessFactor factor)) := by
  simp only [evaluate, evaluateProgram, spelled, Scorer.assess, ran]
  rfl

def pairPanel : Panel Float 1 2 := Panel.ofFn fun _ i => if i.val = 0 then 1 else 2

def pairMiner : Miner Float 1 2 :=
  ⟨.defaults, ⟨false⟩, .defaults, Training.Run.pairFeatures, pairPanel⟩

def pairMetrics : Metrics Float :=
  (Backtest.run pairMiner.scorer.reward pairPanel pairMiner.scorer.forward).metrics

open Training in
/-- No program at all, a program without dispersion, one that is scored, and a run. -/
theorem pair_penalized :
    (Settings.defaults : Settings Float).validate = .ok () ∧
    create .defaults Run.pairFeatures = .ok pairMiner ∧
    (∃ reason reward,
      pairMiner.evaluate (.tokens []) = .ok (.invalid .empty (-5)) ∧
      pairMiner.evaluate (.tokens [.ofNat 24, .ofNat 6]) =
        .ok (.degenerate "SIGN(RET)" reason (-2)) ∧
      pairMiner.evaluate (.tokens [.ofNat 24]) = .ok (.scored "RET" pairMetrics reward) ∧
      Scalar.le (-5 : Float) (-2) = true ∧ Scalar.lt (-2 : Float) (-1) = true ∧
      Scalar.le (-1) reward = true ∧ Scalar.le reward Statistics.ratioCap = true) ∧
    ∃ fresh, Run.create (Settings.defaults : Settings Float) ⟨false⟩ Run.pairFeatures 0 =
      .ok fresh ∧ ∀ factor, (fresh.after [.next false]).Keeps factor →
        Run.Spares (fresh.trials [.next false]) factor := by
  have valid : (Settings.defaults : Settings Float).validate = .ok () := by rfl
  have created : create .defaults Run.pairFeatures = .ok pairMiner := by rfl
  have invalid : pairMiner.evaluate (.tokens []) = .ok (.invalid .empty (-5)) := by rfl
  have degenerate : ∃ reason, pairMiner.evaluate (.tokens [.ofNat 24, .ofNat 6]) =
      .ok (.degenerate "SIGN(RET)" reason (-2)) := by
    obtain ⟨reason, flat⟩ := Option.isSome_iff_exists.mp (show (Degeneracy.classify?
      pairMiner.scorer.reward.limits (⟨#v[#v[1, 1]]⟩ : Panel Float 1 2)).isSome by decide +kernel)
    refine ⟨reason, ?_⟩
    rw [pairMiner.evaluate_of_run _ "SIGN(RET)" ⟨#v[#v[1, 1]]⟩ (by decide +kernel) (by rfl)]
    simp only [Scorer.assessFactor, flat]
    rfl
  have scored : ∃ reward, pairMiner.evaluate (.tokens [.ofNat 24]) =
      .ok (.scored "RET" pairMetrics reward) := by
    have varied : Degeneracy.classify? pairMiner.scorer.reward.limits pairPanel = none := by
      rw [← Option.isNone_iff_eq_none]
      decide +kernel
    obtain ⟨reward, score⟩ := Option.isSome_iff_exists.mp
      (show (Backtest.score? pairMiner.scorer.reward pairMetrics).isSome by decide +kernel)
    rw [pairMetrics] at score
    refine ⟨reward, ?_⟩
    rw [pairMiner.evaluate_of_run _ "RET" pairPanel (by decide +kernel) (by rfl)]
    simp only [Scorer.assessFactor, varied, score]
    rfl
  have made : ∃ fresh, Run.create (Settings.defaults : Settings Float) ⟨false⟩ Run.pairFeatures 0 =
      .ok fresh := by
    rw [Run.create, valid]
    exact ⟨_, rfl⟩
  obtain ⟨reason, degenerate⟩ := degenerate
  obtain ⟨reward, scored⟩ := scored
  obtain ⟨fresh, started⟩ := made
  obtain ⟨ordered, below, bounded, spared⟩ := penalties_below_scores .defaults valid
  have worst := ordered _ _ reason _ (.formula _ _ _ _ created invalid)
    (.formula _ _ _ _ created degenerate)
  have under := below reason _ (.formula _ _ _ _ created degenerate)
  obtain ⟨least, most⟩ := bounded pairMetrics reward (.formula _ _ _ _ created scored)
  exact ⟨valid, created,
    ⟨reason, reward, invalid, degenerate, scored, worst, under, least, most⟩,
    fresh, started, spared 1 2 ⟨false⟩ Run.pairFeatures 0 fresh started fresh.learner fresh.stream
      [.next false]⟩

end Miner

end FactorSearch
