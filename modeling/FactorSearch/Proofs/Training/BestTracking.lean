import FactorSearch.Proofs.Double.Exponential
import FactorSearch.Proofs.Training.Improvements

/-!
# The best that a run tracks

Every reward of a scored program is a finite number from minus one up, and every penalty lies below.
So the factors of a run are comparable, its best is the earliest of those with the largest reward,
and its records tell it from the penalties.
-/

set_option autoImplicit false

namespace FactorSearch

variable {α : Type} [Scalar α] {periods instruments : Nat}

/-! ## Rewards and penalties -/

theorem Backtest.score?_bounds [Scalar.Ordered α] (settings : RewardSettings α)
    (metrics : Metrics α) (reward : α) (scored : score? settings metrics = some reward) :
    Scalar.isFinite reward = true ∧ Scalar.le (-1) reward = true ∧
      Scalar.le reward Statistics.ratioCap = true := by
  rw [score?] at scored
  split at scored
  · rename_i finite
    cases scored
    exact Scalar.Ordered.clamp_bounds (Scalar.Ordered.small_finite 1 (by decide)).2
      (Scalar.Ordered.small_finite 10 le_rfl).1 (Scalar.Ordered.negOne_le 10 le_rfl) finite
  · cases scored

theorem Scorer.assess_cases (scorer : Scorer α periods instruments) (program : Program)
    (verdict : Assessment α) (assessed : scorer.assess program = .ok verdict) :
    (∃ metrics reward, verdict = .scored metrics reward ∧
        Backtest.score? scorer.reward metrics = some reward) ∨
      ∃ reason, verdict = .degenerate reason scorer.reward.degenerateReward := by
  rw [assess] at assessed
  split at assessed
  · cases assessed
  · cases assessed
    rw [assessFactor]
    split
    · exact Or.inr ⟨_, rfl⟩
    · dsimp only
      split
      · rename_i reward scored
        exact Or.inl ⟨_, reward, rfl, scored⟩
      · exact Or.inr ⟨_, rfl⟩

structure RewardSettings.Penalizes (settings : RewardSettings α) : Prop where
  invalid : Scalar.lt settings.invalidReward (-1) = true
  degenerate : Scalar.lt settings.degenerateReward (-1) = true

theorem Settings.penalties_of_validate (settings : Settings α)
    (valid : settings.validate = .ok ()) :
    Scalar.le settings.reward.invalidReward settings.reward.degenerateReward = true ∧
      Scalar.lt settings.reward.degenerateReward (-1) = true := by
  simp only [validate, Result.bind_eq_ok_iff, RewardSettings.validate] at valid
  obtain ⟨_, _, _, _, _, rewards, _⟩ := valid
  split at rewards
  · cases rewards
  · rename_i ordered
    simpa using ordered

theorem Settings.penalizes_of_validate [Scalar.Ordered α] (settings : Settings α)
    (valid : settings.validate = .ok ()) : settings.reward.Penalizes := by
  obtain ⟨ordered, below⟩ := settings.penalties_of_validate valid
  obtain ⟨present, _, before⟩ := (Scalar.Ordered.le_iff ..).mp ordered
  obtain ⟨_, least, under⟩ := (Scalar.Ordered.lt_iff ..).mp below
  exact ⟨(Scalar.Ordered.lt_iff ..).mpr ⟨present, least, before.trans_lt under⟩, below⟩

namespace Training

namespace Run

open HallOfFame

/-- A draw is paid a penalty, or it is a valid program that was scored. -/
theorem episode_cases (run : Run α periods instruments) (batch : List (Episode α run.shape))
    (stream : WordStream) (sampled : run.batch = (.ok batch, stream))
    (e : Episode α run.shape) (member : e ∈ batch) :
    (∃ factor ∈ run.found batch, factor.reward = e.reward) ∨
      e.reward = run.scorer.reward.invalidReward ∨
        e.reward = run.scorer.reward.degenerateReward := by
  simp only [Run.batch] at sampled
  split at sampled
  · cases sampled
  · rename_i samples last draws
    obtain ⟨-, assessed⟩ := episodes_assessed run.scorer samples batch
      (congrArg Prod.fst sampled) e member
    cases drawn : e.sample.draw with
    | rejected reason =>
      rw [drawn] at assessed
      have verdict := Except.ok.inj assessed
      exact Or.inr (Or.inl (by rw [Episode.reward, ← verdict]; rfl))
    | valid program formula =>
      rw [drawn, assessDraw] at assessed
      rcases run.scorer.assess_cases program e.verdict assessed with
        ⟨metrics, reward, scored, -⟩ | ⟨reason, degenerate⟩
      · refine Or.inl ⟨⟨formula, reward, metrics, run.step⟩, ?_, ?_⟩
        · exact List.mem_filterMap.mpr ⟨e, member, by rw [factor?, drawn, scored]⟩
        · rw [Episode.reward, scored]
          rfl
      · exact Or.inr (Or.inr (by rw [Episode.reward, degenerate]; rfl))

omit [Scalar α] in
theorem found_step (run : Run α periods instruments) (batch : List (Episode α run.shape))
    (factor : Factor α) (member : factor ∈ run.found batch) : factor.step = run.step := by
  obtain ⟨e, -, some⟩ := List.mem_filterMap.mp member
  rw [factor?] at some
  split at some
  · cases some
    rfl
  · cases some

variable [Scalar.Ordered α]

theorem penalizes_of_create (settings : Settings α) (v : Vocabulary)
    (features : FeatureSet α periods instruments) (seed : UInt64)
    (fresh : Run α periods instruments) (created : create settings v features seed = .ok fresh) :
    fresh.scorer.reward.Penalizes := by
  simp only [create, Scorer.create, Result.bind_eq_ok_iff] at created
  obtain ⟨_, valid, _, _, _, _, _, ⟨_, _, built⟩, made⟩ := created
  cases Except.ok.inj built
  cases Except.ok.inj made
  exact settings.penalizes_of_validate valid

/-! ## A run and its trials -/

/-- Everything found in trials, in the order of the draws. -/
def offered (trials : List (Trial α periods instruments)) : List (Factor α) :=
  (trials.map Trial.factors).flatten

def Attested (run : Run α periods instruments) (factor : Factor α) : Prop :=
  ∃ program, program.validate run.generator.vocabulary run.generator.limit = .ok factor.formula ∧
    run.scorer.assess program = .ok (.scored factor.metrics factor.reward)

omit [Scalar α] [Scalar.Ordered α] in
theorem offered_snoc (trials : List (Trial α periods instruments))
    (trial : Trial α periods instruments) :
    offered (trials ++ [trial]) = offered trials ++ trial.factors := by
  simp [offered]

/-- A run that has come from a fresh one is what its trials say. -/
structure Recounts (start : Run α periods instruments)
    (trials : List (Trial α periods instruments)) (run : Run α periods instruments) : Prop where
  generator : run.generator = start.generator
  scorer : run.scorer = start.scorer
  step : run.step = trials.length
  numbered : trials.map (fun trial => trial.run.step) = List.range trials.length
  records : run.records.toList = trials.map Trial.record
  attested : ∀ factor ∈ offered trials, Attested start factor
  hall : run.hall = (HallOfFame.empty start.settings.hallSize).offerAll (offered trials)
  best : run.best = earliestBest? (offered trials)
  announced : run.announced = improvements [] (trials.map Trial.factors)
  last : run.announced.getLast? = run.best

omit [Scalar.Ordered α] in
theorem Fresh.recounts {fresh : Run α periods instruments} (unused : fresh.Fresh) :
    Recounts fresh [] fresh where
  generator := rfl
  scorer := rfl
  step := unused.step
  numbered := rfl
  records := by rw [unused.records]; rfl
  attested := by simp [offered]
  hall := unused.hall
  best := unused.best
  announced := unused.announced
  last := by rw [unused.announced, unused.best]; rfl

theorem Attested.bounds {run : Run α periods instruments} {factor : Factor α}
    (attested : run.Attested factor) :
    Scalar.isFinite factor.reward = true ∧ Scalar.le (-1) factor.reward = true ∧
      Scalar.le factor.reward Statistics.ratioCap = true := by
  obtain ⟨program, -, assessed⟩ := attested
  rcases run.scorer.assess_cases program _ assessed with ⟨_, _, verdict, scored⟩ | ⟨_, verdict⟩
  · cases verdict
    exact Backtest.score?_bounds _ _ _ scored
  · cases verdict

namespace Recounts

variable {start run : Run α periods instruments} {trials : List (Trial α periods instruments)}

theorem finite (recounts : Recounts start trials run) : AllFinite (offered trials) :=
  fun factor member => (recounts.attested factor member).bounds.1

theorem stepped (recounts : Recounts start trials run) (batch : List (Episode α run.shape))
    (stream : WordStream) (sampled : run.batch = (.ok batch, stream)) :
    Recounts start (trials ++ [⟨run, batch⟩]) (run.stepped batch stream) := by
  have attested : ∀ factor ∈ run.found batch, Attested start factor := by
    intro factor member
    obtain ⟨program, valid, scored⟩ := run.found_scored batch stream sampled factor member
    rw [recounts.generator] at valid
    rw [recounts.scorer] at scored
    exact ⟨program, valid, scored⟩
  have all : ∀ factor ∈ offered (trials ++ [⟨run, batch⟩]), Attested start factor := by
    intro factor member
    rw [offered_snoc, List.mem_append] at member
    exact member.elim (recounts.attested factor) (attested factor)
  have finite : AllFinite (offered trials ++ run.found batch) := by
    intro factor member
    rw [← Trial.factors_mk, ← offered_snoc] at member
    exact (all factor member).bounds.1
  obtain ⟨generator, scorer⟩ := run.stepped_fixed batch stream
  obtain ⟨best, announced⟩ := run.stepped_best batch stream (offered trials) finite recounts.best
  refine
    { generator := generator.trans recounts.generator
      scorer := scorer.trans recounts.scorer
      step := ?step, numbered := ?numbered, records := ?records, attested := all, hall := ?hall
      best := ?best, announced := ?announced, last := ?last }
  case step =>
    rw [List.length_append, ← recounts.step]
    rfl
  case numbered =>
    rw [List.map_append, recounts.numbered, List.length_append, List.length_singleton,
      List.range_succ, ← recounts.step]
    rfl
  case records =>
    rw [stepped_records, Array.toList_push, recounts.records, List.map_append]
    rfl
  case hall =>
    rw [stepped_hall, recounts.hall, offered_snoc, Trial.factors_mk, HallOfFame.offerAll,
      HallOfFame.offerAll, HallOfFame.offerAll, List.foldl_append]
  case best => rw [best, offered_snoc, Trial.factors_mk]
  case announced =>
    rw [announced, recounts.announced, List.map_append, List.map_singleton, improvements_snoc,
      List.nil_append, Trial.factors_mk]
    rfl
  case last =>
    -- with an improvement it is both the last announced and the best; else neither changes
    rw [announced, best, earliestBest?_append _ _ finite, List.getLast?_append, recounts.last,
      recounts.best]
    cases improvement? (offered trials) (run.found batch) <;> rfl

omit [Scalar.Ordered α] in
theorem ordered (recounts : Recounts start trials run) :
    (trials.map Trial.factors).Pairwise fun batch later =>
      ∀ a ∈ batch, ∀ b ∈ later, a.step < b.step := by
  have steps : (trials.map fun trial => trial.run.step).Pairwise (· < ·) := by
    rw [recounts.numbered]
    exact List.pairwise_lt_range
  rw [List.pairwise_map] at steps ⊢
  refine steps.imp fun before a inBatch b inLater => ?_
  rw [found_step _ _ a inBatch, found_step _ _ b inLater]
  exact before

end Recounts

theorem Fresh.recounts_calls {fresh : Run α periods instruments} (unused : fresh.Fresh)
    (calls : List Call) : Recounts fresh (fresh.trials calls) (fresh.after calls) :=
  after_induction fresh unused.recounts
    (fun _ _ _ _ recounts => { recounts with })
    (fun _ _ batch stream sampled recounts => recounts.stepped batch stream sampled) calls

/-! ## The records of a run -/

/-- What a record says when those factors have been scored by the end of its batch: the best of
them, which the rewards of the batch do not exceed, or that there is none but penalties. -/
structure Reports (record : StepRecord α) (scored : List (Factor α)) : Prop where
  bestScore : record.bestScore = (earliestBest? scored).map Factor.reward
  bestFormula : record.bestFormula = (earliestBest? scored).map Factor.formula
  absent : record.bestScore = none ↔ scored = []
  reached : ∀ best, record.bestScore = some best → Scalar.le record.maxReward best = true
  penalized : record.bestScore = none → Scalar.lt record.maxReward (-1) = true

section Penalties

variable [Scalar.Bounded α]

/-- The largest reward of a batch is that of a factor, or lies below those of all factors. -/
theorem maxReward_cases (run : Run α periods instruments) (batch : List (Episode α run.shape))
    (stream : WordStream) (sampled : run.batch = (.ok batch, stream))
    (penalizes : run.scorer.reward.Penalizes) :
    (∃ factor ∈ run.found batch, factor.reward = (run.learn batch).1.maxReward) ∨
      Scalar.lt (run.learn batch).1.maxReward (-1) = true := by
  have maximum : (run.learn batch).1.maxReward = Scalar.maximum (batch.map Episode.reward) := rfl
  rw [maximum]
  rcases Scalar.Ordered.maximum_mem (batch.map Episode.reward) with least | member
  · rw [least]
    exact Or.inr ((Scalar.Bounded.isFinite_iff (-1)).mp
      (Scalar.Ordered.small_finite 1 (by decide)).2).1
  · obtain ⟨e, inBatch, reward⟩ := List.mem_map.mp member
    rw [← reward]
    rcases run.episode_cases batch stream sampled e inBatch with scored | invalid | degenerate
    · exact Or.inl scored
    · rw [invalid]
      exact Or.inr penalizes.invalid
    · rw [degenerate]
      exact Or.inr penalizes.degenerate

theorem Recounts.reports {start run : Run α periods instruments}
    {trials : List (Trial α periods instruments)} (recounts : Recounts start trials run)
    (batch : List (Episode α run.shape)) (stream : WordStream)
    (sampled : run.batch = (.ok batch, stream)) (penalizes : start.scorer.reward.Penalizes) :
    Reports (run.learn batch).1 (offered trials ++ run.found batch) := by
  have later := recounts.stepped batch stream sampled
  rw [← recounts.scorer] at penalizes
  have largest := run.maxReward_cases batch stream sampled penalizes
  have attested := later.attested
  have finite := later.finite
  have best := later.best
  rw [offered_snoc, Trial.factors_mk] at attested finite best
  have score : (run.learn batch).1.bestScore =
      (earliestBest? (offered trials ++ run.found batch)).map Factor.reward := by
    rw [← best]
    rfl
  have formula : (run.learn batch).1.bestFormula =
      (earliestBest? (offered trials ++ run.found batch)).map Factor.formula := by
    rw [← best]
    rfl
  have absent : (run.learn batch).1.bestScore = none ↔ offered trials ++ run.found batch = [] := by
    rw [score, Option.map_eq_none_iff, earliestBest?_eq_none_iff _ finite]
  refine ⟨score, formula, absent, fun reward holds => ?_, fun none => ?_⟩
  · rw [score, Option.map_eq_some_iff] at holds
    obtain ⟨leader, found, rfl⟩ := holds
    have leads := (earliestBest?_eq_some_iff _ finite leader).mp found
    rcases largest with ⟨factor, member, reward⟩ | penalized
    · have inside := List.mem_append_right (offered trials) member
      rw [← reward, Scalar.Ordered.le_iff_of_finite (finite factor inside)
        (finite leader leads.mem)]
      exact leads.le factor inside
    · obtain ⟨present, -, below⟩ := (Scalar.Ordered.lt_iff ..).mp penalized
      obtain ⟨-, least, -⟩ := (attested leader leads.mem).bounds
      obtain ⟨-, there, above⟩ := (Scalar.Ordered.le_iff ..).mp least
      exact (Scalar.Ordered.le_iff ..).mpr ⟨present, there, below.le.trans above⟩
  · rcases largest with ⟨factor, member, -⟩ | penalized
    · have empty := (List.append_eq_nil_iff.mp (absent.mp none)).2
      rw [empty] at member
      cases member
    · exact penalized

/-- What a run says of its best is exact.  After any calls, whatever the run started from as its
parameters and its words: each record reports on the batches up to its own; the best is the earliest
draw with the largest reward of all batches; and what was announced are the improvements of the
batches in order, at most one for each step and with ever larger rewards, up to the best. -/
theorem best_tracked (settings : Settings α) (v : Vocabulary)
    (features : FeatureSet α periods instruments) (seed : UInt64)
    (fresh : Run α periods instruments) (created : create settings v features seed = .ok fresh)
    (learner : Learner α fresh.shape) (stream : WordStream) (calls : List Call) :
    let start := { fresh with learner := learner, stream := stream }
    let run := start.after calls
    let batches := (start.trials calls).map Trial.factors
    run.records.size = batches.length ∧
      (∀ n record, run.records[n]? = some record →
        Reports record (batches.take (n + 1)).flatten) ∧
      run.best = earliestBest? batches.flatten ∧
      run.announced = improvements [] batches ∧
      (run.announced.Pairwise fun a b =>
        a.step < b.step ∧ Scalar.lt a.reward b.reward = true) ∧
      run.announced.getLast? = run.best := by
  intro start run batches
  have unused : start.Fresh := fresh_of_create settings v features seed fresh created learner stream
  have recounts := unused.recounts_calls calls
  refine ⟨?_, fun n record listed => ?_, recounts.best, recounts.announced, ?_, recounts.last⟩
  · have sizes := congrArg List.length recounts.records
    rw [Array.length_toList, List.length_map] at sizes
    rw [List.length_map]
    exact sizes
  · rw [← Array.getElem?_toList, recounts.records, List.getElem?_map,
      Option.map_eq_some_iff] at listed
    obtain ⟨trial, found, rfl⟩ := listed
    obtain ⟨earlier, last, before, reached, sampled⟩ := trial_at start calls n trial found
    have halfway := unused.recounts_calls earlier
    rw [before, reached] at halfway
    have reports := halfway.reports trial.batch last sampled
      (penalizes_of_create settings v features seed fresh created)
    have upTo : (batches.take (n + 1)).flatten =
        offered ((start.trials calls).take n) ++ trial.run.found trial.batch := by
      rw [← Trial.factors_mk, ← offered_snoc, offered, ← List.map_take, List.take_add_one, found]
      rfl
    rw [upTo]
    exact reports
  · rw [recounts.announced]
    exact improvements_pairwise [] _ _ recounts.ordered

def pairFeatures : FeatureSet α 1 2 :=
  let panel : Panel α 1 2 := ⟨#v[#v[1, 2]]⟩
  ⟨[("RET", panel), ("TURNOVER", panel), ("VOL", panel), ("VOLUME_CHG", panel)], some panel⟩

/-- Doubles whose exponential can be computed. -/
abbrev Rough := DoubleWith DoubleWith.cutoff

def singleSettings : Settings Rough :=
  ⟨⟨1, 0, 1, 1⟩, ⟨1, 1, 1, 0, 0, 1, none, 1⟩, ⟨-5, -2, 0, 0, .sortino, 1, 1, 0⟩, {}⟩

def singleRun (learner : Learner Rough ⟨Vocabulary.size ⟨false⟩, 1, 1, 1, 0⟩)
    (stream : WordStream) : Run Rough 1 2 where
  settings := singleSettings.training
  generator := .ofVocabulary ⟨false⟩ 1
  scorer := ⟨⟨false⟩, singleSettings.reward, pairFeatures, ⟨#v[#v[1, 2]]⟩⟩
  shape := ⟨Vocabulary.size ⟨false⟩, 1, 1, 1, 0⟩
  learner := learner
  stream := stream
  baseline := none
  step := 0
  state := .idle
  records := #[]
  best := none
  hall := .empty 1
  announced := []

theorem single_created : create singleSettings ⟨false⟩ pairFeatures 0 =
    .ok (singleRun (.fresh 1 (initialParameters _ 0)) (.ofSeed (WordStream.mix 0))) := by
  have valid : singleSettings.validate = .ok () := by rfl
  simp only [create, valid]
  rfl

theorem single_found : ∃ factor : Factor Rough,
    ((singleRun (.fresh 1 .zero) ⟨fun _ => 0, 0⟩).trials [.next false]).map Trial.factors =
        [[factor]] ∧ factor.formula = "RET" ∧ Scalar.same factor.reward 10 = true := by
  have found : ((singleRun (.fresh 1 .zero) ⟨fun _ => 0, 0⟩).trials [.next false]).map
      (fun trial => trial.factors.map fun factor =>
        (factor.formula, Scalar.same factor.reward 10)) = [[("RET", true)]] := by
    decide +kernel
  obtain ⟨trial, one, drawn⟩ := List.map_eq_singleton_iff.mp found
  obtain ⟨factor, scored, given⟩ := List.map_eq_singleton_iff.mp drawn
  obtain ⟨formula, reward⟩ := Prod.mk.inj given
  exact ⟨factor, by rw [one, List.map_singleton, scored], formula, reward⟩

omit [Scalar.Bounded α] in
/-- A run that has found one factor in its only batch tells of that one. -/
theorem tracked_of_one {run : Run α periods instruments} {batches : List (List (Factor α))}
    {factor : Factor α} (one : batches = [[factor]]) (present : Scalar.isNaN factor.reward = false)
    (size : run.records.size = batches.length)
    (reports : ∀ n record, run.records[n]? = some record →
      Reports record (batches.take (n + 1)).flatten)
    (best : run.best = earliestBest? batches.flatten)
    (announced : run.announced = improvements [] batches) :
    ∃ record, run.records[0]? = some record ∧ Reports record [factor] ∧
      run.best = some factor ∧ run.announced = [factor] := by
  subst one
  have same : Scalar.le factor.reward factor.reward = true :=
    (Scalar.Ordered.le_iff _ _).mpr ⟨present, present, le_rfl⟩
  have largest : earliestBest? [factor] = some factor := by simp [earliestBest?, same]
  have listed : 0 < run.records.size := by
    rw [size]
    exact Nat.one_pos
  have first := Array.getElem?_eq_getElem listed
  refine ⟨_, first, reports 0 _ first, best.trans largest, ?_⟩
  rw [announced]
  simp [improvements, improvement?, largest]

theorem single_draw_tracked :
    ∃ fresh, create singleSettings ⟨false⟩ pairFeatures 0 = .ok fresh ∧
      ∃ (learner : Learner Rough fresh.shape) (stream : WordStream),
        let start : Run Rough 1 2 := { fresh with learner := learner, stream := stream }
        let run := start.after [.next false]
        ∃ record factor, run.records[0]? = some record ∧
          (start.trials [.next false]).map Trial.factors = [[factor]] ∧
          factor.formula = "RET" ∧ Scalar.same factor.reward 10 = true ∧
          Reports record [factor] ∧ run.best = some factor ∧ run.announced = [factor] := by
  refine ⟨_, single_created, .fresh 1 .zero, ⟨fun _ => 0, 0⟩, ?_⟩
  dsimp only
  obtain ⟨size, reports, best, announced, -, -⟩ := best_tracked singleSettings ⟨false⟩ pairFeatures
    0 _ single_created (.fresh 1 .zero) ⟨fun _ => 0, 0⟩ [.next false]
  obtain ⟨factor, batches, formula, reward⟩ := single_found
  have present := ((Scalar.Ordered.same_iff _ _).mp reward).1
  obtain ⟨record, tracked⟩ := tracked_of_one batches present size reports best announced
  exact ⟨record, factor, tracked.1, batches, formula, reward, tracked.2⟩

end Penalties

end Run

end Training

end FactorSearch
