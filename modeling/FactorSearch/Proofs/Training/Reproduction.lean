import Mathlib
import FactorSearch.Proofs.Evaluation.Agreement
import FactorSearch.Proofs.Formula.Canonical
import FactorSearch.Proofs.Training.LossGradient
import FactorSearch.Training.Run

/-!
# Reproducing what a run found

A factor enters a run in one place: it was drawn as a valid program and scored by the run's scorer.
The formula of such a program parses back to it, so the miner that built the run scores the text
as the run scored the draw.  Everything a run keeps later is one of the factors that entered it.
-/

set_option autoImplicit false

namespace FactorSearch

section Reproduction

variable {α : Type} [Scalar α] {periods instruments : Nat}

/-! ## The hall holds what it was offered -/

namespace HallOfFame

theorem mem_insertRanked (factor other : Factor α) (ranked : List (Factor α)) :
    other ∈ insertRanked factor ranked ↔ other = factor ∨ other ∈ ranked := by
  induction ranked with
  | nil => simp [insertRanked]
  | cons head rest ih =>
    simp only [insertRanked]
    split
    · rw [List.mem_cons]
    · rw [List.mem_cons, ih, List.mem_cons]
      exact or_left_comm

theorem mem_offer (hall : HallOfFame α) (factor other : Factor α)
    (held : other ∈ (hall.offer factor).2.factors) : other ∈ hall.factors ∨ other = factor := by
  simp only [offer] at held
  split at held
  · have ranked := List.mem_of_mem_take held
    exact ((mem_insertRanked factor other hall.factors).mp ranked).symm
  · exact Or.inl held

theorem mem_offerAll (hall : HallOfFame α) (offered : List (Factor α)) (other : Factor α)
    (held : other ∈ (hall.offerAll offered).factors) : other ∈ hall.factors ∨ other ∈ offered := by
  induction offered generalizing hall with
  | nil => exact Or.inl held
  | cons first rest ih =>
    rcases ih (hall.offer first).2 held with before | later
    · rcases hall.mem_offer first other before with before | rfl
      · exact Or.inl before
      · exact Or.inr List.mem_cons_self
    · exact Or.inr (List.mem_cons_of_mem _ later)

end HallOfFame

/-! ## Draws and their programs -/

namespace Sampling.Generator

variable {s : Policy.Shape}

theorem validate_of_drawOf (g : Generator) (tokens : List Nat) (open? : Option Nat)
    (program : Program) (formula : String)
    (drawn : g.drawOf tokens open? = .valid program formula) :
    program.validate g.vocabulary g.limit = .ok formula := by
  cases open? with
  | some depth => cases drawn
  | none =>
    simp only [drawOf] at drawn
    split at drawn
    · rename_i found valid
      cases drawn
      exact valid
    · cases drawn

theorem validate_of_samplesWith {pick : List α → UInt64 → Result Nat} (g : Generator)
    (p : Policy.Parameters α s) (count : Nat) (stream last : WordStream)
    (samples : List (Sample α s))
    (sampled : g.samplesWith pick p count stream = (.ok samples, last)) (sample : Sample α s)
    (member : sample ∈ samples) (program : Program) (formula : String)
    (drawn : sample.draw = .valid program formula) :
    program.validate g.vocabulary g.limit = .ok formula := by
  induction count generalizing stream samples with
  | zero =>
    cases sampled
    cases member
  | succ count ih =>
    simp only [samplesWith] at sampled
    split at sampled
    · cases sampled
    · rename_i first next one
      split at sampled
      · cases sampled
      · rename_i rest finish others
        cases sampled
        rcases List.mem_cons.mp member with rfl | later
        · simp only [sampleWith] at one
          split at one
          · cases one
            exact g.validate_of_drawOf _ _ program formula drawn
          · cases one
        · exact ih next rest others later

end Sampling.Generator

namespace Training

open Sampling

def Reproduces (m : Miner α periods instruments) (factor : Factor α) : Prop :=
  m.evaluate (.text factor.formula) = .ok (.scored factor.formula factor.metrics factor.reward)

/-- What scoring gave a valid program, the miner gives its formula. -/
theorem reproduces_of_assess (m : Miner α periods instruments)
    (fits : m.maxLength ≤ Formula.sizeLimit) (program : Program) (factor : Factor α)
    (valid : program.validate m.vocabulary m.maxLength = .ok factor.formula)
    (scored : m.scorer.assess program = .ok (.scored factor.metrics factor.reward)) :
    Reproduces m factor := by
  obtain ⟨short, tree, rfl, rendered⟩ := (Program.validate_eq_ok_iff ..).mp valid
  have size : tree.size ≤ Formula.sizeLimit := by
    rw [tree.length_postorder] at short
    exact Nat.le_trans short fits
  have parsed : Formula.parse m.vocabulary factor.formula = .ok tree.postorder := by
    rw [← rendered]
    exact (Formula.parse_eq_ok_iff ..).mpr ⟨tree, Formula.renders_render tree, size, rfl⟩
  rw [Reproduces, m.evaluate_text_of_parse factor.formula _ parsed]
  simp only [Miner.evaluateProgram, valid, scored]
  rfl

/-! ## What enters a run in a step -/

theorem episodes_assessed {s : Policy.Shape} (scorer : Scorer α periods instruments)
    (samples : List (Sample α s)) (batch : List (Episode α s))
    (assessed : episodes scorer samples = .ok batch) (e : Episode α s) (member : e ∈ batch) :
    e.sample ∈ samples ∧ assessDraw scorer e.sample.draw = .ok e.verdict := by
  induction samples generalizing batch with
  | nil =>
    cases assessed
    cases member
  | cons sample rest ih =>
    simp only [episodes] at assessed
    split at assessed
    · cases assessed
    · rename_i verdict first
      split at assessed
      · cases assessed
      · rename_i others later
        cases assessed
        rcases List.mem_cons.mp member with rfl | member
        · exact ⟨List.mem_cons_self, first⟩
        · obtain ⟨drawn, scored⟩ := ih others later member
          exact ⟨List.mem_cons_of_mem _ drawn, scored⟩

namespace Run

/-- A factor that is the best of the run, in its hall, or was announced. -/
def Keeps (run : Run α periods instruments) (factor : Factor α) : Prop :=
  run.best = some factor ∨ factor ∈ run.hall.factors ∨ factor ∈ run.announced

/-- The factors of a batch: those of its episodes that drew a valid program and were scored. -/
def found (run : Run α periods instruments) (batch : List (Episode α run.shape)) :
    List (Factor α) :=
  batch.filterMap (factor? run.step)

omit [Scalar α] in
theorem factor?_eq_some {s : Policy.Shape} (step : Nat) (e : Episode α s) (factor : Factor α)
    (some : factor? step e = some factor) :
    ∃ program, e.sample.draw = .valid program factor.formula ∧
      e.verdict = .scored factor.metrics factor.reward := by
  simp only [factor?] at some
  split at some
  · rename_i program formula metrics reward drawn scored
    cases some
    exact ⟨program, drawn, scored⟩
  · cases some

omit [Scalar α] in
theorem mem_of_foldl_choice (choose : Option (Factor α) → Factor α → Option (Factor α))
    (keeps : ∀ leader factor, choose leader factor = leader ∨ choose leader factor = some factor)
    (factors : List (Factor α)) (start : Option (Factor α)) (leader : Factor α)
    (ends : factors.foldl choose start = some leader) :
    start = some leader ∨ leader ∈ factors := by
  induction factors generalizing start with
  | nil => exact Or.inl ends
  | cons first rest ih =>
    rcases ih _ ends with here | later
    · rcases keeps start first with kept | taken
      · exact Or.inl (kept.symm.trans here)
      · cases taken.symm.trans here
        exact Or.inr List.mem_cons_self
    · exact Or.inr (List.mem_cons_of_mem _ later)

theorem leader?_mem (factors : List (Factor α)) (leader : Factor α)
    (leads : leader? factors = some leader) : leader ∈ factors := by
  have ends := mem_of_foldl_choice _ ?keeps factors none leader leads
  case keeps =>
    intro leader factor
    cases leader with
    | none => exact Or.inr rfl
    | some best =>
      dsimp only
      split
      · exact Or.inr rfl
      · exact Or.inl rfl
  rcases ends with absent | member
  · cases absent
  · exact member

theorem track_cases (run : Run α periods instruments) (factors : List (Factor α)) :
    run.track factors = { run with hall := run.hall.offerAll factors } ∨
      ∃ leader ∈ factors, run.track factors =
        { run with
          hall := run.hall.offerAll factors
          best := some leader
          announced := run.announced ++ [leader] } := by
  cases leads : leader? factors with
  | none => exact Or.inl (by simp only [track, leads])
  | some leader =>
    have member := leader?_mem factors leader leads
    cases before : run.best with
    | none =>
      simp only [track, leads, before, Bool.false_eq_true, if_false]
      exact Or.inr ⟨leader, member, rfl⟩
    | some best =>
      simp only [track, leads, before]
      split
      · exact Or.inl rfl
      · exact Or.inr ⟨leader, member, rfl⟩

theorem track_keeps (run : Run α periods instruments) (factors : List (Factor α))
    (factor : Factor α) (kept : (run.track factors).Keeps factor) :
    run.Keeps factor ∨ factor ∈ factors := by
  have inHall : factor ∈ (run.hall.offerAll factors).factors →
      run.Keeps factor ∨ factor ∈ factors := by
    intro held
    rcases run.hall.mem_offerAll factors factor held with before | new
    · exact Or.inl (Or.inr (Or.inl before))
    · exact Or.inr new
  rcases run.track_cases factors with tracked | ⟨leader, member, tracked⟩
  · rw [tracked] at kept
    rcases kept with best | held | announced
    · exact Or.inl (Or.inl best)
    · exact inHall held
    · exact Or.inl (Or.inr (Or.inr announced))
  · rw [tracked] at kept
    rcases kept with best | held | announced
    · cases best
      exact Or.inr member
    · exact inHall held
    · rcases List.mem_append.mp announced with before | new
      · exact Or.inl (Or.inr (Or.inr before))
      · rw [List.mem_singleton.mp new]
        exact Or.inr member

theorem track_fixed (run : Run α periods instruments) (factors : List (Factor α)) :
    (run.track factors).generator = run.generator ∧ (run.track factors).scorer = run.scorer := by
  rcases run.track_cases factors with tracked | ⟨leader, _, tracked⟩
  · rw [tracked]
    exact ⟨rfl, rfl⟩
  · rw [tracked]
    exact ⟨rfl, rfl⟩

/-- A step leaves the generator and the scorer alone, and takes in only factors of its batch. -/
theorem advance_cases (run : Run α periods instruments) :
    run.advance.2.generator = run.generator ∧ run.advance.2.scorer = run.scorer ∧
      ∀ factor, run.advance.2.Keeps factor → run.Keeps factor ∨
        ∃ batch stream, run.batch = (.ok batch, stream) ∧ factor ∈ run.found batch := by
  simp only [advance]
  split
  · exact ⟨rfl, rfl, fun factor => Or.inl⟩
  · split
    · exact ⟨rfl, rfl, fun factor => Or.inl⟩
    · rename_i batch stream sampled
      refine ⟨(track_fixed _ _).1, (track_fixed _ _).2, ?_⟩
      intro factor kept
      rcases track_keeps _ _ factor kept with before | new
      · exact Or.inl before
      · exact Or.inr ⟨batch, stream, sampled, new⟩

/-- The runs that a run can become, by steps that are forced or asked for. -/
inductive Reachable (start : Run α periods instruments) : Run α periods instruments → Prop where
  | start : Reachable start start
  | advance (run : Run α periods instruments) :
      Reachable start run → Reachable start run.advance.2
  | next (cancelled : Bool) (run : Run α periods instruments) :
      Reachable start run → Reachable start (run.next cancelled).2

/-! ## Every factor reproduces -/

/-- A run that draws and scores as the miner does, and has kept only what the miner reproduces. -/
structure Faithful (m : Miner α periods instruments) (run : Run α periods instruments) : Prop where
  vocabulary : run.generator.vocabulary = m.vocabulary
  limit : run.generator.limit = m.maxLength
  scorer : run.scorer = m.scorer
  kept : ∀ factor, run.Keeps factor → Reproduces m factor

theorem found_scored (run : Run α periods instruments) (batch : List (Episode α run.shape))
    (stream : WordStream) (sampled : run.batch = (.ok batch, stream)) (factor : Factor α)
    (member : factor ∈ run.found batch) : ∃ program,
      program.validate run.generator.vocabulary run.generator.limit = .ok factor.formula ∧
        run.scorer.assess program = .ok (.scored factor.metrics factor.reward) := by
  obtain ⟨e, inBatch, some⟩ := List.mem_filterMap.mp member
  obtain ⟨program, drawn, verdict⟩ := factor?_eq_some run.step e factor some
  simp only [Run.batch] at sampled
  split at sampled
  · cases sampled
  · rename_i samples last draws
    obtain ⟨inSamples, scored⟩ := episodes_assessed run.scorer samples batch
      (congrArg Prod.fst sampled) e inBatch
    rw [drawn, assessDraw, verdict] at scored
    exact ⟨program, run.generator.validate_of_samplesWith _ _ _ _ _ draws e.sample inSamples
      program factor.formula drawn, scored⟩

theorem Faithful.found {m : Miner α periods instruments} {run : Run α periods instruments}
    (faithful : Faithful m run) (fits : m.maxLength ≤ Formula.sizeLimit)
    (batch : List (Episode α run.shape)) (stream : WordStream)
    (sampled : run.batch = (.ok batch, stream)) (factor : Factor α)
    (member : factor ∈ run.found batch) : Reproduces m factor := by
  obtain ⟨program, valid, scored⟩ := run.found_scored batch stream sampled factor member
  rw [faithful.vocabulary, faithful.limit] at valid
  rw [faithful.scorer] at scored
  exact reproduces_of_assess m fits program factor valid scored

theorem Faithful.advance {m : Miner α periods instruments} {run : Run α periods instruments}
    (faithful : Faithful m run) (fits : m.maxLength ≤ Formula.sizeLimit) :
    Faithful m run.advance.2 := by
  obtain ⟨generator, scorer, enters⟩ := advance_cases run
  refine ⟨?_, ?_, scorer.trans faithful.scorer, ?_⟩
  · rw [generator, faithful.vocabulary]
  · rw [generator, faithful.limit]
  · intro factor kept
    rcases enters factor kept with before | ⟨batch, stream, sampled, member⟩
    · exact faithful.kept factor before
    · exact faithful.found fits batch stream sampled factor member

theorem Faithful.next {m : Miner α periods instruments} {run : Run α periods instruments}
    (faithful : Faithful m run) (fits : m.maxLength ≤ Formula.sizeLimit) (cancelled : Bool) :
    Faithful m (run.next cancelled).2 := by
  have closed : ∀ state, Faithful m { run with state := state } := fun _ =>
    ⟨faithful.vocabulary, faithful.limit, faithful.scorer, faithful.kept⟩
  simp only [Run.next]
  split
  · exact faithful
  · split
    · exact closed _
    · split
      · exact closed _
      · exact faithful.advance fits

theorem Faithful.reachable {m : Miner α periods instruments} {start run : Run α periods instruments}
    (faithful : Faithful m start) (fits : m.maxLength ≤ Formula.sizeLimit)
    (reached : Reachable start run) : Faithful m run := by
  induction reached with
  | start => exact faithful
  | advance run _ ih => exact ih.advance fits
  | next cancelled run _ ih => exact ih.next fits cancelled

end Run

/-- The run that a miner starts without another choice of features draws and scores as the miner
does. -/
theorem faithful_of_train (settings : Settings α) (features : FeatureSet α periods instruments)
    (m : Miner α periods instruments) (created : Miner.create settings features = .ok m)
    (options : Options) (kept : options.sentiment = none) (seed : UInt64)
    (fresh : Run α periods instruments) (trained : m.train options seed = .ok fresh)
    (learner : Learner α fresh.shape) (stream : WordStream) :
    Run.Faithful m { fresh with learner := learner, stream := stream } := by
  simp only [Miner.create, Scorer.create, Result.bind_eq_ok_iff] at created
  obtain ⟨_, _, _, _, scorer, ⟨forward, returns, built⟩, made⟩ := created
  cases Except.ok.inj built
  cases Except.ok.inj made
  simp only [Miner.train, Run.create, Scorer.create, Options.applyTo, kept, Option.getD_none,
    Result.bind_eq_ok_iff] at trained
  obtain ⟨_, _, _, _, shape, _, again, ⟨other, same, rebuilt⟩, started⟩ := trained
  have returned : other = forward := Except.ok.inj (same.symm.trans returns)
  subst returned
  cases Except.ok.inj rebuilt
  cases Except.ok.inj started
  refine ⟨rfl, rfl, rfl, ?_⟩
  rintro factor (best | held | announced)
  · cases best
  · cases held
  · cases announced

theorem maxLength_le_of_create (settings : Settings α) (features : FeatureSet α periods instruments)
    (m : Miner α periods instruments) (created : Miner.create settings features = .ok m) :
    m.maxLength ≤ Formula.sizeLimit := by
  have kept := (Miner.holds_of_create settings features m created).1
  simp only [Miner.create, Settings.validate, ModelSettings.validate,
    Result.bind_eq_ok_iff] at created
  obtain ⟨_, ⟨_, model, _⟩, _⟩ := created
  split at model
  · cases model
  · split at model
    · cases model
    · split at model
      · cases model
      · rename_i within
        rw [Miner.maxLength, kept]
        exact Nat.not_lt.mp within

/-- What training found, evaluation confirms: whatever a run started from holds as its parameters
and its words, in every state that it reaches, the formula of each factor it keeps is scored by the
miner with the metrics and the reward of the factor. -/
theorem kept_factor_reproduces (settings : Settings α)
    (features : FeatureSet α periods instruments) (m : Miner α periods instruments)
    (created : Miner.create settings features = .ok m) (options : Options)
    (kept : options.sentiment = none) (seed : UInt64) (fresh run : Run α periods instruments)
    (trained : m.train options seed = .ok fresh) (learner : Learner α fresh.shape)
    (stream : WordStream)
    (reached : Run.Reachable { fresh with learner := learner, stream := stream } run)
    (factor : Factor α)
    (holds : run.best = some factor ∨ factor ∈ run.hall.factors ∨ factor ∈ run.announced) :
    m.evaluate (.text factor.formula) =
      .ok (.scored factor.formula factor.metrics factor.reward) :=
  ((faithful_of_train settings features m created options kept seed fresh trained learner
    stream).reachable (maxLength_le_of_create settings features m created) reached).kept
      factor holds

/-! A run of one step over programs of one token, whose words are all zero. -/

noncomputable def leafSettings : Settings ℝ :=
  ⟨⟨8, 1, 2, 1⟩, ⟨1, 1, 1, 0, 0, 1, none, 1⟩, ⟨-5, -2, 0, 0, .sortino, 1, 1, 0⟩, {}⟩

noncomputable def leafFeatures : FeatureSet ℝ 1 2 :=
  let panel : Panel ℝ 1 2 := ⟨#v[#v[1, 2]]⟩
  ⟨[("RET", panel), ("TURNOVER", panel), ("VOL", panel), ("VOLUME_CHG", panel)], some panel⟩

noncomputable def leafScorer : Scorer ℝ 1 2 :=
  ⟨⟨false⟩, leafSettings.reward, leafFeatures, ⟨#v[#v[1, 2]]⟩⟩

theorem leafSettings_valid : leafSettings.validate = .ok () := by
  simp only [Settings.validate, leafSettings, ModelSettings.validate, TrainingSettings.validate,
    RewardSettings.validate, RewardSettings.isRatio, FeatureSettings.validate, Formula.sizeLimit,
    bind, Except.bind, Scalar.lt_real, Scalar.le_real, Scalar.isFinite_real, Scalar.zero_real,
    Scalar.one_real]
  norm_num

theorem leaf_created : Miner.create leafSettings leafFeatures = .ok ⟨leafSettings, leafScorer⟩ := by
  rw [Miner.create, leafSettings_valid]
  rfl

theorem leaf_classified :
    Degeneracy.classify? leafSettings.reward.limits (⟨#v[#v[1, 2]]⟩ : Panel ℝ 1 2) = none := by
  have varies : 0 < Statistics.deviation [(1 : ℝ), 2] := by
    norm_num [Statistics.deviation, Statistics.mean, Scalar.total_real, Scalar.square]
  have cells : Panel.cells (⟨#v[#v[1, 2]]⟩ : Panel ℝ 1 2) = [1, 2] := rfl
  have rows : Panel.toRows (⟨#v[#v[1, 2]]⟩ : Panel ℝ 1 2) = [[1, 2]] := rfl
  norm_num [Degeneracy.classify?, Degeneracy.isFlat, cells, rows, varies, leafSettings,
    RewardSettings.limits]

theorem leaf_scored : ∃ metrics reward,
    leafScorer.assess [.ofNat 24] = .ok (.scored metrics reward) := by
  have ran : leafScorer.assess [.ofNat 24] = .ok (leafScorer.assessFactor ⟨#v[#v[1, 2]]⟩) := by rfl
  rw [ran]
  simp only [leafScorer, Scorer.assessFactor, leaf_classified, Backtest.score?,
    Scalar.isFinite_real, if_true]
  exact ⟨_, _, rfl⟩

noncomputable def leafRun (learner : Learner ℝ ⟨Vocabulary.size ⟨false⟩, 1, 2, 4, 1⟩)
    (stream : WordStream) : Run ℝ 1 2 where
  settings := leafSettings.training
  generator := .ofVocabulary ⟨false⟩ 1
  scorer := leafScorer
  shape := ⟨Vocabulary.size ⟨false⟩, 1, 2, 4, 1⟩
  learner := learner
  stream := stream
  baseline := none
  step := 0
  state := .idle
  records := #[]
  best := none
  hall := .empty 1
  announced := []

theorem leaf_trained :
    Miner.train ⟨leafSettings, leafScorer⟩ {} 0 =
      .ok (leafRun (.fresh 1 (initialParameters _ 0)) (.ofSeed (WordStream.mix 0))) := by
  have valid : (Options.applyTo {} leafSettings).validate = .ok () := leafSettings_valid
  simp only [Miner.train, Run.create, valid]
  rfl

/-- With words that are all zero the only token drawn is the return. -/
theorem leaf_drawn (p : Policy.Parameters ℝ ⟨Vocabulary.size ⟨false⟩, 1, 2, 4, 1⟩) :
    ∃ decisions last, (Generator.ofVocabulary ⟨false⟩ 1).samples p 1 ⟨fun _ => 0, 0⟩ =
      (.ok [⟨.valid [.ofNat 24] "RET", decisions⟩], last) := by
  have first : Leads ⟨Vocabulary.size ⟨false⟩, 1, 2, 4, 1⟩ (Grammar.ofVocabulary ⟨false⟩ 1)
      .initial [] 24 := ⟨by decide, by decide, by decide, by decide, by decide⟩
  have second : Leads ⟨Vocabulary.size ⟨false⟩, 1, 2, 4, 1⟩ (Grammar.ofVocabulary ⟨false⟩ 1)
      ⟨1, 1⟩ [24] 28 := ⟨by decide, by decide, by decide, by decide, by decide⟩
  have moves : (Grammar.ofVocabulary ⟨false⟩ 1).advance? .initial 24 = some ⟨1, 1⟩ := by decide
  have stop : 28 = (Grammar.ofVocabulary ⟨false⟩ 1).stop := by decide
  obtain ⟨live, passed, drawn⟩ := first.drawn p
  obtain ⟨still, after, stopped⟩ := second.drawn p
  have walked : ∃ decisions last, Generator.walk Choice.draw (Grammar.ofVocabulary ⟨false⟩ 1) p 2
      .initial [] ⟨fun _ => 0, 0⟩ = (.ok ⟨decisions, [24], none⟩, last) := by
    simp only [Generator.walk, live, passed, drawn, moves, still, after, stopped, ← stop,
      WordStream.next, List.nil_append, Bool.not_true, Bool.false_eq_true, if_false, if_true]
    exact ⟨_, _, rfl⟩
  obtain ⟨decisions, last, walked⟩ := walked
  have spelled : (Generator.ofVocabulary ⟨false⟩ 1).drawOf [24] none =
      .valid [.ofNat 24] "RET" := by decide +kernel
  refine ⟨decisions, last, ?_⟩
  simp only [Generator.samples, Generator.samplesWith]
  rw [Generator.sampleWith_of_walk (Generator.ofVocabulary ⟨false⟩ 1) walked]
  simp only [spelled]

theorem leaf_batch : ∃ metrics reward decisions last,
    (leafRun (.fresh 1 .zero) ⟨fun _ => 0, 0⟩).batch =
      (.ok [⟨⟨.valid [.ofNat 24] "RET", decisions⟩, .scored metrics reward⟩], last) := by
  obtain ⟨metrics, reward, scored⟩ := leaf_scored
  obtain ⟨decisions, last, drawn⟩ := leaf_drawn .zero
  have assessed : assessDraw leafScorer (.valid [.ofNat 24] "RET") =
      .ok (.scored metrics reward) := scored
  refine ⟨metrics, reward, decisions, last, ?_⟩
  simp only [Run.batch, leafRun, leafSettings, Learner.fresh]
  rw [drawn]
  simp only [episodes, assessed]

theorem leaf_reproduces :
    ∃ (m : Miner ℝ 1 2) (fresh run : Run ℝ 1 2) (learner : Learner ℝ fresh.shape)
      (factor : Factor ℝ), Miner.create leafSettings leafFeatures = .ok m ∧
      m.train {} 0 = .ok fresh ∧
      Run.Reachable { fresh with learner := learner, stream := ⟨fun _ => 0, 0⟩ } run ∧
      run.best = some factor ∧ factor.formula = "RET" ∧
      m.evaluate (.text "RET") = .ok (.scored "RET" factor.metrics factor.reward) := by
  obtain ⟨metrics, reward, decisions, last, sampled⟩ := leaf_batch
  have best : (leafRun (.fresh 1 .zero) ⟨fun _ => 0, 0⟩).advance.2.best =
      some ⟨"RET", reward, metrics, 0⟩ := by
    simp only [Run.advance, sampled]
    rfl
  have reached : Run.Reachable (leafRun (.fresh 1 .zero) ⟨fun _ => 0, 0⟩)
      (leafRun (.fresh 1 .zero) ⟨fun _ => 0, 0⟩).advance.2 := .advance _ .start
  exact ⟨_, _, _, .fresh 1 .zero, _, leaf_created, leaf_trained, reached, best, rfl,
    kept_factor_reproduces leafSettings leafFeatures _ leaf_created {} rfl 0 _ _ leaf_trained
      (.fresh 1 .zero) ⟨fun _ => 0, 0⟩ reached _ (Or.inl best)⟩

end Training

end Reproduction

end FactorSearch
