import FactorSearch.Proofs.Policy.MaskedWeights
import FactorSearch.Proofs.Training.LifeCycle

/-!
# Steps that fail

A step fails at the first sample that cannot be drawn, or, with all samples drawn, at one that
cannot be assessed; nothing else of a step can fail.  Nothing has been learned by then: the run is
as it was, but for the words that were used up and the state, which keeps the failure for good.
-/

set_option autoImplicit false

namespace FactorSearch

open Sampling

/-! ## Where a batch breaks -/

section Batch

variable {α : Type} [Scalar α] {s : Policy.Shape} {periods instruments : Nat}

namespace Sampling.Generator

/-- The samples are drawn one after the other, from one stream to another. -/
inductive Draws (g : Generator) (p : Policy.Parameters α s) :
    WordStream → List (Sample α s) → WordStream → Prop where
  | none (stream : WordStream) : Draws g p stream [] stream
  | next {stream middle last : WordStream} {first : Sample α s} {rest : List (Sample α s)} :
      g.sample p stream = (.ok first, middle) → Draws g p middle rest last →
        Draws g p stream (first :: rest) last

theorem samples_eq_ok_iff (g : Generator) (p : Policy.Parameters α s) (count : Nat)
    (stream last : WordStream) (drawn : List (Sample α s)) :
    g.samples p count stream = (.ok drawn, last) ↔
      drawn.length = count ∧ Draws g p stream drawn last := by
  induction count generalizing stream drawn with
  | zero =>
    constructor
    · intro none
      cases none
      exact ⟨rfl, .none _⟩
    · rintro ⟨none, draws⟩
      rw [List.length_eq_zero_iff] at none
      subst none
      cases draws
      rfl
  | succ count ih =>
    constructor
    · intro given
      simp only [samples, samplesWith] at given
      split at given
      · cases given
      · rename_i first middle sampled
        split at given
        · cases given
        · rename_i rest final later
          cases given
          obtain ⟨size, draws⟩ := (ih middle rest).mp later
          exact ⟨by rw [List.length_cons, size], .next sampled draws⟩
    · rintro ⟨size, draws⟩
      cases draws with
      | none => cases size
      | @next _ middle _ first rest sampled draws =>
        have later := (ih middle rest).mpr ⟨Nat.succ.inj size, draws⟩
        simp only [sample] at sampled
        simp only [samples] at later
        simp only [samples, samplesWith, sampled, later]

/-- Drawing fails when, after fewer samples than were asked for, the next cannot be drawn. -/
theorem samples_eq_error_iff (g : Generator) (p : Policy.Parameters α s) (count : Nat)
    (stream last : WordStream) (failure : Failure) :
    g.samples p count stream = (.error failure, last) ↔
      ∃ drawn middle, drawn.length < count ∧ Draws g p stream drawn middle ∧
        g.sample p middle = (.error failure, last) := by
  induction count generalizing stream with
  | zero =>
    constructor
    · intro given
      cases given
    · rintro ⟨drawn, middle, few, _⟩
      exact absurd few (Nat.not_lt_zero _)
  | succ count ih =>
    constructor
    · intro given
      simp only [samples, samplesWith] at given
      split at given
      · rename_i refused
        cases given
        exact ⟨[], stream, Nat.succ_pos count, .none stream, refused⟩
      · rename_i first middle sampled
        split at given
        · rename_i later
          cases given
          obtain ⟨drawn, final, few, draws, refused⟩ := (ih middle).mp later
          exact ⟨first :: drawn, final, Nat.succ_lt_succ few, .next sampled draws, refused⟩
        · cases given
    · rintro ⟨drawn, middle, few, draws, refused⟩
      cases draws with
      | none =>
        simp only [sample] at refused
        simp only [samples, samplesWith, refused]
      | @next _ second _ first rest sampled draws =>
        have later := (ih second).mpr ⟨rest, middle, Nat.lt_of_succ_lt_succ few, draws, refused⟩
        simp only [sample] at sampled
        simp only [samples] at later
        simp only [samples, samplesWith, sampled, later]

end Sampling.Generator

namespace Training

/-- Which failure is reported when samples cannot be assessed.  They are assessed at the same time,
so it may be that of any of them. -/
structure FailureReport where
  choose : Failure → List Failure → Failure
  mem (first : Failure) (rest : List Failure) : choose first rest ∈ first :: rest

namespace FailureReport

def first : FailureReport where
  choose first _ := first
  mem _ _ := List.mem_cons_self

def Picks (report : FailureReport) (failures : List Failure) (failure : Failure) : Prop :=
  ∃ first rest, failures = first :: rest ∧ report.choose first rest = failure

theorem Picks.mem {report : FailureReport} {failures : List Failure} {failure : Failure}
    (picks : report.Picks failures failure) : failure ∈ failures := by
  obtain ⟨first, rest, rfl, rfl⟩ := picks
  exact report.mem first rest

end FailureReport

def failures (scorer : Scorer α periods instruments) (samples : List (Sample α s)) :
    List Failure :=
  samples.filterMap fun sample =>
    match assessDraw scorer sample.draw with
    | .error failure => some failure
    | .ok _ => none

def episodesWith (report : FailureReport) (scorer : Scorer α periods instruments)
    (samples : List (Sample α s)) : Result (List (Episode α s)) :=
  match failures scorer samples with
  | [] => episodes scorer samples
  | first :: rest => .error (report.choose first rest)

theorem mem_failures (scorer : Scorer α periods instruments) (samples : List (Sample α s))
    (failure : Failure) :
    failure ∈ failures scorer samples ↔
      ∃ sample ∈ samples, assessDraw scorer sample.draw = .error failure := by
  rw [failures, List.mem_filterMap]
  refine exists_congr fun sample => and_congr_right fun _ => ?_
  cases assessDraw scorer sample.draw <;> simp

theorem failures_cons (scorer : Scorer α periods instruments) (first : Sample α s)
    (samples : List (Sample α s)) :
    failures scorer (first :: samples) =
      match assessDraw scorer first.draw with
      | .error failure => failure :: failures scorer samples
      | .ok _ => failures scorer samples := by
  rw [failures, List.filterMap_cons]
  cases assessDraw scorer first.draw <;> rfl

/-- Assessing one sample after the other reports the first failure. -/
theorem episodesWith_first (scorer : Scorer α periods instruments)
    (samples : List (Sample α s)) :
    episodesWith .first scorer samples = episodes scorer samples := by
  induction samples with
  | nil => rfl
  | cons first samples ih =>
    rw [episodesWith, failures_cons]
    cases assessed : assessDraw scorer first.draw with
    | error failure => simp only [episodes, assessed, FailureReport.first]
    | ok verdict =>
      rw [episodesWith] at ih
      cases found : failures scorer samples with
      | nil => rfl
      | cons failure rest =>
        rw [found] at ih
        simp only [episodes, assessed, ← ih]

theorem exists_episodes_of_assessed (scorer : Scorer α periods instruments)
    (samples : List (Sample α s))
    (assessed : ∀ sample ∈ samples, ∃ verdict, assessDraw scorer sample.draw = .ok verdict) :
    ∃ batch, episodes scorer samples = .ok batch := by
  induction samples with
  | nil => exact ⟨[], rfl⟩
  | cons first samples ih =>
    obtain ⟨⟨verdict, here⟩, others⟩ := List.forall_mem_cons.mp assessed
    obtain ⟨batch, scored⟩ := ih others
    exact ⟨⟨first, verdict⟩ :: batch, by simp only [episodes, here, scored]⟩

theorem assessed_of_failures (scorer : Scorer α periods instruments)
    (samples : List (Sample α s)) (none : failures scorer samples = []) (sample : Sample α s)
    (member : sample ∈ samples) : ∃ verdict, assessDraw scorer sample.draw = .ok verdict := by
  cases assessed : assessDraw scorer sample.draw with
  | ok verdict => exact ⟨verdict, rfl⟩
  | error failure =>
    have found := (mem_failures scorer samples failure).mpr ⟨sample, member, assessed⟩
    rw [none] at found
    cases found

theorem episodesWith_eq_error_iff (report : FailureReport) (scorer : Scorer α periods instruments)
    (samples : List (Sample α s)) (failure : Failure) :
    episodesWith report scorer samples = .error failure ↔
      report.Picks (failures scorer samples) failure := by
  rw [episodesWith, FailureReport.Picks]
  cases found : failures scorer samples with
  | nil =>
    obtain ⟨batch, scored⟩ :=
      exists_episodes_of_assessed scorer samples (assessed_of_failures scorer samples found)
    simp [scored]
  | cons first rest => simp

namespace Run

/-! ## Steps with any report -/

def batchWith (run : Run α periods instruments) (report : FailureReport) :
    Result (List (Episode α run.shape)) × WordStream :=
  match run.generator.samples run.learner.parameters run.settings.batchSize run.stream with
  | (.error failure, stream) => (.error failure, stream)
  | (.ok samples, stream) => (episodesWith report run.scorer samples, stream)

def advanceWith (run : Run α periods instruments) (report : FailureReport) :
    Result (StepRecord α) × Run α periods instruments :=
  if run.state.isTerminal then
    (.error (.internal (.finishedRun run.state.description)), run)
  else
    match run.batchWith report with
    | (.error failure, stream) =>
      (.error failure, { run with stream := stream, state := .failed failure })
    | (.ok batch, stream) => (.ok (run.learn batch).1, run.stepped batch stream)

def nextWith (cancelled : Bool) (run : Run α periods instruments) (report : FailureReport) :
    Option (Result (StepRecord α)) × Run α periods instruments :=
  if run.state.isTerminal then (none, run)
  else if run.settings.stepCount ≤ run.step then (none, { run with state := .completed })
  else if cancelled then (none, { run with state := .aborted })
  else (some (run.advanceWith report).1, (run.advanceWith report).2)

theorem batchWith_first (run : Run α periods instruments) : run.batchWith .first = run.batch := by
  simp only [batchWith, episodesWith_first]
  rfl

theorem advanceWith_first (run : Run α periods instruments) :
    run.advanceWith .first = run.advance := by
  rw [advanceWith, advance, batchWith_first]
  rfl

theorem nextWith_first (run : Run α periods instruments) (cancelled : Bool) :
    run.nextWith cancelled .first = run.next cancelled := by
  rw [nextWith, next, advanceWith_first]

/-- Where the batch of a run breaks, what is reported of it, and the stream that it leaves. -/
inductive Breaks (run : Run α periods instruments) (report : FailureReport) (failure : Failure)
    (last : WordStream) : Prop where
  | drawing (drawn : List (Sample α run.shape)) (middle : WordStream) :
      drawn.length < run.settings.batchSize →
        run.generator.Draws run.learner.parameters run.stream drawn middle →
          run.generator.sample run.learner.parameters middle = (.error failure, last) →
            Breaks run report failure last
  | scoring (samples : List (Sample α run.shape)) (sample : Sample α run.shape) :
      samples.length = run.settings.batchSize →
        run.generator.Draws run.learner.parameters run.stream samples last →
          sample ∈ samples → assessDraw run.scorer sample.draw = .error failure →
            report.Picks (failures run.scorer samples) failure → Breaks run report failure last

theorem batchWith_eq_error_iff (run : Run α periods instruments) (report : FailureReport)
    (failure : Failure) (last : WordStream) :
    run.batchWith report = (.error failure, last) ↔ run.Breaks report failure last := by
  constructor
  · intro broken
    rw [batchWith] at broken
    split at broken
    · rename_i refused
      cases broken
      obtain ⟨drawn, middle, few, draws, refused⟩ :=
        (Generator.samples_eq_error_iff ..).mp refused
      exact .drawing drawn middle few draws refused
    · rename_i samples middle complete
      obtain ⟨failed, rfl⟩ := Prod.mk.inj broken
      obtain ⟨size, draws⟩ := (Generator.samples_eq_ok_iff ..).mp complete
      have picks := (episodesWith_eq_error_iff ..).mp failed
      obtain ⟨sample, member, refused⟩ := (mem_failures ..).mp picks.mem
      exact .scoring samples sample size draws member refused picks
  · intro breaks
    cases breaks with
    | drawing drawn middle few draws refused =>
      have failed := (Generator.samples_eq_error_iff ..).mpr
        ⟨drawn, middle, few, draws, refused⟩
      simp only [batchWith, failed]
    | scoring samples sample size draws _ _ picks =>
      have complete := (Generator.samples_eq_ok_iff ..).mpr ⟨size, draws⟩
      have failed := (episodesWith_eq_error_iff report run.scorer samples failure).mpr picks
      simp only [batchWith, complete, failed]

/-! ## What a failed step leaves -/

theorem advanceWith_of_breaks (run : Run α periods instruments) (report : FailureReport)
    (going : run.state.isTerminal = false) (failure : Failure) (last : WordStream)
    (breaks : run.Breaks report failure last) :
    run.advanceWith report =
      (.error failure, { run with stream := last, state := .failed failure }) := by
  have broken := (run.batchWith_eq_error_iff report failure last).mpr breaks
  simp only [advanceWith, going, Bool.false_eq_true, if_false, broken]

theorem breaks_of_advanceWith (run : Run α periods instruments) (report : FailureReport)
    (going : run.state.isTerminal = false) (failure : Failure)
    (failed : (run.advanceWith report).1 = .error failure) :
    ∃ last, run.Breaks report failure last := by
  simp only [advanceWith, going, Bool.false_eq_true, if_false] at failed
  split at failed
  · rename_i _ last broken
    cases failed
    exact ⟨last, (run.batchWith_eq_error_iff report _ last).mp broken⟩
  · cases failed

theorem advance_of_terminal (run : Run α periods instruments)
    (ends : run.state.isTerminal = true) :
    run.advance = (.error (.internal (.finishedRun run.state.description)), run) := by
  rw [advance, if_pos ends]

/-- A run that has ended stays as it is, whatever is asked of it. -/
theorem after_of_terminal (run : Run α periods instruments) (ends : run.state.isTerminal = true)
    (calls : List Call) : run.after calls = run := by
  induction calls with
  | nil => rfl
  | cons request rest ih =>
    have unmoved : (run.call request).2 = run := by
      cases request with
      | step => rw [call, run.advance_of_terminal ends]
      | next cancelled => rw [call, run.next_of_terminal ends]
    rw [after, List.foldl_cons, unmoved]
    exact ih

/-- A step of a run that goes on fails exactly when its batch breaks at some sample, whichever of
several failures is reported.  It returns the failure and changes nothing but the stream and the
state, which is then the failure; a call for the next record is such a step while there are steps
left.  Every further step is refused with the text of the failure, there is no further record, and
no call changes the run again. -/
theorem failed_step_spares (run : Run α periods instruments)
    (going : run.state.isTerminal = false) (report : FailureReport) (failure : Failure) :
    run.advance = run.advanceWith .first ∧ run.next false = run.nextWith false .first ∧
    ((run.advanceWith report).1 = .error failure ↔ ∃ last, run.Breaks report failure last) ∧
      ∀ last, run.Breaks report failure last →
        let spared := { run with stream := last, state := .failed failure }
        run.advanceWith report = (.error failure, spared) ∧
          (run.step < run.settings.stepCount →
            run.nextWith false report = (some (.error failure), spared)) ∧
          spared.advance = (.error (.internal (.finishedRun
            ("Error \x7b message: \"" ++ failure.message ++ "\" \x7d"))), spared) ∧
          (∀ cancelled, spared.next cancelled = (none, spared)) ∧
          ∀ calls, spared.after calls = spared := by
  refine ⟨run.advanceWith_first.symm, (run.nextWith_first false).symm, ?_, ?_⟩
  · constructor
    · exact run.breaks_of_advanceWith report going failure
    · rintro ⟨last, breaks⟩
      rw [run.advanceWith_of_breaks report going failure last breaks]
  · intro last breaks spared
    have failed : run.advanceWith report = (.error failure, spared) :=
      run.advanceWith_of_breaks report going failure last breaks
    have ends : spared.state.isTerminal = true := rfl
    refine ⟨failed, ?_, spared.advance_of_terminal ends, spared.next_of_terminal ends,
      spared.after_of_terminal ends⟩
    intro short
    simp only [nextWith, going, Bool.false_eq_true, if_false, not_le.mpr short, failed]

end Run

end Training

end Batch

/-! ## A run that cannot draw -/

namespace Training

/-- A fresh run of one decision whose logits are all missing. -/
def blindRun : Run Float 1 2 where
  settings := .defaults
  generator := .ofVocabulary ⟨false⟩ 1
  scorer := ⟨⟨false⟩, .defaults, ⟨[], none⟩, ⟨Vector.replicate 1 (Vector.replicate 2 0)⟩⟩
  shape := ⟨Vocabulary.size ⟨false⟩, 1, 2, 4, 1⟩
  learner := .fresh 1 { Policy.Parameters.zero with outputBias := Vector.ofFn fun _ => Scalar.nan }
  stream := ⟨fun _ => 0, 0⟩
  baseline := none
  step := 0
  state := .idle
  records := #[]
  best := none
  hall := .empty 1
  announced := []

theorem blind_breaks (report : FailureReport) :
    blindRun.Breaks report (.internal .noFiniteLogit) blindRun.stream := by
  have live : (blindRun.generator.grammar.mask .initial).any (fun allowed => allowed) = true := by
    decide
  have blind (a : Fin blindRun.shape.actions) :
      Scalar.isNaN (blindRun.learner.parameters.outputBias.get a) = true := by
    have missing : Scalar.isNaN (Scalar.nan : Float) = true := by decide +kernel
    exact (congrArg Scalar.isNaN (Vec.get_ofFn _ a)).trans missing
  have refused := Policy.forward_of_missing_bias blindRun.learner.parameters blind []
    DecodeState.initial.depth (blindRun.generator.grammar.mask .initial) (by decide) (by decide)
    (by decide)
  refine .drawing [] blindRun.stream (by decide) (.none _) ?_
  simp only [Generator.sample, Generator.sampleWith, Generator.walk, live, refused, Bool.not_true,
    Bool.false_eq_true, if_false]

theorem blind_step_spares :
    blindRun.state.isTerminal = false ∧
      blindRun.Breaks .first (.internal .noFiniteLogit) blindRun.stream ∧
        blindRun.advance = (.error (.internal .noFiniteLogit),
          { blindRun with state := .failed (.internal .noFiniteLogit) }) := by
  obtain ⟨running, -, -, spares⟩ :=
    blindRun.failed_step_spares rfl .first (.internal .noFiniteLogit)
  exact ⟨rfl, blind_breaks .first, running.trans (spares _ (blind_breaks .first)).1⟩

end Training

end FactorSearch
