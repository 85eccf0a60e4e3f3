import FactorSearch.Proofs.Training.Reproduction

/-!
# Calls to a run

A run is driven by calls: a step that is forced, or the next record, with a cancellation seen or
not.  A call either takes a step, from a batch that it drew and scored, or leaves everything but the
state and the stream as it was.  Taking records through an iterator is a sequence of such calls.
-/

set_option autoImplicit false

namespace FactorSearch

namespace Training

inductive Call where
  | step
  | next (cancelled : Bool)

namespace Run

variable {α : Type} [Scalar α] {periods instruments : Nat}

/-! ## What a call can do -/

def stepped (run : Run α periods instruments) (batch : List (Episode α run.shape))
    (stream : WordStream) : Run α periods instruments :=
  { (run.learn batch).2 with
    stream := stream
    step := run.step + 1
    state := if run.settings.stepCount ≤ run.step + 1 then .completed else .running run.step }

/-- A step is refused by a run that has ended, fails and ends the run, or succeeds. -/
theorem advance_outcomes (run : Run α periods instruments) :
    (run.state.isTerminal = true ∧ ∃ failure, run.advance = (.error failure, run)) ∨
      (run.state.isTerminal = false ∧ ∃ failure stream, run.advance =
        (.error failure, { run with stream := stream, state := .failed failure })) ∨
      (run.state.isTerminal = false ∧ ∃ batch stream, run.batch = (.ok batch, stream) ∧
        run.advance = (.ok (run.learn batch).1, run.stepped batch stream)) := by
  cases ended : run.state.isTerminal with
  | true => exact Or.inl ⟨rfl, _, by rw [advance, if_pos ended]⟩
  | false =>
    right
    cases sampled : run.batch with
    | mk drawn stream =>
      cases drawn with
      | error failure =>
        left
        exact ⟨rfl, failure, stream, by simp [advance, ended, sampled]⟩
      | ok batch =>
        right
        exact ⟨rfl, batch, stream, rfl, by simp [advance, ended, sampled, stepped]⟩

/-- The next record: none from a run that has ended, that has made all its steps, or that sees a
cancellation, in this order; otherwise what a step gives. -/
theorem next_outcomes (run : Run α periods instruments) (cancelled : Bool) :
    (run.state.isTerminal = true ∧ run.next cancelled = (none, run)) ∨
      (run.state.isTerminal = false ∧ run.settings.stepCount ≤ run.step ∧
        run.next cancelled = (none, { run with state := .completed })) ∨
      (run.state.isTerminal = false ∧ run.step < run.settings.stepCount ∧ cancelled = true ∧
        run.next cancelled = (none, { run with state := .aborted })) ∨
      (run.state.isTerminal = false ∧ run.step < run.settings.stepCount ∧ cancelled = false ∧
        run.next cancelled = (some run.advance.1, run.advance.2)) := by
  cases ended : run.state.isTerminal with
  | true => exact Or.inl ⟨rfl, by simp [next, ended]⟩
  | false =>
    right
    by_cases spent : run.settings.stepCount ≤ run.step
    · exact Or.inl ⟨rfl, spent, by simp [next, ended, spent]⟩
    · right
      cases cancelled with
      | true => exact Or.inl ⟨rfl, Nat.not_le.mp spent, rfl, by simp [next, ended, spent]⟩
      | false => exact Or.inr ⟨rfl, Nat.not_le.mp spent, rfl, by simp [next, ended, spent]⟩

def call (run : Run α periods instruments) :
    Call → Option (Result (StepRecord α)) × Run α periods instruments
  | .step => (some run.advance.1, run.advance.2)
  | .next cancelled => run.next cancelled

/-- A call that takes no step leaves everything but the state and the stream. -/
theorem call_outcomes (run : Run α periods instruments) (request : Call) :
    (∃ item state stream, run.call request =
        (item, { run with state := state, stream := stream }) ∧
          ∀ record, item ≠ some (.ok record)) ∨
      (∃ batch stream, run.batch = (.ok batch, stream) ∧
        run.call request = (some (.ok (run.learn batch).1), run.stepped batch stream)) := by
  have forced : (∃ item state stream, (some run.advance.1, run.advance.2) =
        (item, { run with state := state, stream := stream }) ∧
          ∀ record, item ≠ some (.ok record)) ∨
      (∃ batch stream, run.batch = (.ok batch, stream) ∧
        (some run.advance.1, run.advance.2) =
          (some (.ok (run.learn batch).1), run.stepped batch stream)) := by
    rcases run.advance_outcomes with ⟨_, failure, refused⟩ | ⟨_, failure, stream, failed⟩ |
      ⟨_, batch, stream, sampled, learned⟩
    · rw [refused]
      exact Or.inl ⟨_, run.state, run.stream, rfl, by simp⟩
    · rw [failed]
      exact Or.inl ⟨_, _, _, rfl, by simp⟩
    · rw [learned]
      exact Or.inr ⟨batch, stream, sampled, rfl⟩
  cases request with
  | step => exact forced
  | next cancelled =>
    rcases run.next_outcomes cancelled with ⟨_, quiet⟩ | ⟨_, _, closed⟩ | ⟨_, _, _, closed⟩ |
      ⟨_, _, _, taken⟩
    · exact Or.inl ⟨none, run.state, run.stream, quiet, by simp⟩
    · exact Or.inl ⟨none, .completed, run.stream, closed, by simp⟩
    · exact Or.inl ⟨none, .aborted, run.stream, closed, by simp⟩
    · simp only [call, taken]
      exact forced

/-! ## Lists of calls -/

def after (run : Run α periods instruments) (calls : List Call) : Run α periods instruments :=
  calls.foldl (fun run request => (run.call request).2) run

def returned (run : Run α periods instruments) : List Call → List (Option (Result (StepRecord α)))
  | [] => []
  | request :: rest => (run.call request).1 :: (run.call request).2.returned rest

theorem after_snoc (run : Run α periods instruments) (calls : List Call) (request : Call) :
    run.after (calls ++ [request]) = ((run.after calls).call request).2 := by
  rw [after, List.foldl_append]
  rfl

theorem returned_snoc (run : Run α periods instruments) (calls : List Call) (request : Call) :
    run.returned (calls ++ [request]) =
      run.returned calls ++ [((run.after calls).call request).1] := by
  induction calls generalizing run with
  | nil => rfl
  | cons first rest ih =>
    rw [List.cons_append, returned, ih, returned, List.cons_append]
    rfl

/-- Records taken through an iterator are those that the calls of a list return. -/
theorem take_eq_calls (signal : StepRecord α → Bool) (limit : Nat) (cancelled : Bool)
    (run : Run α periods instruments) :
    ∃ flags : List Bool,
      (run.take signal limit cancelled).run = run.after (flags.map Call.next) ∧
        (run.take signal limit cancelled).items =
          (run.returned (flags.map Call.next)).reduceOption := by
  induction limit generalizing cancelled run with
  | zero => exact ⟨[], rfl, rfl⟩
  | succ limit ih =>
    cases answer : run.next cancelled with
    | mk item later =>
      cases item with
      | none =>
        refine ⟨[cancelled], ?_, ?_⟩ <;> simp [take, answer, after, returned, call]
      | some item =>
        cases item with
        | error failure =>
          refine ⟨[cancelled], ?_, ?_⟩ <;> simp [take, answer, after, returned, call]
        | ok record =>
          obtain ⟨flags, reached, yielded⟩ := ih (cancelled || signal record) later
          refine ⟨cancelled :: flags, ?_, ?_⟩
          · simp [take, answer, reached, after, call]
          · simp [take, answer, yielded, returned, call]

/-! ## What a step changes -/

theorem track_frame (run : Run α periods instruments) (factors : List (Factor α)) :
    run.track factors =
      { run with
        hall := run.hall.offerAll factors
        best := (run.track factors).best
        announced := (run.track factors).announced } := by
  rcases run.track_cases factors with tracked | ⟨leader, _, tracked⟩
  · rw [tracked]
  · rw [tracked]

def updated (run : Run α periods instruments) (batch : List (Episode α run.shape)) :
    Run α periods instruments :=
  let baseline := nextBaseline run.settings run.baseline
    (Scalar.total (batch.map Episode.reward) / batchSize batch)
  { run with
    baseline := some baseline
    learner := (run.learner.update run.settings baseline batch).2 }

section Stepped

variable (run : Run α periods instruments) (batch : List (Episode α run.shape))
  (stream : WordStream)

theorem learn_eq : (run.learn batch).2 =
    { (run.updated batch).track (run.found batch) with
      records := run.records.push (run.learn batch).1 } := by
  have kept : ((run.updated batch).track (run.found batch)).records = run.records := by
    rw [track_frame]
    rfl
  rw [← kept]
  rfl

theorem stepped_settings : (run.stepped batch stream).settings = run.settings := by
  rw [stepped, learn_eq, track_frame]
  rfl

theorem stepped_fixed : (run.stepped batch stream).generator = run.generator ∧
    (run.stepped batch stream).scorer = run.scorer := by
  rw [stepped, learn_eq, track_frame]
  exact ⟨rfl, rfl⟩

theorem stepped_records :
    (run.stepped batch stream).records = run.records.push (run.learn batch).1 := by
  rw [stepped, learn_eq]

theorem stepped_hall :
    (run.stepped batch stream).hall = run.hall.offerAll (run.found batch) := by
  rw [stepped, learn_eq, track_frame]
  rfl

end Stepped

/-! ## The batches that calls draw -/

/-- A batch that a run drew and scored for a step. -/
structure Trial (α : Type) (periods instruments : Nat) where
  run : Run α periods instruments
  batch : List (Episode α run.shape)

namespace Trial

def factors (trial : Trial α periods instruments) : List (Factor α) :=
  trial.run.found trial.batch

def record (trial : Trial α periods instruments) : StepRecord α :=
  (trial.run.learn trial.batch).1

omit [Scalar α] in
@[simp] theorem factors_mk (run : Run α periods instruments) (batch : List (Episode α run.shape)) :
    factors ⟨run, batch⟩ = run.found batch := rfl

end Trial

def trial? (run : Run α periods instruments) (request : Call) :
    Option (Trial α periods instruments) :=
  match (run.call request).1, run.batch.1 with
  | some (.ok _), .ok batch => some ⟨run, batch⟩
  | _, _ => none

def trials (run : Run α periods instruments) : List Call → List (Trial α periods instruments)
  | [] => []
  | request :: rest => (run.trial? request).toList ++ (run.call request).2.trials rest

theorem trials_snoc (run : Run α periods instruments) (calls : List Call) (request : Call) :
    run.trials (calls ++ [request]) =
      run.trials calls ++ ((run.after calls).trial? request).toList := by
  induction calls generalizing run with
  | nil => simp [trials, after]
  | cons first rest ih =>
    rw [List.cons_append, trials, ih, trials, List.append_assoc]
    rfl

theorem trial_outcomes (run : Run α periods instruments) (request : Call) :
    (∃ state stream, run.trial? request = none ∧
        (run.call request).2 = { run with state := state, stream := stream }) ∨
      (∃ batch stream, run.trial? request = some ⟨run, batch⟩ ∧ run.batch = (.ok batch, stream) ∧
        (run.call request).2 = run.stepped batch stream) := by
  rcases run.call_outcomes request with ⟨item, state, stream, called, silent⟩ |
    ⟨batch, stream, sampled, called⟩
  · refine Or.inl ⟨state, stream, ?_, by rw [called]⟩
    rw [trial?, called]
    split
    · rename_i record _ returned _
      exact absurd returned (silent record)
    · rfl
  · refine Or.inr ⟨batch, stream, ?_, sampled, by rw [called]⟩
    rw [trial?, called, sampled]

/-- What holds of a run without trials, and is kept by every change of state and stream and by every
step, holds of the run after any calls with their trials. -/
theorem after_induction
    {holds : List (Trial α periods instruments) → Run α periods instruments → Prop}
    (start : Run α periods instruments) (initial : holds [] start)
    (quiet : ∀ trials run state stream, holds trials run →
      holds trials { run with state := state, stream := stream })
    (step : ∀ trials run batch stream, run.batch = (.ok batch, stream) → holds trials run →
      holds (trials ++ [⟨run, batch⟩]) (run.stepped batch stream))
    (calls : List Call) : holds (start.trials calls) (start.after calls) := by
  induction calls using List.reverseRecOn with
  | nil => exact initial
  | append_singleton earlier request ih =>
    rw [trials_snoc, after_snoc]
    rcases (start.after earlier).trial_outcomes request with ⟨state, stream, none, called⟩ |
      ⟨batch, stream, some, sampled, called⟩
    · rw [none, called, Option.toList_none, List.append_nil]
      exact quiet _ _ state stream ih
    · rw [some, called]
      exact step _ _ batch stream sampled ih

/-- Each trial is that of the run after some of the calls, whose trials are those before it. -/
theorem trial_at (start : Run α periods instruments) (calls : List Call) (n : Nat)
    (trial : Trial α periods instruments) (listed : (start.trials calls)[n]? = some trial) :
    ∃ earlier stream, start.trials earlier = (start.trials calls).take n ∧
      start.after earlier = trial.run ∧ trial.run.batch = (.ok trial.batch, stream) := by
  induction calls using List.reverseRecOn with
  | nil => cases listed
  | append_singleton earlier request ih =>
    rw [trials_snoc] at listed ⊢
    rcases Nat.lt_or_ge n (start.trials earlier).length with before | behind
    · rw [List.getElem?_append_left before] at listed
      rw [List.take_append_of_le_length before.le]
      exact ih listed
    · rcases (start.after earlier).trial_outcomes request with ⟨state, stream, none, -⟩ |
        ⟨batch, stream, some, sampled, -⟩
      · rw [none, Option.toList_none, List.append_nil, List.getElem?_eq_none behind] at listed
        cases listed
      · rw [some, Option.toList_some] at listed ⊢
        have last : n = (start.trials earlier).length := by
          have within := (List.getElem?_eq_some_iff.mp listed).1
          rw [List.length_append, List.length_singleton] at within
          omega
        subst last
        rw [List.getElem?_concat_length] at listed
        cases listed
        exact ⟨earlier, stream, by rw [List.take_left], rfl, sampled⟩

/-! ## Fresh runs -/

/-- A run that nothing has been asked of. -/
structure Fresh (run : Run α periods instruments) : Prop where
  step : run.step = 0
  state : run.state = .idle
  records : run.records = #[]
  best : run.best = none
  hall : run.hall = .empty run.settings.hallSize
  announced : run.announced = []

theorem fresh_of_create (settings : Settings α) (v : Vocabulary)
    (features : FeatureSet α periods instruments) (seed : UInt64)
    (fresh : Run α periods instruments) (created : create settings v features seed = .ok fresh)
    (learner : Learner α fresh.shape) (stream : WordStream) :
    Fresh { fresh with learner := learner, stream := stream } := by
  simp only [create, Result.bind_eq_ok_iff] at created
  obtain ⟨_, _, _, _, _, _, _, _, built⟩ := created
  cases Except.ok.inj built
  exact ⟨rfl, rfl, rfl, rfl, rfl, rfl⟩

end Run

theorem leaf_after : ∃ metrics reward decisions last,
    (leafRun (.fresh 1 .zero) ⟨fun _ => 0, 0⟩).after [.next false] =
      (leafRun (.fresh 1 .zero) ⟨fun _ => 0, 0⟩).stepped
        [⟨⟨.valid [.ofNat 24] "RET", decisions⟩, .scored metrics reward⟩] last := by
  obtain ⟨metrics, reward, decisions, last, sampled⟩ := leaf_batch
  refine ⟨metrics, reward, decisions, last, ?_⟩
  change (leafRun (.fresh 1 .zero) ⟨fun _ => 0, 0⟩).advance.2 = _
  simp only [Run.advance, sampled]
  rfl

end Training

end FactorSearch
