import FactorSearch.Proofs.Training.Calls

/-!
# The life of a run

A fresh run that is only asked for next records goes through its stages in one direction.  As long
as it goes on, every call returned a record; it is completed when it holds as many records as it has
steps to make, aborted by a cancellation that is seen before that, and failed by a step that fails.
Nothing wakes it after that.
-/

set_option autoImplicit false

namespace FactorSearch

namespace Training

variable {α : Type} [Scalar α] {periods instruments : Nat}

def RunState.closing : RunState → List (Option (Result (StepRecord α)))
  | .failed failure => [some (.error failure)]
  | _ => []

/-- Where a run stands that has made `count` of `budget` steps in calls with the given flags. -/
inductive Stage (budget : Nat) (flags : List Bool) (count : Nat) : RunState → Prop where
  | idle : flags = [] → count = 0 → Stage budget flags count .idle
  | running (step : Nat) : flags.length = count → count ≠ 0 → count < budget →
      Stage budget flags count (.running step)
  | completed : flags ≠ [] → count = budget → Stage budget flags count .completed
  | aborted : count < budget → flags[count]? = some true → Stage budget flags count .aborted
  | failed (failure : Failure) : count < budget → flags[count]? = some false →
      Stage budget flags count (.failed failure)

namespace Stage

variable {budget count : Nat} {flags : List Bool} {state : RunState}

theorem going (stage : Stage budget flags count state) (goes : state.isTerminal = false) :
    flags.length = count := by
  cases stage with
  | idle unasked none => rw [unasked, none, List.length_nil]
  | running _ asked => exact asked
  | completed | aborted | failed => cases goes

theorem within (stage : Stage budget flags count state) : count ≤ budget := by
  cases stage with
  | idle _ none => omega
  | running _ _ _ short | aborted short | failed _ short => omega
  | completed _ full => omega

theorem full (stage : Stage budget flags count state) (goes : state.isTerminal = false)
    (enough : budget ≤ count) : count = budget := by
  cases stage with
  | idle _ none => omega
  | running _ _ _ short => omega
  | completed | aborted | failed => cases goes

theorem ended (stage : Stage budget flags count state) (ends : state.isTerminal = true)
    (cancelled : Bool) : Stage budget (flags ++ [cancelled]) count state := by
  have earlier {seen : Bool} (found : flags[count]? = some seen) :
      (flags ++ [cancelled])[count]? = some seen := by
    rw [List.getElem?_append_left (List.getElem?_eq_some_iff.mp found).1, found]
  cases stage with
  | idle | running => cases ends
  | completed _ full => exact .completed (by simp) full
  | aborted short seen => exact .aborted short (earlier seen)
  | failed failure short unseen => exact .failed failure short (earlier unseen)

theorem completed_iff (stage : Stage budget flags count state) :
    state = .completed ↔ flags ≠ [] ∧ count = budget := by
  cases stage with
  | idle unasked none => simp [unasked]
  | running _ asked some short => simp; omega
  | completed asked full => simp [asked, full]
  | aborted short | failed _ short => simp; omega

theorem aborted_iff (stage : Stage budget flags count state) :
    state = .aborted ↔ count < budget ∧ flags[count]? = some true := by
  cases stage with
  | idle unasked none => simp [unasked]
  | running _ asked some short => simp [← asked]
  | completed asked full => simp [full]
  | aborted short seen => simp [short, seen]
  | failed failure short unseen => simp [unseen]

end Stage

namespace Run

/-- How far a fresh run has come through calls with the given flags. -/
structure Progress (budget : Nat) (flags : List Bool)
    (returned : List (Option (Result (StepRecord α)))) (run : Run α periods instruments) :
    Prop where
  limit : run.settings.stepCount = budget
  step : run.step = run.records.size
  numbered : run.records.toList.map StepRecord.step = List.range run.records.size
  stage : Stage budget flags run.records.size run.state
  yields : ∃ silent, returned = (run.records.toList.map fun record => some (.ok record)) ++
    run.state.closing ++ List.replicate silent none
  speaks : run.state.isTerminal = false →
    returned = run.records.toList.map fun record => some (.ok record)

omit [Scalar α] in
theorem Fresh.progress {fresh : Run α periods instruments} (unused : fresh.Fresh) :
    Progress fresh.settings.stepCount [] [] fresh where
  limit := rfl
  step := by rw [unused.step, unused.records]; rfl
  numbered := by rw [unused.records]; rfl
  stage := by
    rw [unused.state, unused.records]
    exact .idle rfl rfl
  yields := ⟨0, by rw [unused.state, unused.records]; rfl⟩
  speaks _ := by rw [unused.records]; rfl

namespace Progress

variable {budget : Nat} {flags : List Bool} {returned : List (Option (Result (StepRecord α)))}
  {run : Run α periods instruments}

omit [Scalar α] in
theorem ended (progress : Progress budget flags returned run) (ends : run.state.isTerminal = true)
    (cancelled : Bool) : Progress budget (flags ++ [cancelled]) (returned ++ [none]) run where
  limit := progress.limit
  step := progress.step
  numbered := progress.numbered
  stage := progress.stage.ended ends cancelled
  yields := by
    obtain ⟨silent, shape⟩ := progress.yields
    exact ⟨silent + 1, by rw [shape, List.append_assoc, ← List.replicate_succ']⟩
  speaks goes := by
    rw [ends] at goes
    cases goes

omit [Scalar α] in
theorem closed (progress : Progress budget flags returned run) (goes : run.state.isTerminal = false)
    (cancelled : Bool) (state : RunState) (stream : WordStream)
    (item : Option (Result (StepRecord α))) (silent : Nat)
    (said : [item] = state.closing ++ List.replicate silent none) (ends : state.isTerminal = true)
    (stage : Stage budget (flags ++ [cancelled]) run.records.size state) :
    Progress budget (flags ++ [cancelled]) (returned ++ [item])
      { run with stream := stream, state := state } where
  limit := progress.limit
  step := progress.step
  numbered := progress.numbered
  stage := stage
  yields := ⟨silent, by rw [progress.speaks goes, said, List.append_assoc]⟩
  speaks goesOn := by
    rw [ends] at goesOn
    cases goesOn

theorem stepped (progress : Progress budget flags returned run)
    (goes : run.state.isTerminal = false) (short : run.step < budget) (cancelled : Bool)
    (batch : List (Episode α run.shape)) (stream : WordStream) :
    Progress budget (flags ++ [cancelled]) (returned ++ [some (.ok (run.learn batch).1)])
      (run.stepped batch stream) := by
  have records := run.stepped_records batch stream
  have asked := progress.stage.going goes
  have spoken : returned ++ [some (.ok (run.learn batch).1)] =
      (run.stepped batch stream).records.toList.map fun record => some (.ok record) := by
    rw [progress.speaks goes, records, Array.toList_push, List.map_append]
    rfl
  have state : (run.stepped batch stream).state =
      if budget ≤ run.step + 1 then .completed else .running run.step := by
    rw [← progress.limit]
    rfl
  have silence : (run.stepped batch stream).state.closing (α := α) = [] := by
    rw [state]
    split <;> rfl
  refine ⟨?_, ?_, ?_, ?_, ⟨0, by rw [spoken, silence]; simp⟩, fun _ => spoken⟩
  · rw [stepped_settings, progress.limit]
  · rw [records, Array.size_push, ← progress.step]
    rfl
  · rw [records, Array.toList_push, List.map_append, progress.numbered, Array.size_push,
      List.range_succ, ← progress.step]
    rfl
  · rw [records, Array.size_push, state, ← progress.step]
    have longer : (flags ++ [cancelled]).length = run.step + 1 := by
      rw [List.length_append, asked, progress.step]
      rfl
    split
    · exact .completed (by simp) (by omega)
    · exact .running run.step longer (by omega) (by omega)

theorem next (progress : Progress budget flags returned run) (cancelled : Bool) :
    Progress budget (flags ++ [cancelled]) (returned ++ [(run.next cancelled).1])
      (run.next cancelled).2 := by
  have seen (goes : run.state.isTerminal = false) :
      (flags ++ [cancelled])[run.records.size]? = some cancelled := by
    rw [← progress.stage.going goes, List.getElem?_concat_length]
  have counted := progress.step
  have limit := progress.limit
  rcases run.next_outcomes cancelled with ⟨ends, quiet⟩ | ⟨goes, spent, closes⟩ |
    ⟨goes, short, asked, closes⟩ | ⟨goes, short, unasked, taken⟩
  · rw [quiet]
    exact progress.ended ends cancelled
  · rw [closes]
    exact progress.closed goes cancelled .completed run.stream none 1 rfl rfl
      (.completed (by simp) (progress.stage.full goes (by omega)))
  · rw [closes]
    exact progress.closed goes cancelled .aborted run.stream none 1 rfl rfl
      (.aborted (by omega) (by rw [seen goes, asked]))
  · rw [taken]
    rcases run.advance_outcomes with ⟨ends, _⟩ | ⟨_, failure, stream, failed⟩ |
      ⟨_, batch, stream, _, learned⟩
    · rw [goes] at ends
      cases ends
    · rw [failed]
      exact progress.closed goes cancelled (.failed failure) stream _ 0 rfl rfl
        (.failed failure (by omega) (by rw [seen goes, unasked]))
    · rw [learned]
      exact progress.stepped goes (by omega) cancelled batch stream

end Progress

theorem Fresh.progress_calls {fresh : Run α periods instruments} (unused : fresh.Fresh)
    (flags : List Bool) :
    Progress fresh.settings.stepCount flags (fresh.returned (flags.map Call.next))
      (fresh.after (flags.map Call.next)) := by
  induction flags using List.reverseRecOn with
  | nil => exact unused.progress
  | append_singleton earlier cancelled ih =>
    rw [List.map_append, List.map_singleton, after_snoc, returned_snoc]
    exact ih.next cancelled

theorem next_of_terminal (run : Run α periods instruments) (ends : run.state.isTerminal = true)
    (cancelled : Bool) : run.next cancelled = (none, run) := by
  rw [Run.next, if_pos ends]

/-- The life of a run that is asked for next records only, whatever each call sees of a cancellation
and whatever comes of its steps: it returned its records in order, then at most the failure that
ended it, then nothing; it ends when it has made all steps, when it sees a cancellation before that,
or when a step fails; and then it stays as it is.  An iterator, or a drive to the end, is more calls
of this kind. -/
theorem life_cycle (fresh : Run α periods instruments) (unused : fresh.Fresh)
    (flags : List Bool) :
    let run := fresh.after (flags.map Call.next)
    let returned := fresh.returned (flags.map Call.next)
    let made := run.records.size
    let budget := fresh.settings.stepCount
    (∃ silent, returned = (run.records.toList.map fun record => some (.ok record)) ++
        run.state.closing ++ List.replicate silent none) ∧
      run.records.toList.map StepRecord.step = List.range made ∧ made ≤ budget ∧
      (run.state.isTerminal = false → flags.length = made) ∧
      (run.state = .completed ↔ flags ≠ [] ∧ made = budget) ∧
      (run.state = .aborted ↔ made < budget ∧ flags[made]? = some true) ∧
      (∀ failure, run.state = .failed failure ↔ some (.error failure) ∈ returned) ∧
      (run.state.isTerminal = true → ∀ cancelled, run.next cancelled = (none, run)) ∧
      ∀ signal limit cancelled, ∃ more : List Bool,
        (run.take signal limit cancelled).run = run.after (more.map Call.next) ∧
          (run.take signal limit cancelled).items =
            (run.returned (more.map Call.next)).reduceOption := by
  intro run returned made budget
  have progress := unused.progress_calls flags
  obtain ⟨silent, shape⟩ := progress.yields
  refine ⟨⟨silent, shape⟩, progress.numbered, progress.stage.within, progress.stage.going,
    progress.stage.completed_iff, progress.stage.aborted_iff, fun failure => ?_,
    run.next_of_terminal, fun signal limit cancelled => run.take_eq_calls signal limit cancelled⟩
  have said : some (.error failure) ∈ fresh.returned (flags.map Call.next) ↔
      some (.error failure) ∈ run.state.closing (α := α) := by
    rw [shape, List.mem_append, List.mem_append]
    simp [run]
  change _ ↔ some (.error failure) ∈ fresh.returned (flags.map Call.next)
  rw [said]
  cases run.state with
  | failed other => simp [RunState.closing, eq_comm]
  | idle | running | completed | aborted => simp [RunState.closing]

end Run

theorem leaf_completes :
    (leafRun (.fresh 1 .zero) ⟨fun _ => 0, 0⟩).Fresh ∧ ∃ record,
      let run := (leafRun (.fresh 1 .zero) ⟨fun _ => 0, 0⟩).after [.next false, .next true]
      run.records = #[record] ∧ record.step = 0 ∧ run.state = .completed ∧
        ∀ cancelled, run.next cancelled = (none, run) := by
  have unused : (leafRun (.fresh 1 .zero) ⟨fun _ => 0, 0⟩).Fresh := ⟨rfl, rfl, rfl, rfl, rfl, rfl⟩
  obtain ⟨metrics, reward, decisions, last, reached⟩ := leaf_after
  let first := (leafRun (.fresh 1 .zero) ⟨fun _ => 0, 0⟩).after [.next false]
  have records : first.records = #[((leafRun (.fresh 1 .zero) ⟨fun _ => 0, 0⟩).learn
      [⟨⟨.valid [.ofNat 24] "RET", decisions⟩, .scored metrics reward⟩]).1] := by
    change ((leafRun (.fresh 1 .zero) ⟨fun _ => 0, 0⟩).after [.next false]).records = _
    rw [reached, Run.stepped_records]
    rfl
  obtain ⟨-, -, -, -, ends, -, -, stays, -⟩ := Run.life_cycle _ unused [false]
  have completed : first.state = .completed := by
    refine ends.mpr ⟨by simp, ?_⟩
    change first.records.size = 1
    rw [records]
    rfl
  have quiet : ∀ cancelled, first.next cancelled = (none, first) := by
    intro cancelled
    refine stays ?_ cancelled
    change first.state.isTerminal = true
    rw [completed]
    rfl
  have second : (leafRun (.fresh 1 .zero) ⟨fun _ => 0, 0⟩).after [.next false, .next true] =
      first := by
    change (first.next true).2 = first
    rw [quiet true]
  rw [second]
  exact ⟨unused, _, records, rfl, completed, quiet⟩

end Training

end FactorSearch
