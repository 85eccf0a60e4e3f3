import FactorSearch.Training.Background
import FactorSearch.Proofs.Training.BestTracking

/-!
# Following a background run

A run has a report: for every step the factor that became the best in it, if one did, and the
record, and at the end what the run came to.  The worker, which takes the steps and sends the events
of the report, and those who follow it act in any order, and a cancellation may come at any moment.
What has been received is always the front of the report; once the result has been given out, the
rest of the report waits in the queue.
-/

set_option autoImplicit false

namespace FactorSearch

namespace Training

/-! ## Reports -/

/-- What a step tells: the factor that became the best in it, if one did, and its record. -/
structure Group (α : Type) where
  discovered : Option (Factor α)
  record : StepRecord α

/-- All that a run tells, step by step, and what it comes to. -/
structure Report (α : Type) where
  groups : List (Group α)
  result : RunResult α

section Reports

variable {α : Type}

def Group.events (group : Group α) : List (Event α) :=
  group.discovered.toList.map Event.discovered ++ [.step group.record]

def Event.isStep : Event α → Bool
  | .step _ => true
  | _ => false

def Event.closing : RunResult α → Event α
  | .ok summary => .finished summary
  | .error message => .failed message

namespace Report

def events (report : Report α) : List (Event α) :=
  report.groups.flatMap Group.events ++ [.closing report.result]

def after (groups : List (Group α)) (report : Report α) : Report α :=
  { report with groups := groups ++ report.groups }

theorem countP_groups (groups : List (Group α)) :
    (groups.flatMap Group.events).countP Event.isStep = groups.length := by
  induction groups with
  | nil => rfl
  | cons group rest ih =>
    have one : group.events.countP Event.isStep = 1 := by
      cases group with
      | mk discovered record => cases discovered <;> rfl
    rw [List.flatMap_cons, List.countP_append, ih, one, List.length_cons, Nat.add_comm]

theorem countP_events (report : Report α) :
    report.events.countP Event.isStep = report.groups.length := by
  have last : [Event.closing report.result].countP Event.isStep = 0 := by
    cases report.result <;> rfl
  rw [events, List.countP_append, countP_groups, last, Nat.add_zero]

theorem getLast?_events (report : Report α) :
    report.events.getLast? = some (.closing report.result) := by
  rw [events, List.getLast?_concat]

end Report

end Reports

variable {α : Type} [Scalar α] {periods instruments : Nat}

namespace Run

def group (before after : Run α periods instruments) (record : StepRecord α) : Group α :=
  ⟨(after.announced.drop before.announced.length).head?, record⟩

/-- The report of a run that sees a cancellation after `patience` more steps, if it gets there. -/
def report : Nat → Run α periods instruments → Report α
  | 0, run => ⟨[], .ok (run.next true).2.summary⟩
  | patience + 1, run =>
    match run.next false with
    | (none, later) => ⟨[], .ok later.summary⟩
    | (some (.error failure), _) => ⟨[], .error (Background.failureMessage failure)⟩
    | (some (.ok record), later) => (report patience later).after [run.group later record]

/-- Asked for its next record, a run ends without one, or fails, or takes a step. -/
theorem next_cases (run : Run α periods instruments) (cancelled : Bool) :
    (∃ state, run.next cancelled = (none, { run with state := state })) ∨
      (cancelled = false ∧ ∃ failure stream, run.next cancelled =
        (some (.error failure), { run with stream := stream, state := .failed failure })) ∨
      (cancelled = false ∧ run.step < run.settings.stepCount ∧ ∃ batch stream,
        run.next cancelled = (some (.ok (run.learn batch).1), run.stepped batch stream)) := by
  rcases run.next_outcomes cancelled with ⟨_, quiet⟩ | ⟨_, _, closed⟩ | ⟨_, _, _, closed⟩ |
    ⟨goes, short, unasked, taken⟩
  · exact Or.inl ⟨run.state, quiet⟩
  · exact Or.inl ⟨_, closed⟩
  · exact Or.inl ⟨_, closed⟩
  · right
    rcases run.advance_outcomes with ⟨ends, _⟩ | ⟨_, failure, stream, failed⟩ |
      ⟨_, batch, stream, _, learned⟩
    · rw [goes] at ends
      cases ends
    · exact Or.inl ⟨unasked, failure, stream, by rw [taken, failed]⟩
    · exact Or.inr ⟨unasked, short, batch, stream, by rw [taken, learned]⟩

theorem next_cancelled (run : Run α periods instruments) :
    ∃ state, run.next true = (none, { run with state := state }) := by
  rcases run.next_cases true with silent | ⟨unasked, _⟩ | ⟨unasked, _⟩
  · exact silent
  · cases unasked
  · cases unasked

theorem stepped_announced (run : Run α periods instruments) (batch : List (Episode α run.shape))
    (stream : WordStream) : ∃ found : Option (Factor α),
      (run.stepped batch stream).announced = run.announced ++ found.toList ∧
        ∀ factor ∈ found, factor.step = run.step := by
  have tracked : (run.stepped batch stream).announced =
      ((run.updated batch).track (run.found batch)).announced := by
    rw [stepped, learn_eq]
  rw [tracked]
  rcases (run.updated batch).track_cases (run.found batch) with same | ⟨leader, member, led⟩
  · exact ⟨none, by rw [same]; exact (List.append_nil _).symm, by simp⟩
  · refine ⟨some leader, by rw [led]; rfl, ?_⟩
    rintro factor ⟨⟩
    exact run.found_step batch leader member

section Stepped

variable (run : Run α periods instruments) (batch : List (Episode α run.shape))
  (stream : WordStream)

theorem stepEvents_stepped (record : StepRecord α) :
    Background.stepEvents run (run.stepped batch stream) record =
      (run.group (run.stepped batch stream) record).events := by
  obtain ⟨found, announced, -⟩ := run.stepped_announced batch stream
  rw [Background.stepEvents, group, Group.events, announced, List.drop_left]
  cases found <;> rfl

theorem group_step (record : StepRecord α) (factor : Factor α)
    (discovered : factor ∈ (run.group (run.stepped batch stream) record).discovered) :
    factor.step = run.step := by
  obtain ⟨found, announced, ofStep⟩ := run.stepped_announced batch stream
  rw [group, announced, List.drop_left] at discovered
  cases found with
  | none => cases discovered
  | some leader => exact ofStep factor discovered

end Stepped

/-- The report of a run numbers its steps from the run's own step on, its discoveries come before
the record of their step, and its summary counts every step since the start. -/
theorem report_numbered (patience : Nat) (run : Run α periods instruments) :
    (∀ group ∈ (run.report patience).groups, ∀ factor ∈ group.discovered,
        factor.step = group.record.step) ∧
      (run.report patience).groups.map (fun group => group.record.step) =
        List.range' run.step (run.report patience).groups.length ∧
      ∀ summary, (run.report patience).result = .ok summary →
        summary.totalSteps = run.records.size + (run.report patience).groups.length := by
  induction patience generalizing run with
  | zero =>
    obtain ⟨state, silent⟩ := run.next_cancelled
    simp only [report, silent]
    refine ⟨by simp, rfl, ?_⟩
    rintro summary ⟨⟩
    rfl
  | succ patience ih =>
    rcases run.next_cases false with ⟨state, silent⟩ | ⟨_, failure, stream, failed⟩ |
      ⟨_, _, batch, stream, taken⟩
    · simp only [report, silent]
      refine ⟨by simp, rfl, ?_⟩
      rintro summary ⟨⟩
      rfl
    · simp only [report, failed]
      refine ⟨by simp, rfl, ?_⟩
      rintro summary ⟨⟩
    · obtain ⟨paired, numbered, counted⟩ := ih (run.stepped batch stream)
      simp only [report, taken, Report.after, List.singleton_append]
      refine ⟨?_, ?_, ?_⟩
      · intro group member factor discovered
        rcases List.mem_cons.mp member with rfl | later
        · exact run.group_step batch stream _ factor discovered
        · exact paired group later factor discovered
      · rw [List.map_cons, List.length_cons, List.range'_succ, numbered]
        rfl
      · intro summary ends
        rw [counted summary ends, stepped_records, Array.size_push, List.length_cons]
        omega

/-- A run has made all its steps before it sees a cancellation that comes later than that. -/
theorem report_of_enough (patience more : Nat) (run : Run α periods instruments)
    (enough : run.settings.stepCount ≤ run.step + patience) :
    run.report (patience + more) = run.report patience := by
  induction patience generalizing run with
  | zero =>
    cases more with
    | zero => rfl
    | succ more =>
      -- without steps left the two flags make no difference
      rw [Nat.add_zero] at enough
      have same : ∃ later, run.next true = (none, later) ∧ run.next false = (none, later) := by
        by_cases ended : run.state.isTerminal = true
        · exact ⟨run, by rw [next, if_pos ended], by rw [next, if_pos ended]⟩
        · exact ⟨_, by rw [next, if_neg ended, if_pos enough],
            by rw [next, if_neg ended, if_pos enough]⟩
      obtain ⟨later, seen, unseen⟩ := same
      rw [Nat.zero_add]
      simp only [report, seen, unseen]
  | succ patience ih =>
    rw [Nat.succ_add]
    rcases run.next_cases false with ⟨state, silent⟩ | ⟨_, failure, stream, failed⟩ |
      ⟨_, _, batch, stream, taken⟩
    · simp only [report, silent]
    · simp only [report, failed]
    · simp only [report, taken]
      rw [ih (run.stepped batch stream)]
      rw [stepped_settings]
      change run.settings.stepCount ≤ run.step + 1 + patience
      omega

end Run

/-! ## Sessions -/

/-- What can happen next while a run is followed.  To drain the queue while the worker goes on
sending is to poll until nothing is left.  When the result is asked for, the worker may not have
`returned` yet although its last event is sent. -/
inductive Action where
  | work
  | poll
  | drain
  | tryResult (returned : Bool)
  | cancel

/-- A run in the background, the events received from it, and the results it has given out. -/
structure Session (α : Type) (periods instruments : Nat) where
  background : Background α periods instruments
  received : List (Event α)
  results : List (RunResult α)

namespace Session

def start (run : Run α periods instruments) : Session α periods instruments :=
  ⟨.start run, [], []⟩

def act (s : Session α periods instruments) : Action → Session α periods instruments
  | .work => { s with background := s.background.work }
  | .poll => ⟨s.background.poll.2, s.received ++ s.background.poll.1.toList, s.results⟩
  | .drain => ⟨s.background.drain.2, s.received ++ s.background.drain.1, s.results⟩
  | .tryResult false => s
  | .tryResult true =>
    ⟨s.background.tryResult.2, s.received, s.results ++ s.background.tryResult.1.toList⟩
  | .cancel => { s with background := s.background.cancel }

def after (s : Session α periods instruments) (actions : List Action) :
    Session α periods instruments :=
  actions.foldl act s

theorem after_snoc (s : Session α periods instruments) (actions : List Action) (action : Action) :
    s.after (actions ++ [action]) = (s.after actions).act action := by
  rw [after, List.foldl_append]
  rfl

def told (s : Session α periods instruments) : List (Event α) :=
  s.received ++ s.background.queue ++ s.background.outbox

/-- How far a session has come with a run.  While the run goes on, the groups told so far begin
every report of it whose cancellation is seen later; when it has ended, its report is told, and it
is the one without a cancellation if none has come. -/
inductive Follows (fresh : Run α periods instruments) (s : Session α periods instruments) :
    Prop where
  | going (groups : List (Group α)) : s.background.result = none → s.background.taken = false →
      s.results = [] → s.told = groups.flatMap Group.events →
      (∀ patience, fresh.report (groups.length + patience) =
        (s.background.run.report patience).after groups) → Follows fresh s
  | ended (patience : Nat) : s.background.result = some (fresh.report patience).result →
      s.told = (fresh.report patience).events →
      (s.background.cancelled = false → patience = fresh.settings.stepCount) →
      (s.background.taken = true → s.background.outbox = []) →
      s.results = (if s.background.taken then [(fresh.report patience).result] else []) →
      Follows fresh s

namespace Follows

variable {fresh : Run α periods instruments} {s : Session α periods instruments}

theorem start (fresh : Run α periods instruments) : Follows fresh (.start fresh) := by
  refine .going [] rfl rfl rfl rfl fun patience => ?_
  rw [List.length_nil, Nat.zero_add]
  rfl

/-- Actions that only move told events keep what a session has come to. -/
theorem moved (follows : Follows fresh s) (later : Session α periods instruments)
    (told : later.told = s.told) (run : later.background.run = s.background.run)
    (result : later.background.result = s.background.result)
    (taken : later.background.taken = s.background.taken) (results : later.results = s.results)
    (outbox : s.background.outbox = [] → later.background.outbox = [])
    (cancelled : later.background.cancelled = false → s.background.cancelled = false) :
    Follows fresh later := by
  cases follows with
  | going groups open' untaken none events story =>
    refine .going groups ?_ ?_ ?_ ?_ ?_
    · rw [result, open']
    · rw [taken, untaken]
    · rw [results, none]
    · rw [told, events]
    · rw [run]
      exact story
  | ended patience closed events natural emptied given =>
    refine .ended patience ?_ ?_ ?_ ?_ ?_
    · rw [result, closed]
    · rw [told, events]
    · exact fun uncancelled => natural (cancelled uncancelled)
    · rw [taken]
      exact fun out => outbox (emptied out)
    · rw [results, taken, given]

/-- A run that ends now has told all of its report. -/
theorem finished (groups : List (Group α)) (events : s.told = groups.flatMap Group.events)
    (outbox : s.background.outbox = []) (run : Run α periods instruments)
    (result : RunResult α) (patience : Nat)
    (natural : s.background.cancelled = false → patience = fresh.settings.stepCount)
    (untaken : s.background.taken = false) (none : s.results = [])
    (ends : fresh.report patience = ⟨groups, result⟩) :
    Follows fresh { s with background := { s.background with
      run := run, outbox := [.closing result], result := some result } } := by
  have queued : s.received ++ s.background.queue = groups.flatMap Group.events := by
    rw [← events, told, outbox, List.append_nil]
  refine .ended patience ?_ ?_ natural ?_ ?_
  · rw [ends]
  · rw [ends]
    exact congrArg (· ++ [Event.closing result]) queued
  · intro out
    rw [untaken] at out
    cases out
  · simp only [untaken, none, Bool.false_eq_true, if_false]

theorem stepped (groups : List (Group α)) (open' : s.background.result = none)
    (untaken : s.background.taken = false) (none : s.results = [])
    (events : s.told = groups.flatMap Group.events) (outbox : s.background.outbox = [])
    (story : ∀ patience, fresh.report (groups.length + patience) =
      (s.background.run.report patience).after groups)
    (batch : List (Episode α s.background.run.shape)) (stream : WordStream)
    (taken : s.background.run.next false =
      (some (.ok (s.background.run.learn batch).1), s.background.run.stepped batch stream)) :
    Follows fresh { s with background := { s.background with
      run := s.background.run.stepped batch stream
      outbox := Background.stepEvents s.background.run (s.background.run.stepped batch stream)
        (s.background.run.learn batch).1 } } := by
  let group := s.background.run.group (s.background.run.stepped batch stream)
    (s.background.run.learn batch).1
  have queued : s.received ++ s.background.queue = groups.flatMap Group.events := by
    rw [← events, told, outbox, List.append_nil]
  refine .going (groups ++ [group]) open' untaken none ?_ ?_
  · change s.received ++ s.background.queue ++ _ = _
    rw [queued, Run.stepEvents_stepped, List.flatMap_append, List.flatMap_singleton]
  · intro patience
    have next : s.background.run.report (patience + 1) =
        ((s.background.run.stepped batch stream).report patience).after [group] := by
      simp only [Run.report, taken]
      rfl
    have longer : (groups ++ [group]).length + patience = groups.length + (patience + 1) := by
      rw [List.length_append, List.length_singleton]
      omega
    rw [longer, story (patience + 1), next, Report.after, Report.after, Report.after,
      ← List.append_assoc]

/-- The report that a run turns out to have when it goes on without a cancellation, or sees one. -/
theorem exists_patience (groups : List (Group α)) (run : Run α periods instruments)
    (numbered : fresh.step = 0)
    (story : ∀ patience, fresh.report (groups.length + patience) =
      (run.report patience).after groups) (cancelled : Bool) :
    ∃ patience, fresh.report patience =
        (run.report (if cancelled then 0 else fresh.settings.stepCount + 1)).after groups ∧
      (cancelled = false → patience = fresh.settings.stepCount) := by
  cases cancelled with
  | true => exact ⟨groups.length, story 0, Bool.noConfusion⟩
  | false =>
    refine ⟨fresh.settings.stepCount, ?_, fun _ => rfl⟩
    have enough : fresh.settings.stepCount ≤ fresh.step + fresh.settings.stepCount := by omega
    rw [if_neg Bool.false_ne_true, ← story, Nat.add_left_comm,
      Run.report_of_enough _ _ fresh enough]

theorem work (follows : Follows fresh s) (numbered : fresh.step = 0) :
    Follows fresh (s.act .work) := by
  cases pending : s.background.outbox with
  | cons event rest =>
    have sent : s.act .work = { s with background := { s.background with
        outbox := rest, queue := s.background.queue ++ [event] } } := by
      simp only [act, Background.work, pending]
    rw [sent]
    refine follows.moved _ ?_ rfl rfl rfl rfl ?_ id
    · simp [told, pending]
    · intro empty
      rw [pending] at empty
      cases empty
  | nil =>
    cases follows with
    | ended patience closed events natural emptied given =>
      have idle : s.act .work = s := by
        simp only [act, Background.work, pending, closed]
      rw [idle]
      exact .ended patience closed events natural emptied given
    | going groups open' untaken none events story =>
      obtain ⟨patience, report, natural⟩ :=
        exists_patience groups s.background.run numbered story s.background.cancelled
      rcases s.background.run.next_cases s.background.cancelled with ⟨state, silent⟩ |
        ⟨unasked, failure, stream, failed⟩ | ⟨unasked, -, batch, stream, taken⟩
      · have done : s.act .work = { s with background := { s.background with
            run := { s.background.run with state := state }
            outbox := [.closing (.ok { s.background.run with state := state }.summary)]
            result := some (.ok { s.background.run with state := state }.summary) } } := by
          simp only [act, Background.work, pending, open', silent]
          rfl
        have last : s.background.run.report
            (if s.background.cancelled then 0 else fresh.settings.stepCount + 1) =
              ⟨[], .ok { s.background.run with state := state }.summary⟩ := by
          cases seen : s.background.cancelled with
          | true =>
            rw [seen] at silent
            simp only [if_true, Run.report, silent]
          | false =>
            rw [seen] at silent
            simp only [Bool.false_eq_true, if_false, Run.report, silent]
        rw [done]
        refine finished groups events pending _ _ patience natural untaken none ?_
        rw [report, last, Report.after, List.append_nil]
      · have done : s.act .work = { s with background := { s.background with
            run := { s.background.run with stream := stream, state := .failed failure }
            outbox := [.closing (.error (Background.failureMessage failure))]
            result := some (.error (Background.failureMessage failure)) } } := by
          simp only [act, Background.work, pending, open', failed]
          rfl
        rw [unasked] at failed report
        have last : s.background.run.report (fresh.settings.stepCount + 1) =
            ⟨[], .error (Background.failureMessage failure)⟩ := by
          simp only [Run.report, failed]
        rw [done]
        refine finished groups events pending _ _ patience natural untaken none ?_
        rw [report, if_neg Bool.false_ne_true, last, Report.after, List.append_nil]
      · have went : s.act .work = { s with background := { s.background with
            run := s.background.run.stepped batch stream
            outbox := Background.stepEvents s.background.run
              (s.background.run.stepped batch stream) (s.background.run.learn batch).1 } } := by
          simp only [act, Background.work, pending, open', taken]
        rw [went]
        rw [unasked] at taken
        exact stepped groups open' untaken none events pending story batch stream taken

theorem receive (follows : Follows fresh s) (draining : Bool) :
    Follows fresh (s.act (if draining then .drain else .poll)) := by
  cases draining with
  | true => exact follows.moved _ (by simp [act, told, Background.drain]) rfl rfl rfl rfl id id
  | false =>
    cases queue : s.background.queue with
    | nil =>
      have quiet : s.act .poll = s := by simp [act, Background.poll, queue]
      rw [if_neg Bool.false_ne_true, quiet]
      exact follows
    | cons event rest =>
      have got : s.act .poll = { s with
          background := { s.background with queue := rest }
          received := s.received ++ [event] } := by
        simp [act, Background.poll, queue]
      rw [if_neg Bool.false_ne_true, got]
      exact follows.moved _ (by simp [told, queue]) rfl rfl rfl rfl id id

theorem ask (follows : Follows fresh s) : Follows fresh (s.act (.tryResult true)) := by
  by_cases ready : (s.background.isFinished && !s.background.taken) = true
  · have gives : s.act (.tryResult true) = { s with
        background := { s.background with taken := true }
        results := s.results ++ s.background.result.toList } := by
      simp only [act, Background.tryResult, ready, if_true]
    obtain ⟨finished, untaken⟩ := Bool.and_eq_true_iff.mp ready
    obtain ⟨empty, known⟩ := Bool.and_eq_true_iff.mp finished
    rw [Bool.not_eq_true'] at untaken
    rw [gives]
    cases follows with
    | going groups open' =>
      rw [open'] at known
      cases known
    | ended patience closed events natural emptied given =>
      refine .ended patience closed events natural ?_ ?_
      · exact fun _ => List.isEmpty_iff.mp empty
      · simp only [given, untaken, closed, Bool.false_eq_true, if_false, if_true]
        rfl
  · have refuses : s.act (.tryResult true) = s := by
      simp only [act, Background.tryResult, if_neg ready, Option.toList_none, List.append_nil]
    rw [refuses]
    exact follows

theorem act (follows : Follows fresh s) (numbered : fresh.step = 0) (action : Action) :
    Follows fresh (s.act action) := by
  cases action with
  | work => exact follows.work numbered
  | poll => exact follows.receive false
  | drain => exact follows.receive true
  | tryResult returned =>
    cases returned with
    | false => exact follows
    | true => exact follows.ask
  | cancel =>
    exact follows.moved _ rfl rfl rfl rfl rfl id fun uncancelled => Bool.noConfusion uncancelled

theorem after (follows : Follows fresh s) (numbered : fresh.step = 0) (actions : List Action) :
    Follows fresh (s.after actions) := by
  induction actions using List.reverseRecOn with
  | nil => exact follows
  | append_singleton earlier action ih =>
    rw [after_snoc]
    exact ih.act numbered action

end Follows

/-! ## The worker comes to an end -/

/-- Actions that the worker still has before it, at most: three for a step that tells of a
discovery, and those to send what is in the outbox. -/
def ahead (s : Session α periods instruments) : Nat :=
  s.background.outbox.length +
    if s.background.result.isSome then 0 else 3 * s.background.run.remaining

theorem work_ahead (s : Session α periods instruments)
    (busy : s.background.isFinished = false) : (s.act .work).ahead < s.ahead := by
  cases pending : s.background.outbox with
  | cons event rest =>
    simp only [ahead, act, Background.work, pending, List.length_cons]
    omega
  | nil =>
    have open' : s.background.result = none := by
      rw [Background.isFinished, pending] at busy
      simpa using busy
    have room : 2 ≤ s.background.run.remaining := Nat.le_add_left ..
    rcases s.background.run.next_cases s.background.cancelled with ⟨state, silent⟩ |
      ⟨-, failure, stream, failed⟩ | ⟨-, short, batch, stream, taken⟩
    · simp only [ahead, act, Background.work, pending, open', silent]
      simp
      omega
    · simp only [ahead, act, Background.work, pending, open', failed]
      simp
      omega
    · have few (group : Group α) : group.events.length ≤ 2 := by
        cases group with
        | mk discovered record => cases discovered <;> simp [Group.events]
      have fewer : (s.background.run.stepped batch stream).remaining + 1 =
          s.background.run.remaining := by
        rw [Run.remaining, Run.stepped_settings, Run.remaining]
        change s.background.run.settings.stepCount - (s.background.run.step + 1) + 2 + 1 = _
        omega
      simp only [ahead, act, Background.work, pending, open', taken, Run.stepEvents_stepped]
      have told := few (s.background.run.group (s.background.run.stepped batch stream)
        (s.background.run.learn batch).1)
      simp
      omega

/-- Left to work, the worker returns, and the result can be had unless it was given out before. -/
theorem exists_finished (s : Session α periods instruments) :
    ∃ count, (s.after (List.replicate count .work)).background.isFinished = true := by
  induction many : s.ahead using Nat.strong_induction_on generalizing s with
  | _ many ih =>
    cases busy : s.background.isFinished with
    | true => exact ⟨0, busy⟩
    | false =>
      obtain ⟨count, done⟩ := ih _ (many ▸ s.work_ahead busy) (s.act .work) rfl
      exact ⟨count + 1, done⟩

theorem cancelled_act (s : Session α periods instruments) (action : Action)
    (other : action ≠ .cancel) :
    (s.act action).background.cancelled = s.background.cancelled := by
  cases action with
  | work =>
    simp only [act, Background.work]
    split
    · rfl
    · rfl
    · split <;> rfl
  | poll =>
    simp only [act, Background.poll]
    split <;> rfl
  | drain => rfl
  | tryResult returned =>
    cases returned with
    | false => rfl
    | true =>
      simp only [act, Background.tryResult]
      split <;> rfl
  | cancel => exact absurd rfl other

theorem cancelled_after (s : Session α periods instruments) (actions : List Action)
    (uncancelled : .cancel ∉ actions) :
    (s.after actions).background.cancelled = s.background.cancelled := by
  induction actions generalizing s with
  | nil => rfl
  | cons first rest ih =>
    rw [List.mem_cons, not_or] at uncancelled
    exact (ih (s.act first) uncancelled.2).trans (s.cancelled_act first (Ne.symm uncancelled.1))

theorem received_worked (s : Session α periods instruments) (count : Nat) :
    (s.after (List.replicate count .work)).received = s.received ∧
      (s.after (List.replicate count .work)).results = s.results := by
  induction count generalizing s with
  | zero => exact ⟨rfl, rfl⟩
  | succ count ih => exact ih (s.act .work)

theorem worked_of_finished (s : Session α periods instruments)
    (finished : s.background.isFinished = true) (count : Nat) :
    s.after (List.replicate count .work) = s := by
  have idle : s.act .work = s := by
    obtain ⟨empty, known⟩ := Bool.and_eq_true_iff.mp finished
    obtain ⟨result, closed⟩ := Option.isSome_iff_exists.mp known
    simp only [act, Background.work, List.isEmpty_iff.mp empty, closed]
  induction count with
  | zero => rfl
  | succ count ih =>
    change (s.act .work).after _ = s
    rw [idle, ih]

/-- A result that was given out is the last thing the worker left to be had. -/
theorem finished_of_given (fresh : Run α periods instruments) (s : Session α periods instruments)
    (follows : Follows fresh s) (given : s.results ≠ []) : s.background.isFinished = true := by
  cases follows with
  | going _ _ _ none => exact absurd none given
  | ended patience closed _ _ emptied results =>
    cases taken : s.background.taken with
    | true => simp [Background.isFinished, emptied taken, closed]
    | false =>
      rw [taken, if_neg Bool.false_ne_true] at results
      exact absurd results given

/-- What is left of a report when its run has returned: the queue holds the rest, and the result can
be had unless it was given out. -/
theorem exists_report (fresh : Run α periods instruments) (s : Session α periods instruments)
    (follows : Follows fresh s) (finished : s.background.isFinished = true) :
    ∃ patience, (s.background.cancelled = false → patience = fresh.settings.stepCount) ∧
      s.received ++ s.background.queue = (fresh.report patience).events ∧
      s.results.length ≤ 1 ∧ (∀ result ∈ s.results, result = (fresh.report patience).result) ∧
      (s.act (.tryResult true)).results = [(fresh.report patience).result] := by
  obtain ⟨empty, known⟩ := Bool.and_eq_true_iff.mp finished
  cases follows with
  | going groups open' =>
    rw [open'] at known
    cases known
  | ended patience closed events natural emptied given =>
    rw [told, List.isEmpty_iff.mp empty, List.append_nil] at events
    refine ⟨patience, natural, events, ?_, ?_, ?_⟩
    · rw [given]
      split <;> simp
    · rw [given]
      split <;> simp
    · simp only [act, Background.tryResult, finished, given, closed]
      cases s.background.taken <;> rfl

/-- Whatever order a fresh run's worker and those who follow it act in, what they receive is the
front of one report of the run, the one without a cancellation unless there was one: groups of at
most one discovery and the record of its step, in the order of the steps, and one event that closes.
The result is given out at most once, and when it was, the queue holds the rest of the report, which
closes with that result and has as many records as its summary counts.  The worker always comes to
where the result can be had. -/
theorem received_in_order (fresh : Run α periods instruments) (unused : fresh.Fresh)
    (actions : List Action) :
    let session := (start fresh).after actions
    ∃ patience, (.cancel ∉ actions → patience = fresh.settings.stepCount) ∧
      let report := fresh.report patience
      session.received <+: report.events ∧
      (∀ group ∈ report.groups, ∀ factor ∈ group.discovered, factor.step = group.record.step) ∧
      report.groups.map (fun group => group.record.step) = List.range report.groups.length ∧
      session.results.length ≤ 1 ∧
      (∀ result ∈ session.results, result = report.result ∧
        (session.act .drain).received = report.events ∧
        report.events.getLast? = some (.closing result) ∧
        ∀ summary, result = .ok summary →
          report.events.countP Event.isStep = summary.totalSteps) ∧
      ∃ count, ((session.after (List.replicate count .work)).act (.tryResult true)).results =
        [report.result] := by
  intro session
  have follows : Follows fresh session := (Follows.start fresh).after unused.step actions
  -- the report is read off where the worker ends up when nobody acts any more
  obtain ⟨count, finished⟩ := session.exists_finished
  obtain ⟨received, results⟩ := session.received_worked count
  obtain ⟨patience, natural, events, once, attested, gives⟩ :=
    exists_report fresh _ (follows.after unused.step _) finished
  obtain ⟨paired, numbered, counted⟩ := fresh.report_numbered patience
  rw [received] at events
  rw [results] at once attested
  refine ⟨patience, fun uncancelled => natural ?_, ?_, paired, ?_, once, ?_, count, gives⟩
  · rw [cancelled_after _ _ (by simp), cancelled_after _ actions uncancelled]
    rfl
  · rw [← events]
    exact List.prefix_append _ _
  · rw [numbered, unused.step, List.range_eq_range']
  · intro result given
    have stays := session.worked_of_finished
      (finished_of_given fresh session follows (List.ne_nil_of_mem given)) count
    rw [stays] at events
    refine ⟨attested result given, events, ?_, ?_⟩
    · rw [attested result given, Report.getLast?_events]
    · intro summary ends
      rw [Report.countP_events, counted summary (attested result given ▸ ends), unused.records]
      exact (Nat.zero_add _).symm

end Session

theorem leaf_next : ∃ factor batch last,
    let run := leafRun (.fresh 1 .zero) ⟨fun _ => 0, 0⟩
    run.next false = (some (.ok (run.learn batch).1), run.stepped batch last) ∧
      (run.stepped batch last).announced = [factor] ∧ factor.step = 0 := by
  obtain ⟨metrics, reward, decisions, last, sampled⟩ := leaf_batch
  refine ⟨⟨"RET", reward, metrics, 0⟩,
    [⟨⟨.valid [.ofNat 24] "RET", decisions⟩, .scored metrics reward⟩], last, ?_, ?_, rfl⟩
  · simp only [Run.next, Run.advance, sampled]
    rfl
  · rw [Run.stepped, Run.learn_eq]
    rfl

/-- A run of one step, polled once while it is at work and cancelled before the worker has closed
it, tells of its discovery, its record and its end, and gives its summary out. -/
theorem leaf_received :
    let fresh := leafRun (.fresh 1 .zero) ⟨fun _ => 0, 0⟩
    let session := (Session.start fresh).after
      [.work, .work, .poll, .tryResult true, .work, .cancel, .work, .work, .tryResult true]
    fresh.Fresh ∧ ∃ factor record summary, session.received = [.discovered factor] ∧
      session.results = [.ok summary] ∧
      (session.act .drain).received = [.discovered factor, .step record, .finished summary] ∧
      factor.step = 0 ∧ record.step = 0 ∧ summary.totalSteps = 1 := by
  intro fresh session
  have unused : fresh.Fresh := ⟨rfl, rfl, rfl, rfl, rfl, rfl⟩
  obtain ⟨factor, batch, last, taken, announced, found⟩ := leaf_next
  let later := fresh.stepped batch last
  let record := (fresh.learn batch).1
  have first : (Session.start fresh).act .work =
      ⟨⟨later, [.discovered factor, .step record], [], false, none, false⟩, [], []⟩ := by
    simp only [Session.act, Session.start, Background.start, Background.work, fresh, taken,
      Background.stepEvents, announced]
    rfl
  have ended : later.next true = (none, later) := by
    rw [Run.next]
    exact if_pos rfl
  have numbered : record.step = 0 := rfl
  clear_value later record
  -- the worker is stopped after its step is told, and goes on once more
  have told : (((Session.start fresh).act .work).after
      [.work, .poll, .tryResult true, .work, .cancel]) =
      ⟨⟨later, [], [.step record], true, none, false⟩, [.discovered factor], []⟩ := by
    rw [first]
    rfl
  have closed : (⟨⟨later, [], [.step record], true, none, false⟩, [.discovered factor], []⟩ :
      Session ℝ 1 2).act .work = ⟨⟨later, [.finished later.summary], [.step record], true,
        some (.ok later.summary), false⟩, [.discovered factor], []⟩ := by
    simp only [Session.act, Background.work, ended]
  have reached : session = ⟨⟨later, [], [.step record, .finished later.summary], true,
      some (.ok later.summary), true⟩, [.discovered factor], [.ok later.summary]⟩ := by
    have split (s : Session ℝ 1 2) : s.after
        [.work, .work, .poll, .tryResult true, .work, .cancel, .work, .work, .tryResult true] =
      (((s.act .work).after [.work, .poll, .tryResult true, .work, .cancel]).act .work).after
        [.work, .tryResult true] := rfl
    rw [show session = _ from split (.start fresh), told, closed]
    rfl
  have rest : (session.act .drain).received =
      [.discovered factor, .step record, .finished later.summary] := by
    rw [reached]
    rfl
  obtain ⟨patience, -, -, -, -, -, given, -⟩ := Session.received_in_order fresh unused
    [.work, .work, .poll, .tryResult true, .work, .cancel, .work, .work, .tryResult true]
  obtain ⟨-, whole, -, counted⟩ := given (.ok later.summary) (by
    change _ ∈ session.results
    rw [reached]
    exact List.mem_singleton.mpr rfl)
  refine ⟨unused, factor, record, later.summary, by rw [reached], by rw [reached], rest, found,
    numbered, ?_⟩
  rw [← counted _ rfl, ← whole]
  exact congrArg (List.countP Event.isStep) rest

end Training

end FactorSearch
