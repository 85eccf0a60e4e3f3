import FactorSearch.Training.Run

/-!
# Background runs

A run that works on its own while its progress is followed.  The worker first produces events and
then sends them one by one; what has been sent waits in a queue until it is received.  Between any
two actions of the worker, progress may be polled or drained, the result asked for, and the run
cancelled.
-/

set_option autoImplicit false

namespace FactorSearch

namespace Training

inductive Event (α : Type) where
  | step (record : StepRecord α)
  | discovered (factor : Factor α)
  | finished (summary : Summary α)
  | failed (message : String)

abbrev RunResult (α : Type) : Type := Except String (Summary α)

/-- A run in the background.  `outbox` holds events that are produced but not sent, and `queue`
those that are sent but not received; `result` is known once the worker has made its last step. -/
structure Background (α : Type) (periods instruments : Nat) where
  run : Run α periods instruments
  outbox : List (Event α)
  queue : List (Event α)
  cancelled : Bool
  result : Option (RunResult α)
  taken : Bool

namespace Background

variable {α : Type} [Scalar α] {periods instruments : Nat}

def start (run : Run α periods instruments) : Background α periods instruments :=
  ⟨run, [], [], false, none, false⟩

def failureMessage (failure : Failure) : String := "Training failed: " ++ failure.message

def stepEvents (before after : Run α periods instruments) (record : StepRecord α) :
    List (Event α) :=
  (after.announced.drop before.announced.length).map Event.discovered ++ [.step record]

/-- One action of the worker: sending an event, or taking a step. -/
@[specialize] def work (b : Background α periods instruments) : Background α periods instruments :=
  match b.outbox, b.result with
  | event :: rest, _ => { b with outbox := rest, queue := b.queue ++ [event] }
  | [], some _ => b
  | [], none =>
    match b.run.next b.cancelled with
    | (none, run) =>
      let summary := run.summary
      { b with run := run, outbox := [.finished summary], result := some (.ok summary) }
    | (some (.ok record), run) =>
      { b with run := run, outbox := stepEvents b.run run record }
    | (some (.error failure), run) =>
      let message := failureMessage failure
      { b with run := run, outbox := [.failed message], result := some (.error message) }

def isFinished (b : Background α periods instruments) : Bool :=
  b.outbox.isEmpty && b.result.isSome

def poll (b : Background α periods instruments) :
    Option (Event α) × Background α periods instruments :=
  match b.queue with
  | [] => (none, b)
  | event :: rest => (some event, { b with queue := rest })

def drain (b : Background α periods instruments) :
    List (Event α) × Background α periods instruments :=
  (b.queue, { b with queue := [] })

/-- The result of a finished run, which is given out once. -/
def tryResult (b : Background α periods instruments) :
    Option (RunResult α) × Background α periods instruments :=
  if b.isFinished && !b.taken then (b.result, { b with taken := true }) else (none, b)

def cancel (b : Background α periods instruments) : Background α periods instruments :=
  { b with cancelled := true }

@[specialize] def workFor : Nat → Background α periods instruments →
    Background α periods instruments
  | 0, b => b
  | fuel + 1, b => if b.isFinished then b else workFor fuel b.work

@[specialize] def complete (b : Background α periods instruments) :
    Background α periods instruments :=
  workFor (3 * b.run.remaining + b.outbox.length + 2) b

@[specialize] def join (b : Background α periods instruments) : Option (RunResult α) :=
  b.complete.tryResult.1

end Background

end Training

end FactorSearch
