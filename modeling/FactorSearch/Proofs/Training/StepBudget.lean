import FactorSearch.Proofs.Training.ExactSteps

/-!
# The budget of steps

A run holds one record for each step that it made.  The step that uses up the budget ends the run,
and a call for the next record finds a used up budget before it takes a step.  A step that is forced
does not look at the budget before it is made, which shows only where there was nothing to use up: a
run of no steps makes one if that is the first thing it is asked for.
-/

set_option autoImplicit false

namespace FactorSearch

namespace Training

variable {α : Type} [Scalar α] {periods instruments : Nat}

namespace Run

/-- The budget does not cover the step that is forced in the first of the calls. -/
def Overdraws (budget : Nat) (calls : List Call) : Prop := budget = 0 ∧ calls.head? = some .step

/-- What a run has spent of its budget after the calls. -/
structure Spending (budget : Nat) (calls : List Call) (run : Run α periods instruments) :
    Prop where
  limit : run.settings.stepCount = budget
  counted : run.step = run.records.size
  unasked : calls = [] → run.records.size = 0
  within : run.records.size ≤ budget ∨ Overdraws budget calls ∧ run.records.size = 1
  short : run.state.isTerminal = false → calls = [] ∨ run.records.size < budget

omit [Scalar α] in
theorem Fresh.spending {fresh : Run α periods instruments} (unused : fresh.Fresh) :
    Spending fresh.settings.stepCount [] fresh where
  limit := rfl
  counted := by rw [unused.step, unused.records]; rfl
  unasked _ := by rw [unused.records]; rfl
  within := by rw [unused.records]; exact Or.inl (Nat.zero_le _)
  short _ := Or.inl rfl

namespace Spending

variable {budget : Nat} {calls : List Call} {run : Run α periods instruments}

omit [Scalar α] in
theorem ended (spending : Spending budget calls run) (request : Call) (state : RunState)
    (stream : WordStream) (ends : state.isTerminal = true) :
    Spending budget (calls ++ [request]) { run with stream := stream, state := state } where
  limit := spending.limit
  counted := spending.counted
  unasked none := by simp at none
  within := by
    rcases spending.within with covered | ⟨⟨zero, first⟩, one⟩
    · exact Or.inl covered
    · exact Or.inr ⟨⟨zero, by rw [List.head?_append, first]; rfl⟩, one⟩
  short goes := by
    rw [ends] at goes
    cases goes

theorem stepped (spending : Spending budget calls run) (goes : run.state.isTerminal = false)
    (request : Call) (covered : request = .step ∨ run.step < budget)
    (batch : List (Episode α run.shape)) (stream : WordStream) :
    Spending budget (calls ++ [request]) (run.stepped batch stream) := by
  have made : (run.stepped batch stream).records.size = run.records.size + 1 := by
    rw [stepped_records, Array.size_push]
  have limit := spending.limit
  have counted := spending.counted
  refine ⟨by rw [stepped_settings, limit], ?counted, fun none => by simp at none, ?within, ?short⟩
  case counted =>
    rw [made, ← counted]
    rfl
  case within =>
    rw [made]
    rcases Nat.lt_or_ge run.records.size budget with free | full
    · exact Or.inl free
    · right
      obtain rfl : calls = [] := (spending.short goes).resolve_right (Nat.not_lt.mpr full)
      have none := spending.unasked rfl
      rcases covered with rfl | free
      · exact ⟨⟨by omega, rfl⟩, by omega⟩
      · omega
  case short =>
    intro going
    right
    have state : (run.stepped batch stream).state =
        if run.settings.stepCount ≤ run.step + 1 then .completed else .running run.step := rfl
    rw [state, limit] at going
    split at going
    · cases going
    · rw [made]
      omega

theorem call (spending : Spending budget calls run) (request : Call) :
    Spending budget (calls ++ [request]) (run.call request).2 := by
  have forced (covered : request = .step ∨ run.step < budget) :
      Spending budget (calls ++ [request]) run.advance.2 := by
    rcases run.advance_outcomes with ⟨ends, failure, refused⟩ | ⟨_, failure, stream, failed⟩ |
      ⟨goes, batch, stream, _, learned⟩
    · rw [refused]
      exact spending.ended request run.state run.stream ends
    · rw [failed]
      exact spending.ended request (.failed failure) stream rfl
    · rw [learned]
      exact spending.stepped goes request covered batch stream
  cases request with
  | step => exact forced (Or.inl rfl)
  | next cancelled =>
    rw [Run.call]
    rcases run.next_outcomes cancelled with ⟨ends, quiet⟩ | ⟨_, _, closed⟩ | ⟨_, _, _, closed⟩ |
      ⟨_, free, _, taken⟩
    · rw [quiet]
      exact spending.ended _ run.state run.stream ends
    · rw [closed]
      exact spending.ended _ .completed run.stream rfl
    · rw [closed]
      exact spending.ended _ .aborted run.stream rfl
    · rw [taken]
      exact forced (Or.inr (spending.limit ▸ free))

omit [Scalar α] in
/-- A run that was asked for something and has used up its budget has ended. -/
theorem terminal_of_full (spending : Spending budget calls run) (some : 0 < budget ∨ calls ≠ [])
    (full : budget ≤ run.records.size) : run.state.isTerminal = true := by
  by_contra goes
  rw [Bool.not_eq_true] at goes
  rcases spending.short goes with none | free
  · have unspent := spending.unasked none
    rcases some with positive | asked
    · omega
    · exact asked none
  · omega

end Spending

theorem Fresh.spending_calls {fresh : Run α periods instruments} (unused : fresh.Fresh)
    (calls : List Call) : Spending fresh.settings.stepCount calls (fresh.after calls) := by
  induction calls using List.reverseRecOn with
  | nil => exact unused.spending
  | append_singleton earlier request ih =>
    rw [after_snoc]
    exact ih.call request

/-- A step that is forced on a run that goes on is recorded once its batch is drawn and scored. -/
theorem forced_step (run : Run α periods instruments) (goes : run.state.isTerminal = false)
    (batch : List (Episode α run.shape)) (stream : WordStream)
    (sampled : run.batch = (.ok batch, stream)) :
    run.advance.1 = .ok (run.learn batch).1 ∧
      (run.after [.step]).records = run.records.push (run.learn batch).1 := by
  have advanced : run.advance = (.ok (run.learn batch).1, run.stepped batch stream) := by
    simp only [advance, goes, Bool.false_eq_true, if_false, sampled]
    rfl
  have reached : run.after [.step] = run.advance.2 := rfl
  rw [reached, advanced, stepped_records]
  exact ⟨rfl, rfl⟩

/-- In exact arithmetic a created run makes the step that is forced first, whatever its budget. -/
theorem first_step_made (settings : Settings ℝ) (v : Vocabulary)
    (features : FeatureSet ℝ periods instruments) (seed : UInt64)
    (fresh : Run ℝ periods instruments) (created : create settings v features seed = .ok fresh) :
    ∃ record, fresh.advance.1 = .ok record ∧ (fresh.after [.step]).records = #[record] := by
  obtain ⟨batch, last, sampled⟩ :=
    exists_batch settings v features seed fresh created fresh.learner fresh.stream
  have unused := fresh_of_create settings v features seed fresh created fresh.learner fresh.stream
  have goes : fresh.state.isTerminal = false := by
    rw [unused.state]
    rfl
  obtain ⟨made, recorded⟩ := fresh.forced_step goes batch last sampled
  refine ⟨_, made, ?_⟩
  rw [recorded, unused.records]
  rfl

theorem settings_of_create (settings : Settings α) (v : Vocabulary)
    (features : FeatureSet α periods instruments) (seed : UInt64)
    (fresh : Run α periods instruments) (created : create settings v features seed = .ok fresh) :
    fresh.settings = settings.training := by
  simp only [create, Result.bind_eq_ok_iff] at created
  obtain ⟨_, _, _, _, _, _, _, _, built⟩ := created
  cases Except.ok.inj built
  rfl

/-- The budget of steps is kept by a run of at least one step, whatever it started from as its
parameters and its words, and however steps and calls for the next record follow one another.  Once
its records use up the budget every further step is refused, and no call changes the run.  A run of
no steps keeps its budget unless a step is the first thing it is asked for; that step is the only
one it makes. -/
theorem budget_kept (settings : Settings α) (v : Vocabulary)
    (features : FeatureSet α periods instruments) (seed : UInt64)
    (fresh : Run α periods instruments) (created : create settings v features seed = .ok fresh)
    (learner : Learner α fresh.shape) (stream : WordStream) (calls : List Call) :
    let start := { fresh with learner := learner, stream := stream }
    let run := start.after calls
    let budget := settings.training.stepCount
    (0 < budget ∨ calls.head? ≠ some .step → run.records.size ≤ budget) ∧
      (budget = 0 → run.records.size ≤ 1) ∧
      (0 < budget ∨ calls ≠ [] → budget ≤ run.records.size →
        run.advance = (.error (.internal (.finishedRun run.state.description)), run) ∧
          (∀ cancelled, run.next cancelled = (none, run)) ∧ ∀ more, run.after more = run) := by
  intro start run budget
  have unused : start.Fresh := fresh_of_create settings v features seed fresh created learner stream
  have spending : Spending budget calls run := by
    have limit : start.settings.stepCount = budget :=
      congrArg TrainingSettings.stepCount
        (settings_of_create settings v features seed fresh created)
    exact limit ▸ unused.spending_calls calls
  refine ⟨fun covered => ?_, fun zero => ?_, fun some full => ?_⟩
  · rcases spending.within with within | ⟨⟨zero, first⟩, -⟩
    · exact within
    · rcases covered with positive | other
      · omega
      · exact absurd first other
  · rcases spending.within with within | ⟨-, one⟩ <;> omega
  · have ends := spending.terminal_of_full some full
    exact ⟨run.advance_of_terminal ends, run.next_of_terminal ends, run.after_of_terminal ends⟩

end Run

/-! ## Runs over programs of one token -/

noncomputable def leafBudget (budget : Nat) : Settings ℝ :=
  { leafSettings with training := { leafSettings.training with stepCount := budget } }

theorem leafBudget_valid (budget : Nat) : (leafBudget budget).validate = .ok () :=
  leafSettings_valid

theorem leafBudget_created (budget : Nat) :
    ∃ fresh, Run.create (leafBudget budget) ⟨false⟩ leafFeatures 0 = .ok fresh := by
  have required : leafFeatures.require (Vocabulary.featureNames ⟨false⟩) = .ok () := by rfl
  have shaped : Policy.Shape.create (Vocabulary.size ⟨false⟩) 1 8 2 1 =
      .ok ⟨Vocabulary.size ⟨false⟩, 1, 2, 4, 1⟩ := by rfl
  have bound : Scorer.create ⟨false⟩ leafSettings.reward leafFeatures = .ok leafScorer := by rfl
  simp only [Run.create, Result.bind_eq_ok_iff]
  exact ⟨_, (), leafBudget_valid budget, (), required, _, shaped, _, bound, rfl⟩

theorem single_step_budget_kept :
    ∃ fresh, Run.create (leafBudget 1) ⟨false⟩ leafFeatures 0 = .ok fresh ∧
      let run := fresh.after [.step]
      run.records.size = (leafBudget 1).training.stepCount ∧
        run.advance = (.error (.internal (.finishedRun run.state.description)), run) ∧
        run.after [.next false, .step, .next true] = run := by
  obtain ⟨fresh, created⟩ := leafBudget_created 1
  obtain ⟨record, -, records⟩ :=
    Run.first_step_made (leafBudget 1) ⟨false⟩ leafFeatures 0 fresh created
  obtain ⟨-, -, spent⟩ := Run.budget_kept (leafBudget 1) ⟨false⟩ leafFeatures 0 fresh created
    fresh.learner fresh.stream [.step]
  have full := congrArg Array.size records
  obtain ⟨refused, -, stays⟩ := spent (Or.inl Nat.one_pos) full.ge
  exact ⟨fresh, created, full, refused, stays _⟩

/-- A run of no steps, which holds as many records as it has steps, makes a step all the same. -/
theorem stepless_run_overdraws :
    (leafBudget 0).validate = .ok () ∧ (leafBudget 0).training.stepCount = 0 ∧
      ∃ fresh record, Run.create (leafBudget 0) ⟨false⟩ leafFeatures 0 = .ok fresh ∧
        fresh.records = #[] ∧ fresh.advance.1 = .ok record ∧
          (fresh.after [.step]).records = #[record] := by
  obtain ⟨fresh, created⟩ := leafBudget_created 0
  obtain ⟨record, made, records⟩ :=
    Run.first_step_made (leafBudget 0) ⟨false⟩ leafFeatures 0 fresh created
  have unused := Run.fresh_of_create _ _ _ _ fresh created fresh.learner fresh.stream
  exact ⟨leafBudget_valid 0, rfl, fresh, record, created, unused.records, made, records⟩

end Training

end FactorSearch
