import Mathlib
import FactorSearch.Proofs.Training.Replay

/-!
# The gradient of the loss

In exact arithmetic the loss of a batch is the sum of what its steps contribute, and the gradient
that an update accumulates is the sum of their gradients.  So the accumulated gradient is the
gradient of the reported loss, coordinate by coordinate, where the loss depends on the parameters
through the replayed batch.
-/

set_option autoImplicit false

namespace FactorSearch

namespace Training

open Sampling

variable {s : Policy.Shape}

/-! ## Sums over a batch -/

/-- A measure to which every step adds its share ends up with the sum of the shares. -/
theorem foldl_measure {β γ : Type} (measure : γ → ℝ) (step : γ → β → γ) (share : β → ℝ)
    (adds : ∀ total value, measure (step total value) = measure total + share value) (start : γ)
    (values : List β) :
    measure (values.foldl step start) = measure start + (values.map share).sum := by
  induction values generalizing start with
  | nil => simp
  | cons first rest ih =>
    rw [List.foldl_cons, ih, adds, List.map_cons, List.sum_cons, add_assoc]

theorem hasDerivAt_sum_map {β : Type} {x₀ : ℝ} (f : ℝ → β → ℝ) (f' : β → ℝ) (values : List β)
    (each : ∀ value ∈ values, HasDerivAt (fun x => f x value) (f' value) x₀) :
    HasDerivAt (fun x => (values.map (f x)).sum) (values.map f').sum x₀ := by
  induction values with
  | nil => exact hasDerivAt_const x₀ 0
  | cons first rest ih =>
    simp only [List.map_cons, List.sum_cons]
    exact (each first List.mem_cons_self).add
      (ih fun value member => each value (List.mem_cons_of_mem _ member))

noncomputable def episodeLoss (entropyCoefficient baseline size : ℝ) (e : Episode ℝ s) : ℝ :=
  (e.sample.decisions.map fun d => Policy.stepLoss ((e.reward - baseline) / size)
    (entropyCoefficient / size) d.trace d.action).sum

theorem sum_stepLoss (advantage entropyScale : ℝ) (decisions : List (Decision ℝ s)) :
    (decisions.map fun d => Policy.stepLoss advantage entropyScale d.trace d.action).sum =
      -(advantage * (decisions.map fun d => d.trace.logProbability d.action).sum) -
        entropyScale * (decisions.map fun d => d.trace.entropy).sum := by
  induction decisions with
  | nil => simp
  | cons first rest ih =>
    rw [List.map_cons, List.sum_cons, ih, Policy.stepLoss]
    simp only [List.map_cons, List.sum_cons]
    ring

theorem loss_real (entropyCoefficient baseline : ℝ) (batch : List (Episode ℝ s))
    (logarithms : ∀ e ∈ batch, ∀ d ∈ e.sample.decisions,
      d.logProbability = d.trace.logProbability d.action) :
    loss entropyCoefficient baseline batch =
      (batch.map (episodeLoss entropyCoefficient baseline (batchSize batch))).sum := by
  have folded := foldl_measure id
    (fun total (e : Episode ℝ s) =>
      total - (e.reward - baseline) * e.sample.logProbability / batchSize batch -
        entropyCoefficient * e.sample.entropy / batchSize batch)
    (fun e => -((e.reward - baseline) * e.sample.logProbability / batchSize batch) -
      entropyCoefficient * e.sample.entropy / batchSize batch)
    (fun total e => by simp only [id]; ring) 0 batch
  have shares : ∀ e ∈ batch,
      -((e.reward - baseline) * e.sample.logProbability / batchSize batch) -
        entropyCoefficient * e.sample.entropy / batchSize batch =
          episodeLoss entropyCoefficient baseline (batchSize batch) e := by
    intro e member
    rw [episodeLoss, sum_stepLoss, Sample.logProbability, Sample.entropy, Scalar.total_real,
      Scalar.total_real, List.map_congr_left (logarithms e member)]
    ring
  rw [List.map_congr_left shares, id, id, zero_add] at folded
  rw [loss, ← folded]
  exact congrArg (fun start => batch.foldl _ start) Scalar.zero_real

noncomputable def stepGradient (p : Policy.Parameters ℝ s) (advantage entropyScale : ℝ)
    (c : Policy.Coordinate s) (d : Decision ℝ s) : ℝ :=
  (Policy.backward p d.trace
    (Policy.logitGradient d.trace d.action advantage entropyScale)).derivative
    (d.trace.tower.map Policy.LayerTrace.input).toArray c

theorem get_gradient (entropyCoefficient baseline : ℝ) (p : Policy.Parameters ℝ s)
    (batch : List (Episode ℝ s)) (c : Policy.Coordinate s) :
    (gradient entropyCoefficient baseline p batch).get c =
      (batch.map fun e => (e.sample.decisions.map (stepGradient p
        ((e.reward - baseline) / batchSize batch) (entropyCoefficient / batchSize batch) c)).sum
      ).sum := by
  let entry (total : Policy.Parameters ℝ s) : ℝ := total.get c
  have accumulated : ∀ (total : Policy.Parameters ℝ s) (advantage : ℝ) (d : Decision ℝ s),
      entry (Policy.accumulate p total d.trace (Policy.logitGradient d.trace d.action advantage
        (entropyCoefficient / batchSize batch))) = entry total +
          stepGradient p advantage (entropyCoefficient / batchSize batch) c d := by
    intro total advantage d
    simp only [entry, Policy.accumulate, Policy.Parameters.get_ofFn]
    rfl
  have start : entry .zero = 0 := by
    simp only [entry, Policy.Parameters.zero, Policy.Parameters.get_ofFn, Scalar.zero_real]
  have folded := foldl_measure entry _ _
    (fun total (e : Episode ℝ s) => foldl_measure entry _ _
      (fun total d => accumulated total ((e.reward - baseline) / batchSize batch) d) total
      e.sample.decisions) .zero batch
  rw [start, zero_add] at folded
  exact folded

/-! ## The replayed loss -/

namespace Episode

noncomputable def replayed (q : Policy.Parameters ℝ s) (e : Episode ℝ s) : Episode ℝ s :=
  ⟨e.sample.replayed q, e.verdict⟩

variable {p : Policy.Parameters ℝ s} {e : Episode ℝ s}

theorem replay_eq (recorded : ∀ d ∈ e.sample.decisions, d.Recorded p)
    (q : Policy.Parameters ℝ s) : e.replay q = .ok (e.replayed q) := by
  rw [replay, Sample.replay_eq recorded q]
  rfl

theorem replayed_self (recorded : ∀ d ∈ e.sample.decisions, d.Recorded p) :
    e.replayed p = e := by
  rw [replayed, Sample.replayed_self recorded]

end Episode

theorem hasDerivAt_replayed_loss (p : Policy.Parameters ℝ s) (batch : List (Episode ℝ s))
    (recorded : ∀ e ∈ batch, ∀ d ∈ e.sample.decisions, d.Recorded p)
    (entropyCoefficient baseline : ℝ) (c : Policy.Coordinate s) :
    HasDerivAt
      (fun x => loss entropyCoefficient baseline (batch.map (Episode.replayed (p.set c x))))
      ((gradient entropyCoefficient baseline p batch).get c) (p.get c) := by
  have unrolled : ∀ q, loss entropyCoefficient baseline (batch.map (Episode.replayed q)) =
      (batch.map fun e => (e.sample.decisions.map fun d =>
        Policy.stepLoss ((e.reward - baseline) / batchSize batch)
          (entropyCoefficient / batchSize batch) (d.replayed q).trace d.action).sum).sum := by
    intro q
    -- replaying keeps the length of the batch, and so the scale of every share
    have size : batchSize (batch.map (Episode.replayed q)) = batchSize batch := by
      rw [batchSize, List.length_map, batchSize]
    rw [loss_real, List.map_map, size]
    · apply congrArg List.sum
      apply List.map_congr_left
      intro e _
      simp only [Function.comp_apply, episodeLoss, Episode.replayed, Sample.replayed, List.map_map]
      rfl
    · intro other inBatch d member
      obtain ⟨e, _, rfl⟩ := List.mem_map.mp inBatch
      obtain ⟨d, _, rfl⟩ := List.mem_map.mp member
      rfl
  simp only [unrolled, get_gradient]
  apply hasDerivAt_sum_map
  intro e inBatch
  apply hasDerivAt_sum_map
  intro d member
  obtain ⟨action, same, allowed⟩ := (recorded e inBatch d member).allowed
  rw [stepGradient, ← same]
  exact Policy.hasDerivAt_stepLoss_set p c _ _ _ action allowed _ _ _
    (recorded e inBatch d member).retraced.2.2.2

/-! ## The gradient that is applied -/

/-- The gradient that an update accumulates is the gradient of the loss that it reports: for a
batch drawn with the learner's parameters, whatever the verdicts, the loss of the batch replayed
with other parameters has the accumulated numbers as its partial derivatives. -/
theorem reported_loss_gradient (s : Policy.Shape) (g : Generator)
    (pick : List ℝ → UInt64 → Result Nat) (faithful : Choice.Faithful pick)
    (learner : Learner ℝ s) (count : Nat) (stream last : WordStream)
    (samples : List (Sample ℝ s))
    (sampled : g.samplesWith pick learner.parameters count stream = (.ok samples, last))
    (verdicts : List (Assessment ℝ)) (settings : TrainingSettings ℝ) (baseline : ℝ) :
    ∃ replayed : Policy.Parameters ℝ s → List (Episode ℝ s),
      (∀ q, replay q (List.zipWith Episode.mk samples verdicts) = .ok (replayed q)) ∧
      replayed learner.parameters = List.zipWith Episode.mk samples verdicts ∧
      ∀ c, HasDerivAt
        (fun x => (Learner.update ⟨learner.parameters.set c x, learner.optimizer⟩ settings baseline
          (replayed (learner.parameters.set c x))).1)
        ((gradient settings.entropyCoefficient baseline learner.parameters
          (List.zipWith Episode.mk samples verdicts)).get c)
        (learner.parameters.get c) := by
  have recorded : ∀ e ∈ List.zipWith Episode.mk samples verdicts, ∀ d ∈ e.sample.decisions,
      d.Recorded learner.parameters := by
    intro e inBatch
    rw [← List.map_uncurry_zip_eq_zipWith] at inBatch
    obtain ⟨⟨sample, verdict⟩, pair, rfl⟩ := List.mem_map.mp inBatch
    exact Generator.samplesWith_recorded faithful g _ _ _ _ _ sampled sample
      (List.of_mem_zip pair).1
  have reported : ∀ (other : Learner ℝ s) (batch : List (Episode ℝ s)),
      (other.update settings baseline batch).1 =
        loss settings.entropyCoefficient baseline batch := by
    intro other batch
    simp only [Learner.update]
    split
    · rfl
    · rfl
  refine ⟨fun q => (List.zipWith Episode.mk samples verdicts).map (Episode.replayed q), ?_, ?_, ?_⟩
  · intro q
    exact mapM_eq_ok _ _ _ fun e inBatch => Episode.replay_eq (recorded e inBatch) q
  · refine (List.map_congr_left fun e inBatch =>
      Episode.replayed_self (recorded e inBatch)).trans ?_
    exact List.map_id' _
  · intro c
    simp only [reported]
    exact hasDerivAt_replayed_loss _ _ recorded _ _ c

theorem first_leaf_gradient :
    ∃ samples last, Choice.Faithful (Choice.draw (α := ℝ)) ∧
      (Generator.ofVocabulary ⟨false⟩ 1).samplesWith Choice.draw
        (Policy.Parameters.zero (s := ⟨Vocabulary.size ⟨false⟩, 1, 2, 4, 1⟩)) 1 ⟨fun _ => 0, 0⟩ =
          (.ok samples, last) ∧
      samples.map Sample.actions = [[24, 28]] ∧
      ∃ replayed : Policy.Parameters ℝ _ → List (Episode ℝ _),
        (∀ q, replay q (List.zipWith Episode.mk samples [.degenerate .nonFinite (-1)]) =
          .ok (replayed q)) ∧
        replayed .zero = List.zipWith Episode.mk samples [.degenerate .nonFinite (-1)] ∧
        ∀ c, HasDerivAt
          (fun x => (Learner.update ⟨Policy.Parameters.zero.set c x, .fresh 1⟩
            ⟨1, 1, 1, 1, 1, 1, none, 1⟩ 0 (replayed (Policy.Parameters.zero.set c x))).1)
          ((gradient 1 0 .zero
            (List.zipWith Episode.mk samples [.degenerate .nonFinite (-1)])).get c)
          (Policy.Parameters.zero.get c) := by
  obtain ⟨samples, last, sampled, taken⟩ :=
    Takes.exists_samples (g := .ofVocabulary ⟨false⟩ 1) first_leaf_taken .zero 1 0
  refine ⟨samples, last, Choice.draw_sound.toFaithful, sampled, taken, ?_⟩
  exact reported_loss_gradient _ _ _ Choice.draw_sound.toFaithful ⟨.zero, .fresh 1⟩ 1 _ _ _ sampled
    [.degenerate .nonFinite (-1)] ⟨1, 1, 1, 1, 1, 1, none, 1⟩ 0

end Training

end FactorSearch
