import FactorSearch.Proofs.Double.Order
import FactorSearch.Proofs.Evaluation.Agreement
import FactorSearch.Settings.Layers

/-!
# The ranges of settings

Validation tests each number against its bounds.  A test that looks for a number inside its bounds
refuses a missing number; one that looks for a number beyond its only bound lets it pass.  So the
settings that a store can hold are those in range, and those where numbers with a single bound are
missing.
-/

set_option autoImplicit false

namespace FactorSearch

namespace Settings

variable {α : Type} [Scalar α]

def numbers (s : Settings α) : List α :=
  [s.training.learningRate, s.training.entropyCoefficient, s.training.baselineDecay,
    s.training.maxGradientNorm, s.reward.invalidReward, s.reward.degenerateReward,
    s.reward.costRate, s.reward.signalThreshold, s.reward.maxMissing, s.reward.maxFlat,
    s.reward.flatDeviation]

/-- The numbers that only have to stay on one side of a bound. -/
def oneSided (s : Settings α) : List α :=
  [s.training.entropyCoefficient, s.training.maxGradientNorm, s.reward.costRate,
    s.reward.signalThreshold, s.reward.flatDeviation]

/-- Numbers within two bounds, which a missing number is not. -/
structure Bounded (s : Settings α) : Prop where
  learningRate : Scalar.lt 0 s.training.learningRate = true ∧
    Scalar.isFinite s.training.learningRate = true
  baselineDecay : Scalar.le 0 s.training.baselineDecay = true ∧
    Scalar.lt s.training.baselineDecay 1 = true
  penalties : Scalar.le s.reward.invalidReward s.reward.degenerateReward = true ∧
    Scalar.lt s.reward.degenerateReward (-1) = true
  maxMissing : Scalar.le 0 s.reward.maxMissing = true ∧ Scalar.le s.reward.maxMissing 1 = true
  maxFlat : Scalar.le 0 s.reward.maxFlat = true ∧ Scalar.le s.reward.maxFlat 1 = true

/-- Settings whose numbers are all known and within their bounds. -/
structure InRange (s : Settings α) : Prop extends Bounded s where
  present : ∀ x ∈ s.numbers, Scalar.isNaN x = false
  entropyCoefficient : Scalar.le 0 s.training.entropyCoefficient = true
  maxGradientNorm : Scalar.lt 0 s.training.maxGradientNorm = true
  costRate : Scalar.le 0 s.reward.costRate = true
  signalThreshold : Scalar.le 0 s.reward.signalThreshold = true
  flatDeviation : Scalar.le 0 s.reward.flatDeviation = true

/-- Settings whose numbers are within their bounds, but for missing ones with a single bound. -/
structure InRangeOrMissing (s : Settings α) : Prop extends Bounded s where
  entropyCoefficient : Scalar.isNaN s.training.entropyCoefficient = true ∨
    Scalar.le 0 s.training.entropyCoefficient = true
  maxGradientNorm : Scalar.isNaN s.training.maxGradientNorm = true ∨
    Scalar.lt 0 s.training.maxGradientNorm = true
  costRate : Scalar.isNaN s.reward.costRate = true ∨ Scalar.le 0 s.reward.costRate = true
  signalThreshold : Scalar.isNaN s.reward.signalThreshold = true ∨
    Scalar.le 0 s.reward.signalThreshold = true
  flatDeviation : Scalar.isNaN s.reward.flatDeviation = true ∨
    Scalar.le 0 s.reward.flatDeviation = true

theorem guard_eq_ok_iff (refused : Prop) [Decidable refused] (failure : Failure)
    (next : Result Unit) :
    (if refused then .error failure else next) = .ok () ↔ ¬ refused ∧ next = .ok () := by
  split <;> simp [*]

section Ordered

variable [Scalar.Ordered α]

theorem zero_present : Scalar.isNaN (0 : α) = false :=
  Scalar.Ordered.present _ (Scalar.Ordered.small_finite 0 (by decide)).1

theorem training_validate_iff (s : TrainingSettings α) :
    s.validate = .ok () ↔ s.batchSize ≠ 0 ∧
      (Scalar.lt 0 s.learningRate = true ∧ Scalar.isFinite s.learningRate = true) ∧
      (Scalar.le 0 s.baselineDecay = true ∧ Scalar.lt s.baselineDecay 1 = true) ∧
      (Scalar.isNaN s.entropyCoefficient = true ∨ Scalar.le 0 s.entropyCoefficient = true) ∧
      (Scalar.isNaN s.maxGradientNorm = true ∨ Scalar.lt 0 s.maxGradientNorm = true) := by
  rw [← Scalar.Ordered.lt_eq_false_iff _ zero_present,
    ← Scalar.Ordered.le_eq_false_iff _ zero_present]
  simp [TrainingSettings.validate, guard_eq_ok_iff]

theorem reward_validate_iff (s : RewardSettings α) :
    s.validate = .ok () ↔
      (Scalar.le s.invalidReward s.degenerateReward = true ∧
        Scalar.lt s.degenerateReward (-1) = true) ∧
      ((Scalar.isNaN s.costRate = true ∨ Scalar.le 0 s.costRate = true) ∧
        (Scalar.isNaN s.signalThreshold = true ∨ Scalar.le 0 s.signalThreshold = true)) ∧
      ((Scalar.le 0 s.maxMissing = true ∧ Scalar.le s.maxMissing 1 = true) ∧
        Scalar.le 0 s.maxFlat = true ∧ Scalar.le s.maxFlat 1 = true) ∧
      (Scalar.isNaN s.flatDeviation = true ∨ Scalar.le 0 s.flatDeviation = true) := by
  rw [← Scalar.Ordered.lt_eq_false_iff _ zero_present,
    ← Scalar.Ordered.lt_eq_false_iff _ zero_present,
    ← Scalar.Ordered.lt_eq_false_iff _ zero_present]
  simp [RewardSettings.validate, RewardSettings.isRatio, guard_eq_ok_iff]

theorem validate_eq_ok_iff (s : Settings α) :
    s.validate = .ok () ↔
      s.model.validate = .ok () ∧ s.training.batchSize ≠ 0 ∧ s.InRangeOrMissing := by
  have sections : s.validate = .ok () ↔ s.model.validate = .ok () ∧
      s.training.validate = .ok () ∧ s.reward.validate = .ok () := by
    simp only [validate, Result.bind_eq_ok_iff]
    constructor
    · rintro ⟨_, model, _, training, _, reward, -⟩
      exact ⟨model, training, reward⟩
    · rintro ⟨model, training, reward⟩
      exact ⟨(), model, (), training, (), reward, rfl⟩
  rw [sections, training_validate_iff, reward_validate_iff]
  constructor
  · rintro ⟨model, ⟨batch, rate, decay, entropy, norm⟩, penalties, ⟨cost, threshold⟩,
      ⟨missing, flat⟩, deviation⟩
    exact ⟨model, batch, ⟨⟨rate, decay, penalties, missing, flat⟩, entropy, norm, cost, threshold,
      deviation⟩⟩
  · rintro ⟨model, batch, ⟨⟨rate, decay, penalties, missing, flat⟩, entropy, norm, cost, threshold,
      deviation⟩⟩
    exact ⟨model, ⟨batch, rate, decay, entropy, norm⟩, penalties, ⟨cost, threshold⟩,
      ⟨missing, flat⟩, deviation⟩

/-- What separates the settings that pass from those in range are missing numbers. -/
theorem inRange_iff (s : Settings α) :
    s.InRange ↔ s.InRangeOrMissing ∧ ∀ x ∈ s.oneSided, Scalar.isNaN x = false := by
  constructor
  · intro range
    have known : s.oneSided ⊆ s.numbers := by simp [oneSided, numbers]
    exact ⟨⟨range.toBounded, Or.inr range.entropyCoefficient, Or.inr range.maxGradientNorm,
      Or.inr range.costRate, Or.inr range.signalThreshold, Or.inr range.flatDeviation⟩,
      fun x member => range.present x (known member)⟩
  · rintro ⟨passes, known⟩
    have within {x : α} {bound : Prop} (member : x ∈ s.oneSided)
        (either : Scalar.isNaN x = true ∨ bound) : bound :=
      either.resolve_left (by rw [known x member]; exact Bool.false_ne_true)
    have below {x y : α} (ordered : Scalar.le x y = true) :
        Scalar.isNaN x = false ∧ Scalar.isNaN y = false :=
      ⟨((Scalar.Ordered.le_iff x y).mp ordered).1, ((Scalar.Ordered.le_iff x y).mp ordered).2.1⟩
    refine
      { toBounded := passes.toBounded
        present := ?present
        entropyCoefficient := within (by simp [oneSided]) passes.entropyCoefficient
        maxGradientNorm := within (by simp [oneSided]) passes.maxGradientNorm
        costRate := within (by simp [oneSided]) passes.costRate
        signalThreshold := within (by simp [oneSided]) passes.signalThreshold
        flatDeviation := within (by simp [oneSided]) passes.flatDeviation }
    case present =>
      have rate := Scalar.Ordered.present _ passes.learningRate.2
      have decay := (below passes.baselineDecay.1).2
      have penalties := below passes.penalties.1
      have missing := (below passes.maxMissing.1).2
      have flat := (below passes.maxFlat.1).2
      simp only [oneSided, List.forall_mem_cons] at known
      obtain ⟨entropy, norm, cost, threshold, deviation, -⟩ := known
      simp only [numbers, List.forall_mem_cons]
      exact ⟨rate, entropy, decay, norm, penalties.1, penalties.2, cost, threshold, missing, flat,
        deviation, List.forall_mem_nil _⟩

end Ordered

end Settings

theorem Document.valid_of_load (codec : Codec) (document : Option (Layers.Format × String))
    (environment : List (String × String)) (settings : Settings Float)
    (loaded : load codec document environment = .ok settings) : settings.validate = .ok () := by
  rw [load] at loaded
  split at loaded
  · cases loaded
  · split at loaded
    · cases loaded
    · obtain ⟨_, valid, kept⟩ := (Result.bind_eq_ok_iff ..).mp loaded
      cases Except.ok.inj kept
      exact valid

namespace SettingsStore

/-- The stores that come from the initial one by updates and loads that succeed, whatever documents
are written in. -/
inductive Held : SettingsStore → Prop where
  | initial : Held .initial
  | update (store later : SettingsStore) (change : Settings Float → Settings Float) :
      Held store → store.update change = .ok later → Held later
  | load (codec : Document.Codec) (store later : SettingsStore)
      (document : Layers.Format × String) (environment : List (String × String)) :
      Held store → store.loadWith codec document environment = .ok later → Held later

/-- Every change ends in a validation. -/
theorem Held.valid {store : SettingsStore} (held : store.Held) :
    store.current.validate = .ok () := by
  cases held with
  | initial => rfl
  | update before _ change _ updated =>
    simp only [SettingsStore.update, Result.bind_eq_ok_iff] at updated
    obtain ⟨_, valid, made⟩ := updated
    cases Except.ok.inj made
    exact valid
  | load codec before _ document environment _ loaded =>
    simp only [SettingsStore.loadWith, Result.bind_eq_ok_iff] at loaded
    obtain ⟨settings, read, made⟩ := loaded
    cases Except.ok.inj made
    exact Document.valid_of_load codec _ environment settings read

theorem held_iff (settings : Settings Float) : Held ⟨settings⟩ ↔ settings.validate = .ok () := by
  refine ⟨fun held => held.valid, fun valid => ?_⟩
  refine .update .initial ⟨settings⟩ (fun _ => settings) .initial ?_
  rw [SettingsStore.update, valid]
  rfl

/-- What a store can hold, and so what validation accepts: settings whose network and batch are
sound and whose numbers are within their bounds, except that a number with one bound may be missing.
They are in range just when none of these is. -/
theorem held_iff_inRangeOrMissing (settings : Settings Float) :
    (Held ⟨settings⟩ ↔ settings.model.validate = .ok () ∧ settings.training.batchSize ≠ 0 ∧
      settings.InRangeOrMissing) ∧
    (settings.validate = .ok () ↔ Held ⟨settings⟩) ∧
    (settings.InRange ↔ settings.InRangeOrMissing ∧
      ∀ x ∈ settings.oneSided, Scalar.isNaN x = false) := by
  refine ⟨?_, (held_iff settings).symm, settings.inRange_iff⟩
  rw [held_iff, Settings.validate_eq_ok_iff]

def boundless : Settings Float :=
  { (Settings.defaults : Settings Float) with
    training := { TrainingSettings.defaults with
      entropyCoefficient := Scalar.nan, maxGradientNorm := Scalar.nan }
    reward := { RewardSettings.defaults with
      costRate := Scalar.nan, signalThreshold := Scalar.nan, flatDeviation := Scalar.nan } }

/-- An update to such settings succeeds, although none of these numbers is within its bound. -/
theorem boundless_held :
    SettingsStore.initial.update (fun _ => boundless) = .ok ⟨boundless⟩ ∧ Held ⟨boundless⟩ ∧
    (∀ x ∈ boundless.oneSided, Scalar.isNaN x = true ∧ Scalar.le 0 x = false) ∧
    ¬ boundless.InRange := by
  have updated : SettingsStore.initial.update (fun _ => boundless) = .ok ⟨boundless⟩ := by rfl
  have missing : ∀ x ∈ boundless.oneSided, Scalar.isNaN x = true ∧ Scalar.le 0 x = false := by
    decide +kernel
  refine ⟨updated, .update _ _ _ .initial updated, missing, fun range => ?_⟩
  have charged := range.costRate
  rw [(missing boundless.reward.costRate (by simp [Settings.oneSided])).2] at charged
  cases charged

end SettingsStore

end FactorSearch
