import FactorSearch.Proofs.Settings.Documents
import FactorSearch.Proofs.Settings.Ranges

/-!
# Saved settings are loaded as they were

In any lawful notation, every count below two to the sixty-third and every number whose text reads
back as the number comes back from a saved document, and so do the metric, the flag and an absent
seed.  There is no room for larger counts, although validation lets them pass: settings with one
cannot be saved.
-/

set_option autoImplicit false

namespace FactorSearch

namespace Document

def counts (s : Settings Float) : List Nat :=
  [s.model.width, s.model.layers, s.model.heads, s.model.maxLength, s.training.batchSize,
    s.training.stepCount, s.training.hallSize] ++ s.training.seed.toList

theorem forall_mem_stated (fields : List (String × Option Plain)) (holds : Plain → Prop) :
    (∀ field ∈ stated fields, holds field.2) ↔
      ∀ field ∈ fields, ∀ value ∈ field.2, holds value := by
  simp only [stated, List.mem_filterMap, Option.map_eq_some_iff]
  constructor
  · intro each field member value known
    exact each (field.1, value) ⟨field, member, value, known, rfl⟩
  · rintro each _ ⟨field, member, value, known, rfl⟩
    exact each field member value known

/-- The values of settings are their counts and numbers, the metric and the flag. -/
theorem forall_value_iff (s : Settings Float) (holds : Plain → Prop) :
    (∀ part ∈ sections s, ∀ field ∈ part.2, holds field.2) ↔
      (∀ n ∈ counts s, holds (.count n)) ∧ (∀ x ∈ s.numbers, holds (.real x)) ∧
        holds (.name s.reward.primaryMetric.name) ∧ holds (.flag s.features.sentiment) := by
  have seed : (∀ value ∈ s.training.seed.map Plain.count, holds value) ↔
      ∀ n ∈ s.training.seed.toList, holds (.count n) := by
    cases s.training.seed with
    | none => simp
    | some n => simp
  simp only [sections, fieldsOf, List.map_cons, List.map_nil, List.forall_mem_cons,
    forall_mem_stated, modelFields, trainingFields, rewardFields, featureFields,
    Option.mem_some_iff, forall_eq', seed, counts, Settings.numbers, List.cons_append,
    List.nil_append, List.not_mem_nil, false_imp_iff, implies_true, and_true]
  tauto

theorem fits_iff (s : Settings Float) :
    (∀ part ∈ sections s, ∀ field ∈ part.2, field.2.fits = true) ↔
      ∀ n ∈ counts s, n < 2 ^ 63 := by
  have limit : Nat.pow 2 63 = 2 ^ 63 := rfl
  rw [forall_value_iff s fun value => value.fits = true]
  simp only [Plain.fits, decide_eq_true_eq, limit, implies_true, and_true]

theorem isWord_metric (metric : PrimaryMetric) : IsWord metric.name := by
  cases metric <;> decide

theorem keeps_sections {codec : Codec} {s : Settings Float}
    (readsBack : ∀ x ∈ s.numbers, codec.ReadsBack x) :
    ∀ part ∈ sections s, ∀ field ∈ part.2, codec.Keeps field.2 :=
  (forall_value_iff s codec.Keeps).mpr
    ⟨fun _ _ => trivial, readsBack, isWord_metric _, trivial⟩

theorem ProperNames.sublist {some all : List String} (proper : ProperNames all)
    (part : some.Sublist all) : ProperNames some :=
  ⟨fun name member => proper.word name (part.subset member), proper.distinct.sublist part⟩

theorem stated_sublist (fields : List (String × Option Plain)) :
    ((stated fields).map Prod.fst).Sublist (fields.map Prod.fst) := by
  induction fields with
  | nil => exact .slnil
  | cons field rest ih =>
    obtain ⟨name, value⟩ := field
    cases value with
    | none => exact ih.cons name
    | some value => exact ih.cons_cons name

theorem named_sections (s : Settings Float) : Named (sections s) where
  names := by
    have names : (sections s).map Prod.fst = ["model", "training", "reward", "features"] := rfl
    rw [names]
    decide
  fields := by
    simp only [sections, fieldsOf, List.map_cons, List.map_nil, List.forall_mem_cons]
    refine ⟨?model, ?training, ?reward, ?features, List.forall_mem_nil _⟩
    case model | training | reward | features =>
      refine ProperNames.sublist ?_ (stated_sublist _)
      simp only [modelFields, trainingFields, rewardFields, featureFields, List.map_cons,
        List.map_nil]
      decide

/-! ## Reading the sections -/

theorem bind_of_some {β γ : Type} {x : Option β} {b : β} {next : β → Option γ} {result : Option γ}
    (here : x = some b) (later : next b = result) : x >>= next = result := by
  rw [here]
  exact later

theorem field?_of_known {β γ δ : Type} {means : γ → δ → Prop} {fields : String → Option γ}
    {members : List (String × δ)} (holds : Holds means fields members) {name : String} {d : δ}
    (member : (name, d) ∈ members) {read : γ → Option β} {b : β}
    (reads : ∀ value, means value d → read value = some b) (base : β) :
    field? fields name read base = some b := by
  obtain ⟨value, here, meant⟩ := holds.known _ member
  rw [field?, here]
  exact reads value meant

section Values

variable {codec : Codec} {fields : String → Option codec.Value} {name : String}
  {all : List (String × Option Plain)} (holds : Holds codec.Means fields (stated all))

include holds

theorem field?_of_stated {β : Type} {plain : Plain} (member : (name, some plain) ∈ all)
    {read : codec.Value → Option β} {b : β}
    (reads : ∀ value, codec.Means value plain → read value = some b) (base : β) :
    field? fields name read base = some b :=
  field?_of_known holds (List.mem_filterMap.mpr ⟨_, member, rfl⟩) reads base

theorem count_of_stated {n : Nat} (member : (name, some (.count n)) ∈ all) (base : Nat) :
    field? fields name codec.count? base = some n :=
  field?_of_stated holds member (fun _ meant => meant.2) base

theorem real_of_stated {x : Float} (member : (name, some (.real x)) ∈ all) (base : Float) :
    field? fields name codec.real? base = some x :=
  field?_of_stated holds member (fun _ meant => meant.2) base

theorem flag_of_stated {b : Bool} (member : (name, some (.flag b)) ∈ all) (base : Bool) :
    field? fields name codec.flag? base = some b :=
  field?_of_stated holds member (fun _ meant => meant.2) base

theorem metric_of_stated {metric : PrimaryMetric}
    (member : (name, some (.name metric.name)) ∈ all) (base : PrimaryMetric) :
    field? fields name (metric? codec) base = some metric := by
  have small : PrimaryMetric.names.map String.toLower = PrimaryMetric.names := by cbv
  have distinct : (PrimaryMetric.names.map String.toLower).Nodup := by
    rw [small]
    decide
  refine field?_of_stated holds member (fun value meant => ?_) base
  rw [metric?, meant.2 PrimaryMetric.names (by cases metric <;> decide) distinct]
  cases metric <;> rfl

/-- A count that is given is read, and without one the base decides, which has none. -/
theorem optional_of_stated {n? : Option Nat} (member : (name, n?.map .count) ∈ all)
    (distinct : (all.map Prod.fst).Nodup) :
    field? fields name (optional? codec codec.count?) none = some n? := by
  cases n? with
  | none =>
    have absent : name ∉ (stated all).map Prod.fst := by
      intro inside
      obtain ⟨_, listed, rfl⟩ := List.mem_map.mp inside
      obtain ⟨field, given, value⟩ := List.mem_filterMap.mp listed
      obtain ⟨plain, known, rfl⟩ := Option.map_eq_some_iff.mp value
      rw [← List.inj_on_of_nodup_map distinct member given rfl] at known
      cases known
    rw [field?, holds.absent name absent]
  | some n =>
    refine field?_of_stated holds member (fun value meant => ?_) none
    rw [optional?, meant.1, if_neg Bool.false_ne_true, meant.2, Option.map_some]

end Values

section Sections

variable {codec : Codec} {part : codec.Value}

theorem model?_stated {s : ModelSettings}
    (states : codec.States codec.Means part (stated (modelFields s))) (base : ModelSettings) :
    model? codec base part = some s := by
  obtain ⟨fields, found, holds⟩ := states
  exact bind_of_some (found _) <|
    bind_of_some (count_of_stated holds (by simp [modelFields]) _) <|
    bind_of_some (count_of_stated holds (by simp [modelFields]) _) <|
    bind_of_some (count_of_stated holds (by simp [modelFields]) _) <|
    bind_of_some (count_of_stated holds (by simp [modelFields]) _) rfl

theorem training?_stated {s : TrainingSettings Float}
    (states : codec.States codec.Means part (stated (trainingFields s))) :
    training? codec .defaults part = some s := by
  obtain ⟨fields, found, holds⟩ := states
  have names : ((trainingFields s).map Prod.fst).Nodup := by
    simp only [trainingFields, List.map_cons, List.map_nil]
    decide
  have seed := optional_of_stated holds (show ("seed", s.seed.map .count) ∈ trainingFields s by
    simp [trainingFields]) names
  exact bind_of_some (found _) <|
    bind_of_some (count_of_stated holds (by simp [trainingFields]) _) <|
    bind_of_some (real_of_stated holds (by simp [trainingFields]) _) <|
    bind_of_some (count_of_stated holds (by simp [trainingFields]) _) <|
    bind_of_some (real_of_stated holds (by simp [trainingFields]) _) <|
    bind_of_some (real_of_stated holds (by simp [trainingFields]) _) <|
    bind_of_some (real_of_stated holds (by simp [trainingFields]) _) <|
    bind_of_some seed <|
    bind_of_some (count_of_stated holds (by simp [trainingFields]) _) rfl

theorem reward?_stated {s : RewardSettings Float}
    (states : codec.States codec.Means part (stated (rewardFields s)))
    (base : RewardSettings Float) : reward? codec base part = some s := by
  obtain ⟨fields, found, holds⟩ := states
  exact bind_of_some (found _) <|
    bind_of_some (real_of_stated holds (by simp [rewardFields]) _) <|
    bind_of_some (real_of_stated holds (by simp [rewardFields]) _) <|
    bind_of_some (real_of_stated holds (by simp [rewardFields]) _) <|
    bind_of_some (real_of_stated holds (by simp [rewardFields]) _) <|
    bind_of_some (metric_of_stated holds (by simp [rewardFields]) _) <|
    bind_of_some (real_of_stated holds (by simp [rewardFields]) _) <|
    bind_of_some (real_of_stated holds (by simp [rewardFields]) _) <|
    bind_of_some (real_of_stated holds (by simp [rewardFields]) _) rfl

theorem features?_stated {s : FeatureSettings}
    (states : codec.States codec.Means part (stated (featureFields s))) (base : FeatureSettings) :
    features? codec base part = some s := by
  obtain ⟨fields, found, holds⟩ := states
  exact bind_of_some (found _) <|
    bind_of_some (flag_of_stated holds (by simp [featureFields]) _) rfl

theorem settings?_stated {s : Settings Float}
    (states : codec.States (codec.States codec.Means) part (sections s)) :
    settings? codec .defaults part = some s := by
  obtain ⟨fields, found, holds⟩ := states
  have section? {β : Type} {name : String} {all : List (String × Option Plain)}
      (member : (name, stated all) ∈ sections s) {read : codec.Value → Option β} {b : β}
      (reads : ∀ value, codec.States codec.Means value (stated all) → read value = some b)
      (base : β) : field? fields name read base = some b :=
    field?_of_known holds member reads base
  exact bind_of_some (found _) <|
    bind_of_some (section? (by simp [sections, fieldsOf])
      (fun _ inner => model?_stated inner _) _) <|
    bind_of_some (section? (by simp [sections, fieldsOf])
      (fun _ inner => training?_stated inner) _) <|
    bind_of_some (section? (by simp [sections, fieldsOf])
      (fun _ inner => reward?_stated inner _) _) <|
    bind_of_some (section? (by simp [sections, fieldsOf])
      (fun _ inner => features?_stated inner _) _) rfl

end Sections

end Document

namespace SettingsStore

variable {codec : Document.Codec}

theorem saves_iff (lawful : codec.Lawful) (store : SettingsStore) :
    (∃ text, store.saveWith codec = .ok text) ↔
      ∀ n ∈ Document.counts store.current, n < 2 ^ 63 := by
  rw [← Document.fits_iff, ← lawful.print _ (Document.named_sections store.current), saveWith,
    Document.write]
  cases codec.print (Document.sections store.current) with
  | none => simp
  | some text => simp

theorem print_of_saved {store : SettingsStore} {text : String}
    (saved : store.saveWith codec = .ok text) :
    codec.print (Document.sections store.current) = some text := by
  rw [saveWith, Document.write] at saved
  split at saved
  · rename_i printed
    rw [printed, Except.ok.inj saved]
  · cases saved

/-- Settings of a store are saved just if their counts fit the document.  Then a store that loads
the document has the same settings, if finite numbers are read back as they were written and no
variable of the environment is one of the program's. -/
theorem saved_loads_back (codec : Document.Codec) (lawful : codec.Lawful) (store : SettingsStore)
    (held : store.Held)
    (readsBack : ∀ x ∈ store.current.numbers, Scalar.isFinite x = true → codec.ReadsBack x)
    (environment : List (String × String))
    (unset : ∀ v ∈ environment,
      Layers.isOwn Document.environmentStart Document.environmentSeparator v = false)
    (fresh : SettingsStore) :
    ((∃ text, store.saveWith codec = .ok text) ↔
      ∀ n ∈ Document.counts store.current, n < 2 ^ 63) ∧
    ∀ text, store.saveWith codec = .ok text →
      fresh.loadWith codec (.toml, text) environment = .ok store := by
  refine ⟨saves_iff lawful store, fun text saved => ?_⟩
  have all : ∀ x ∈ store.current.numbers, codec.ReadsBack x := by
    intro x member
    cases finite : Scalar.isFinite x with
    | false => exact lawful.special x finite
    | true => exact readsBack x member finite
  obtain ⟨value, gathered, states⟩ := lawful.read _ text
    (Document.named_sections store.current) (Document.keeps_sections all) (print_of_saved saved)
    _ _ environment unset
  rw [loadWith, Document.load]
  simp only [gathered, Document.settings?_stated states, held.valid]
  rfl

def mixed : Settings Float :=
  { (Settings.defaults : Settings Float) with
    training := { TrainingSettings.defaults with
      entropyCoefficient := Scalar.nan, seed := some 1234 }
    reward := { RewardSettings.defaults with
      invalidReward := -Scalar.infinity, costRate := 0.002, primaryMetric := .rankIc }
    features := ⟨true⟩ }

theorem mixed_loads_back :
    Layers.codec.Lawful ∧ Held ⟨mixed⟩ ∧
    (∀ x ∈ mixed.numbers, Scalar.isFinite x = true → Layers.codec.ReadsBack x) ∧
    (∀ v ∈ [("HOME", "/home")],
      Layers.isOwn Document.environmentStart Document.environmentSeparator v = false) ∧
    ∃ text, SettingsStore.save ⟨mixed⟩ = .ok text ∧
      SettingsStore.initial.load (.toml, text) [("HOME", "/home")] = .ok ⟨mixed⟩ := by
  have held : Held ⟨mixed⟩ := (held_iff mixed).mpr (by rfl)
  have readsBack : ∀ x ∈ mixed.numbers, Scalar.isFinite x = true → Layers.codec.ReadsBack x := by
    simp only [Settings.numbers, List.forall_mem_cons]
    refine ⟨?_, ?_, ?_, ?_, ?_, ?_, ?_, ?_, ?_, ?_, ?_, List.forall_mem_nil _⟩ <;>
      exact fun _ => rfl
  have unset : ∀ v ∈ [("HOME", "/home")],
      Layers.isOwn Document.environmentStart Document.environmentSeparator v = false := by
    simp only [List.forall_mem_singleton]
    cbv
  have small : ∀ n ∈ Document.counts mixed, n < 2 ^ 63 := by decide
  obtain ⟨saves, loads⟩ := saved_loads_back Layers.codec Layers.codec_lawful ⟨mixed⟩ held readsBack
    _ unset .initial
  obtain ⟨text, saved⟩ := saves.mpr small
  exact ⟨Layers.codec_lawful, held, readsBack, unset, text, saved, loads text saved⟩

/-! ## A count that a document has no room for -/

/-- The default settings with a seed of sixty-four bits. -/
def farSeed : Settings Float :=
  { (Settings.defaults : Settings Float) with
    training := { TrainingSettings.defaults with seed := some (2 ^ 63) } }

/-- An update to a seed of sixty-four bits succeeds, but no lawful notation has room for it. -/
theorem farSeed_not_saved :
    SettingsStore.initial.update (fun settings =>
        { settings with training := { settings.training with seed := some (2 ^ 63) } }) =
      .ok ⟨farSeed⟩ ∧
    Held ⟨farSeed⟩ ∧ 2 ^ 63 < 2 ^ 64 ∧
    (∀ codec : Document.Codec, codec.Lawful →
      SettingsStore.saveWith codec ⟨farSeed⟩ = .error .settingsOutput) ∧
    SettingsStore.save ⟨farSeed⟩ = .error .settingsOutput := by
  have updated : SettingsStore.initial.update (fun settings =>
      { settings with training := { settings.training with seed := some (2 ^ 63) } }) =
      .ok ⟨farSeed⟩ := by rfl
  have refused (codec : Document.Codec) (lawful : codec.Lawful) :
      SettingsStore.saveWith codec ⟨farSeed⟩ = .error .settingsOutput := by
    cases saved : SettingsStore.saveWith codec ⟨farSeed⟩ with
    | ok text => exact absurd ((saves_iff lawful ⟨farSeed⟩).mp ⟨text, saved⟩) (by decide)
    | error failure =>
      rw [saveWith, Document.write] at saved
      split at saved <;> cases saved
      rfl
  exact ⟨updated, .update _ _ _ .initial updated, by decide, refused,
    refused Layers.codec Layers.codec_lawful⟩

end SettingsStore

end FactorSearch
