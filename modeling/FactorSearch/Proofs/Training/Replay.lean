import Mathlib
import FactorSearch.Proofs.Policy.StepGradient
import FactorSearch.Proofs.Sampling.NoRejection
import FactorSearch.Training.Learner

/-!
# Replaying a batch

A recorded batch can be decided again with other parameters: the same prefixes, depths, masks and
actions, with new forward passes.  In exact arithmetic that always succeeds, and with the
parameters that drew the batch it gives the batch itself.
-/

set_option autoImplicit false

namespace FactorSearch

namespace Sampling

section Replay

variable {α : Type} [Scalar α] {s : Policy.Shape}

namespace Decision

def prior (d : Decision α s) : List Nat := d.trace.inputs.toList.tail

def replay (q : Policy.Parameters α s) (d : Decision α s) : Result (Decision α s) :=
  match Policy.forward q d.prior d.trace.depth d.trace.mask.toList with
  | .error failure => .error failure
  | .ok trace => .ok ⟨trace, d.action, trace.logProbability d.action⟩

/-- A decision as sampling records it: a forward pass, an action of positive probability, and the
logarithm of that. -/
structure Recorded (p : Policy.Parameters α s) (d : Decision α s) : Prop where
  passed : ∃ actions depth allowed, Policy.forward p actions depth allowed = .ok d.trace
  positive : ∃ weight, d.trace.probabilities.toList[d.action]? = some weight ∧
    Scalar.lt 0 weight = true
  logarithm : d.logProbability = d.trace.logProbability d.action

end Decision

def Sample.replay (q : Policy.Parameters α s) (sample : Sample α s) : Result (Sample α s) :=
  match sample.decisions.mapM (Decision.replay q) with
  | .error failure => .error failure
  | .ok decisions => .ok ⟨sample.draw, decisions⟩

/-! ## What sampling records -/

namespace Generator

theorem walk_recorded {pick : List α → UInt64 → Result Nat} (faithful : Choice.Faithful pick)
    (g : Grammar) (p : Policy.Parameters α s) (fuel : Nat) (state : DecodeState)
    (tokens : List Nat) (stream last : WordStream) (walked : Walk α s)
    (run : walk pick g p fuel state tokens stream = (.ok walked, last)) :
    ∀ d ∈ walked.decisions, d.Recorded p := by
  induction fuel generalizing state tokens stream walked with
  | zero =>
    cases run
    nofun
  | succ fuel ih =>
    simp only [walk] at run
    split at run
    · cases run
      nofun
    · split at run
      · cases run
      · rename_i trace passed
        split at run
        · cases run
        · rename_i action picked
          -- whatever comes after, this decision is recorded
          have recorded : Decision.Recorded p ⟨trace, action, trace.logProbability action⟩ :=
            ⟨⟨_, _, _, passed⟩, faithful.positive _ _ _ picked, rfl⟩
          split at run
          · cases run
            intro d member
            rw [List.mem_singleton.mp member]
            exact recorded
          · split at run
            · cases run
            · split at run
              · rename_i later finish rest
                cases run
                intro d member
                rcases List.mem_cons.mp member with rfl | member
                · exact recorded
                · exact ih _ _ _ _ rest d member
              · cases run

theorem samplesWith_recorded {pick : List α → UInt64 → Result Nat}
    (faithful : Choice.Faithful pick) (g : Generator) (p : Policy.Parameters α s) (count : Nat)
    (stream last : WordStream) (samples : List (Sample α s))
    (run : g.samplesWith pick p count stream = (.ok samples, last)) :
    ∀ sample ∈ samples, ∀ d ∈ sample.decisions, d.Recorded p := by
  induction count generalizing stream samples with
  | zero =>
    cases run
    nofun
  | succ count ih =>
    simp only [samplesWith] at run
    split at run
    · cases run
    · rename_i first next drawn
      split at run
      · cases run
      · rename_i rest finish others
        cases run
        intro sample member
        rcases List.mem_cons.mp member with rfl | member
        · simp only [sampleWith] at drawn
          split at drawn
          · rename_i walked finish run
            cases drawn
            exact walk_recorded faithful _ p _ _ _ _ _ walked run
          · cases drawn
        · exact ih _ _ others sample member

end Generator

end Replay

/-! ## Replaying in exact arithmetic -/

section Exact

variable {s : Policy.Shape} {p : Policy.Parameters ℝ s}

theorem mapM_eq_ok {β γ : Type} (f : β → Result γ) (g : β → γ) (values : List β)
    (each : ∀ value ∈ values, f value = .ok (g value)) :
    values.mapM f = .ok (values.map g) := by
  induction values with
  | nil => rfl
  | cons first rest ih =>
    rw [List.mapM_cons, each first List.mem_cons_self,
      ih fun value member => each value (List.mem_cons_of_mem _ member)]
    rfl

theorem maskOfList_toList (n : Nat) (allowed : List Bool) (entries : allowed.length = n) :
    (Softmax.maskOfList n allowed).toList = allowed := by
  subst entries
  apply List.ext_getElem
  · rw [Vector.length_toList]
  · intro i inside within
    have entry := Softmax.maskOfList_get allowed ⟨i, within⟩
    rw [List.getElem?_eq_getElem within, Option.getD_some] at entry
    rw [Vector.getElem_toList]
    exact entry

namespace Decision

noncomputable def replayed (q : Policy.Parameters ℝ s) (d : Decision ℝ s) : Decision ℝ s :=
  let trace := Policy.exactTrace q d.prior d.trace.depth d.trace.mask.toList
  ⟨trace, d.action, trace.logProbability d.action⟩

/-- The trace of a recorded decision is that of its prefix, depth and mask, which are in range. -/
theorem Recorded.retraced {d : Decision ℝ s} (recorded : d.Recorded p) :
    d.prior.length ≤ s.maxLength ∧ d.trace.depth ≤ s.maxLength + 1 ∧
      d.trace.mask.toList.length = s.actions ∧
      Policy.exactTrace p d.prior d.trace.depth d.trace.mask.toList = d.trace := by
  obtain ⟨actions, depth, allowed, passed⟩ := recorded.passed
  obtain ⟨length, shallow, entries, traced⟩ := (Policy.forward_eq_ok_iff ..).mp passed
  have before : d.prior = actions := by
    rw [prior, ← traced]
    rfl
  have below : d.trace.depth = depth := by
    rw [← traced]
    rfl
  have offered : d.trace.mask.toList = allowed := by
    rw [← traced]
    exact maskOfList_toList _ allowed entries
  rw [before, below, offered]
  exact ⟨length, shallow, entries, traced⟩

theorem Recorded.replay_eq {d : Decision ℝ s} (recorded : d.Recorded p)
    (q : Policy.Parameters ℝ s) : d.replay q = .ok (d.replayed q) := by
  obtain ⟨length, shallow, entries, _⟩ := recorded.retraced
  have passed := (Policy.forward_eq_ok_iff q d.prior d.trace.depth d.trace.mask.toList _).mpr
    ⟨length, shallow, entries, rfl⟩
  rw [replay, passed]
  rfl

theorem Recorded.replayed_self {d : Decision ℝ s} (recorded : d.Recorded p) :
    d.replayed p = d := by
  rw [replayed, recorded.retraced.2.2.2, ← recorded.logarithm]

theorem Recorded.allowed {d : Decision ℝ s} (recorded : d.Recorded p) :
    ∃ action : Fin s.actions, action.val = d.action ∧
      (Softmax.maskOfList s.actions d.trace.mask.toList).get action = true := by
  obtain ⟨weight, here, positive⟩ := recorded.positive
  obtain ⟨inside, rfl⟩ := List.getElem?_eq_some_iff.mp here
  rw [Vector.length_toList] at inside
  refine ⟨⟨d.action, inside⟩, rfl, ?_⟩
  rw [← Softmax.share_pos_iff _ (Policy.logitsOf p d.prior d.trace.depth).get,
    ← Policy.exactTrace_probability, recorded.retraced.2.2.2]
  rw [Vector.getElem_toList, Scalar.lt_real, Scalar.zero_real, decide_eq_true_eq] at positive
  exact positive

end Decision

namespace Sample

noncomputable def replayed (q : Policy.Parameters ℝ s) (sample : Sample ℝ s) : Sample ℝ s :=
  ⟨sample.draw, sample.decisions.map (Decision.replayed q)⟩

theorem replay_eq {sample : Sample ℝ s} (recorded : ∀ d ∈ sample.decisions, d.Recorded p)
    (q : Policy.Parameters ℝ s) : sample.replay q = .ok (sample.replayed q) := by
  rw [replay, mapM_eq_ok _ (Decision.replayed q) _ fun d member =>
    (recorded d member).replay_eq q]
  rfl

theorem replayed_self {sample : Sample ℝ s} (recorded : ∀ d ∈ sample.decisions, d.Recorded p) :
    sample.replayed p = sample := by
  rw [replayed, List.map_congr_left fun d member => (recorded d member).replayed_self,
    List.map_id']

end Sample

end Exact

end Sampling

namespace Training

variable {α : Type} [Scalar α] {s : Policy.Shape}

def Episode.replay (q : Policy.Parameters α s) (e : Episode α s) : Result (Episode α s) :=
  match e.sample.replay q with
  | .error failure => .error failure
  | .ok sample => .ok ⟨sample, e.verdict⟩

/-- A batch decided again with other parameters: prefixes, depths, masks, actions and verdicts
stay. -/
def replay (q : Policy.Parameters α s) (batch : List (Episode α s)) :
    Result (List (Episode α s)) :=
  batch.mapM (Episode.replay q)

end Training

end FactorSearch
