import FactorSearch.Proofs.Double.Exponential
import FactorSearch.Sampling.Generator

/-!
# Recomputed logarithms

The logarithm of a sample's probability can be computed again from its actions alone.  A decode
records, from each state that it reaches, the forward pass on the tokens so far with the depth and
the mask of the state; the second computation goes through the same states, so it makes the same
passes and adds the same terms in the same order.
-/

set_option autoImplicit false

namespace FactorSearch

namespace Sampling

variable {α : Type} [Scalar α] {s : Policy.Shape}

/-- The decisions of a decode from a state, with the tokens so far: each is a forward pass there, an
action, and the logarithm of its probability.  Stopping is the last of them, and a decode may end
before it, when nothing is allowed or nothing more fits. -/
inductive Decides (g : Grammar) (p : Policy.Parameters α s) :
    DecodeState → List Nat → List (Decision α s) → Prop where
  | done (state : DecodeState) (tokens : List Nat) : Decides g p state tokens []
  | stop {state : DecodeState} {tokens : List Nat} {trace : Policy.Trace α s}
      (passed : Policy.forward p tokens state.depth (g.mask state) = .ok trace) :
      Decides g p state tokens [⟨trace, g.stop, trace.logProbability g.stop⟩]
  | emit {state next : DecodeState} {tokens : List Nat} {action : Nat} {trace : Policy.Trace α s}
      {rest : List (Decision α s)}
      (passed : Policy.forward p tokens state.depth (g.mask state) = .ok trace)
      (moves : g.advance? state action = some next)
      (later : Decides g p next (tokens ++ [action]) rest) :
      Decides g p state tokens (⟨trace, action, trace.logProbability action⟩ :: rest)

theorem Grammar.advance?_stop_eq_none (g : Grammar) (state : DecodeState) :
    g.advance? state g.stop = none := by
  have beyond : g.arities[g.arities.size]? = none := Array.getElem?_size
  simp only [Grammar.advance?, Grammar.stop, beyond]

namespace Decides

variable {g : Grammar} {p : Policy.Parameters α s} {state : DecodeState} {tokens : List Nat}
  {decisions : List (Decision α s)}

theorem take (decides : Decides g p state tokens decisions) (count : Nat) :
    Decides g p state tokens (decisions.take count) := by
  induction decides generalizing count with
  | done state tokens =>
    rw [List.take_nil]
    exact .done state tokens
  | stop passed =>
    cases count with
    | zero => exact .done ..
    | succ count =>
      rw [List.take_succ_cons, List.take_nil]
      exact .stop passed
  | emit passed moves _ ih =>
    cases count with
    | zero => exact .done ..
    | succ count => exact .emit passed moves (ih count)

/-- The actions bring the second computation to the states of the decode, where it adds what was
recorded. -/
theorem sequenceLogProbability (decides : Decides g p state tokens decisions) (total : α) :
    Sampling.sequenceLogProbability g p state tokens total (decisions.map Decision.action) =
      .ok ((decisions.map Decision.logProbability).foldl (fun sum term => sum + term) total) := by
  induction decides generalizing total with
  | done => rfl
  | @stop state tokens trace passed =>
    simp only [List.map_cons, List.map_nil, Sampling.sequenceLogProbability, passed,
      Grammar.advance?_stop_eq_none, List.foldl_cons, List.foldl_nil]
  | emit passed moves _ ih =>
    simp only [List.map_cons, Sampling.sequenceLogProbability, passed, moves, List.foldl_cons, ih]

end Decides

namespace Generator

variable {pick : List α → UInt64 → Result Nat} {p : Policy.Parameters α s}

theorem walk_decides {g : Grammar} {fuel : Nat} {state : DecodeState} {tokens : List Nat}
    {stream last : WordStream} {walked : Walk α s}
    (run : walk pick g p fuel state tokens stream = (.ok walked, last)) :
    Decides g p state tokens walked.decisions := by
  induction fuel generalizing state tokens stream walked with
  | zero =>
    cases run
    exact .done state tokens
  | succ fuel ih =>
    simp only [walk] at run
    split at run
    · cases run
      exact .done state tokens
    · split at run
      · cases run
      · rename_i trace passed
        split at run
        · cases run
        · rename_i action picked
          split at run
          · rename_i stopped
            cases run
            subst stopped
            exact .stop passed
          · split at run
            · cases run
            · rename_i next moves
              split at run
              · rename_i rest finish later
                cases run
                exact .emit passed moves (ih later)
              · cases run

theorem sampleWith_decides {g : Generator} {stream last : WordStream} {sample : Sample α s}
    (drawn : g.sampleWith pick p stream = (.ok sample, last)) :
    Decides g.grammar p .initial [] sample.decisions := by
  simp only [sampleWith] at drawn
  split at drawn
  · rename_i run
    cases drawn
    exact walk_decides run
  · cases drawn

theorem samplesWith_decides {g : Generator} {count : Nat} {stream last : WordStream}
    {samples : List (Sample α s)}
    (drawn : g.samplesWith pick p count stream = (.ok samples, last)) :
    ∀ sample ∈ samples, Decides g.grammar p .initial [] sample.decisions := by
  induction count generalizing stream samples with
  | zero =>
    cases drawn
    nofun
  | succ count ih =>
    simp only [samplesWith] at drawn
    split at drawn
    · cases drawn
    · rename_i first next one
      split at drawn
      · cases drawn
      · rename_i rest finish others
        cases drawn
        intro sample member
        rcases List.mem_cons.mp member with rfl | member
        · exact sampleWith_decides one
        · exact ih others sample member

/-- For every sample that a generator draws, whatever the parameters and the way of picking, the
logarithm recomputed from its actions is the recorded one; and so it is after each of them. -/
theorem recomputed_eq_recorded (g : Generator) (pick : List α → UInt64 → Result Nat)
    (p : Policy.Parameters α s) (count : Nat) (stream last : WordStream)
    (samples : List (Sample α s))
    (drawn : g.samplesWith pick p count stream = (.ok samples, last)) :
    ∀ sample ∈ samples,
      sequenceLogProbability g.grammar p .initial [] 0 sample.actions =
        .ok sample.logProbability ∧
      ∀ steps,
        sequenceLogProbability g.grammar p .initial [] 0 (sample.actions.take steps) =
          .ok (Scalar.total ((sample.decisions.map Decision.logProbability).take steps)) := by
  intro sample member
  have decides := samplesWith_decides drawn sample member
  refine ⟨decides.sequenceLogProbability 0, fun steps => ?_⟩
  rw [Sample.actions, ← List.map_take, ← List.map_take]
  exact (decides.take steps).sequenceLogProbability 0

def evenPolicy :
    Policy.Parameters (DoubleWith DoubleWith.cutoff) ⟨Vocabulary.size ⟨false⟩, 2, 1, 1, 0⟩ :=
  .zero

/-- With words that are all zero the return is drawn, negated. -/
theorem negated_return_recomputed :
    ∃ samples last, (ofVocabulary ⟨false⟩ 2).samplesWith Choice.draw evenPolicy 1 ⟨fun _ => 0, 0⟩ =
        (.ok samples, last) ∧
      samples.map Sample.actions = [[24, 4, 28]] ∧
      ∀ sample ∈ samples,
        sequenceLogProbability (Grammar.ofVocabulary ⟨false⟩ 2) evenPolicy .initial [] 0
          [24, 4, 28] = .ok sample.logProbability := by
  have drawn : ((ofVocabulary ⟨false⟩ 2).samplesWith Choice.draw evenPolicy 1
      ⟨fun _ => 0, 0⟩).1.toOption.map (List.map Sample.actions) = some [[24, 4, 28]] := by
    decide +kernel
  generalize outcome : (ofVocabulary ⟨false⟩ 2).samplesWith Choice.draw evenPolicy 1
    ⟨fun _ => 0, 0⟩ = result at drawn
  obtain ⟨failure | samples, last⟩ := result
  · cases drawn
  · have actions : samples.map Sample.actions = [[24, 4, 28]] := Option.some.inj drawn
    refine ⟨samples, last, rfl, actions, fun sample member => ?_⟩
    have taken := List.mem_map_of_mem (f := Sample.actions) member
    rw [actions, List.mem_singleton] at taken
    have recomputed := (recomputed_eq_recorded _ _ _ _ _ _ samples outcome sample member).1
    rwa [taken] at recomputed

end Generator

end Sampling

end FactorSearch
