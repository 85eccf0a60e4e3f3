import FactorSearch.Proofs.Exact.Choice
import FactorSearch.Proofs.Policy.StepGradient
import FactorSearch.Sampling.Generator

/-!
# Decodes of zero words

In exact arithmetic the word zero draws the first action that the mask allows, whatever the weights
of the policy.  So with words that are all zero a decode takes the first way through the grammar,
and every sample of a batch takes the same.
-/

set_option autoImplicit false

namespace FactorSearch

namespace Sampling

variable {s : Policy.Shape}

theorem draw_first_allowed (p : Policy.Parameters ℝ s) (actions : List Nat) (depth : Nat)
    (allowed : List Bool) (entries : allowed.length = s.actions) (index : Nat)
    (before : ∀ i < index, allowed[i]? = some false) (here : allowed[index]? = some true) :
    Choice.draw (Policy.exactTrace p actions depth allowed).probabilities.toList 0 =
      .ok index := by
  have weight : ∀ i : Fin s.actions,
      (Policy.exactTrace p actions depth allowed).probabilities.toList[i.val]? =
        some (Softmax.share (Softmax.maskOfList s.actions allowed).get
          (Policy.logitsOf p actions depth).get i) := by
    intro i
    rw [← Policy.exactTrace_probability]
    exact List.getElem?_eq_some_iff.mpr ⟨by rw [Vector.length_toList]; exact i.isLt, rfl⟩
  have inside : index < s.actions := by
    rw [← entries]
    exact (List.getElem?_eq_some_iff.mp here).1
  apply Choice.draw_zero
  · intro w member
    obtain ⟨i, within, rfl⟩ := List.mem_iff_getElem.mp member
    rw [Vector.length_toList] at within
    have found := (List.getElem?_eq_some_iff.mp (weight ⟨i, within⟩)).2
    rw [found]
    exact Softmax.share_nonneg ..
  · intro i below
    rw [weight ⟨i, below.trans inside⟩, Softmax.share_of_not]
    rw [Softmax.maskOfList_get, before i below]
    rfl
  · refine ⟨_, weight ⟨index, inside⟩, ?_⟩
    rw [Softmax.share_pos_iff, Softmax.maskOfList_get, here]
    rfl

/-- The state, which is in range, allows an action and none before it. -/
structure Leads (s : Policy.Shape) (g : Grammar) (state : DecodeState) (tokens : List Nat)
    (action : Nat) : Prop where
  length : tokens.length ≤ s.maxLength
  shallow : state.depth ≤ s.maxLength + 1
  entries : (g.mask state).length = s.actions
  before : ∀ i < action, (g.mask state)[i]? = some false
  here : (g.mask state)[action]? = some true

theorem Leads.drawn {g : Grammar} {state : DecodeState} {tokens : List Nat} {action : Nat}
    (leads : Leads s g state tokens action) (p : Policy.Parameters ℝ s) :
    (g.mask state).any (fun allowed => allowed) = true ∧
      Policy.forward p tokens state.depth (g.mask state) =
        .ok (Policy.exactTrace p tokens state.depth (g.mask state)) ∧
      Choice.draw (Policy.exactTrace p tokens state.depth
        (g.mask state)).probabilities.toList 0 = .ok action :=
  ⟨List.any_eq_true.mpr ⟨true, List.mem_of_getElem? leads.here, rfl⟩,
    (Policy.forward_eq_ok_iff ..).mpr ⟨leads.length, leads.shallow, leads.entries, rfl⟩,
    draw_first_allowed p tokens state.depth _ leads.entries action leads.before leads.here⟩

/-- A decode from a state takes the given actions when every word is zero. -/
def Takes (s : Policy.Shape) (g : Grammar) (fuel : Nat) (state : DecodeState)
    (tokens actions : List Nat) : Prop :=
  ∀ (p : Policy.Parameters ℝ s) (position : Nat), ∃ walked final,
    Generator.walk Choice.draw g p fuel state tokens ⟨fun _ => 0, position⟩ =
      (.ok walked, ⟨fun _ => 0, final⟩) ∧ walked.decisions.map Decision.action = actions

variable {g : Grammar} {fuel : Nat} {state next : DecodeState} {tokens actions : List Nat}

theorem Takes.stop (leads : Leads s g state tokens g.stop) :
    Takes s g (fuel + 1) state tokens [g.stop] := by
  intro p position
  obtain ⟨live, passed, drawn⟩ := leads.drawn p
  simp only [Generator.walk, live, Bool.not_true, Bool.false_eq_true, if_false, passed,
    WordStream.next, drawn, if_true]
  exact ⟨_, _, rfl, rfl⟩

theorem Takes.cons {action : Nat} (leads : Leads s g state tokens action) (other : action ≠ g.stop)
    (moves : g.advance? state action = some next)
    (rest : Takes s g fuel next (tokens ++ [action]) actions) :
    Takes s g (fuel + 1) state tokens (action :: actions) := by
  intro p position
  obtain ⟨live, passed, drawn⟩ := leads.drawn p
  obtain ⟨walked, final, run, taken⟩ := rest p (position + 1)
  simp only [Generator.walk, live, Bool.not_true, Bool.false_eq_true, if_false, passed,
    WordStream.next, drawn, other, moves, run]
  exact ⟨_, _, rfl, congrArg (action :: ·) taken⟩

theorem Generator.sampleWith_of_walk {α : Type} [Scalar α] {pick : List α → UInt64 → Result Nat}
    (g : Generator) {p : Policy.Parameters α s} {stream last : WordStream} {walked : Walk α s}
    (run : walk pick g.grammar p (g.grammar.maxLength + 1) .initial [] stream =
      (.ok walked, last)) :
    g.sampleWith pick p stream = (.ok ⟨g.drawOf walked.tokens walked.open?, walked.decisions⟩,
      last) := by
  rw [sampleWith, run]

theorem Takes.exists_samples {g : Generator}
    (takes : Takes s g.grammar (g.grammar.maxLength + 1) .initial [] actions)
    (p : Policy.Parameters ℝ s) (count position : Nat) :
    ∃ samples last, g.samplesWith Choice.draw p count ⟨fun _ => 0, position⟩ =
      (.ok samples, last) ∧ samples.map Sample.actions = List.replicate count actions := by
  induction count generalizing position with
  | zero => exact ⟨[], _, rfl, rfl⟩
  | succ count ih =>
    obtain ⟨walked, final, run, taken⟩ := takes p position
    obtain ⟨samples, last, drawn, alike⟩ := ih final
    simp only [Generator.samplesWith, g.sampleWith_of_walk run, drawn]
    exact ⟨_, _, rfl, congrArg₂ List.cons taken alike⟩

theorem first_leaf_taken :
    Takes ⟨Vocabulary.size ⟨false⟩, 1, 2, 4, 1⟩ (Grammar.ofVocabulary ⟨false⟩ 1) 2 .initial []
      [24, 28] :=
  .cons ⟨by decide, by decide, by decide, by decide, by decide⟩ (by decide)
    (show _ = some ⟨1, 1⟩ by decide)
    (.stop ⟨by decide, by decide, by decide, by decide, by decide⟩)

end Sampling

end FactorSearch
