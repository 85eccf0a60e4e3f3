import FactorSearch.Proofs.Policy.Distribution
import FactorSearch.Proofs.Sampling.NoRejection
import FactorSearch.Proofs.Training.FailedSteps

/-!
# Steps in exact arithmetic

In exact arithmetic the probabilities of a decision add up to one, so an allowed action is always
drawn, and every decode ends in a valid program.  Programs are assessed where the features of the
vocabulary are held, as they are in a run that was created.  So no batch of such a run breaks,
whatever its parameters and its words.
-/

set_option autoImplicit false

namespace FactorSearch

open Sampling

theorem Choice.exists_draw (weights : List ℝ) (nonneg : ∀ w ∈ weights, 0 ≤ w)
    (positive : 0 < weights.sum) (word : UInt64) : ∃ index, draw weights word = .ok index := by
  have some : weights.isEmpty = false := by
    rw [List.isEmpty_eq_false_iff]
    rintro rfl
    exact positive.ne' List.sum_nil
  have allowed : (weights.any fun w => !Scalar.le 0 w) = false := by
    rw [List.any_eq_false]
    intro w member
    simpa using nonneg w member
  simp only [draw, some, allowed, Scalar.total_real, Scalar.zero_real, Scalar.same_real,
    positive.ne', Bool.false_eq_true, if_false, decide_false]
  exact ⟨_, rfl⟩

namespace Sampling.Generator

variable {v : Vocabulary} {limit heads headWidth layers : Nat}
  (p : Policy.Parameters ℝ ⟨v.size, limit, heads, headWidth, layers⟩)

/-- In a state that a decode reaches, an action is drawn, and it is allowed. -/
theorem exists_allowed_draw {tokens : List Nat} {state : DecodeState}
    (track : Grammar.OnTrack v limit tokens state) (word : UInt64) :
    ∃ action, Choice.draw (Policy.exactTrace p tokens state.depth
        ((Grammar.ofVocabulary v limit).mask state)).probabilities.toList word = .ok action ∧
      (Grammar.ofVocabulary v limit).Allows state action := by
  have weights : (Policy.exactTrace p tokens state.depth
      ((Grammar.ofVocabulary v limit).mask state)).probabilities.toList =
        List.ofFn (chance p tokens state) := by
    refine List.ext_getElem? fun index => ?_
    by_cases inside : index < v.size + 1
    · rw [chance_eq tokens state ⟨index, inside⟩, List.getElem?_ofFn, dif_pos inside]
    · rw [List.getElem?_eq_none, List.getElem?_eq_none] <;> simp <;> omega
  have nonneg : ∀ w ∈ List.ofFn (chance p tokens state), 0 ≤ w := by
    intro w member
    obtain ⟨action, rfl⟩ := List.mem_ofFn.mp member
    exact Softmax.share_nonneg ..
  have positive : 0 < (List.ofFn (chance p tokens state)).sum := by
    rw [List.sum_ofFn, sum_chance p track]
    exact one_pos
  obtain ⟨action, picked⟩ := Choice.exists_draw _ nonneg positive word
  obtain ⟨weight, here, some⟩ := Choice.draw_sound.positive _ _ _ picked
  rw [weights]
  refine ⟨action, picked, ?_⟩
  obtain ⟨inside, rfl⟩ := List.getElem?_eq_some_iff.mp here
  rw [List.length_ofFn] at inside
  rw [List.getElem_ofFn, Scalar.lt_real, Scalar.zero_real, decide_eq_true_iff] at some
  exact (allowed_iff state ⟨action, inside⟩).mp ((Softmax.share_pos_iff ..).mp some)

/-- A decode with a decision left for every token that fits and for stopping finishes. -/
theorem exists_finished (fuel : Nat) (state : DecodeState) (tokens : List Nat)
    (stream : WordStream) (track : Grammar.OnTrack v limit tokens state)
    (enough : fuel + tokens.length = limit + 1) :
    ∃ finish last, walk Choice.draw (.ofVocabulary v limit) p fuel state tokens stream =
      (.ok finish, last) ∧ Finished v limit tokens finish := by
  have room := track.room
  induction fuel generalizing state tokens stream with
  | zero =>
    -- `limit + 1` tokens would not have fitted
    omega
  | succ fuel ih =>
    obtain ⟨possible, offered⟩ := track.exists_allowed
    have live : ((Grammar.ofVocabulary v limit).mask state).any (fun allowed => allowed) = true :=
      List.any_eq_true.mpr ⟨true, List.mem_of_getElem? offered, rfl⟩
    obtain ⟨action, picked, allowed⟩ :=
      exists_allowed_draw p track (stream.word stream.position)
    simp only [walk, live, Bool.not_true, Bool.false_eq_true, if_false,
      forward_on_track (p := p) track, WordStream.next, picked]
    rcases Grammar.stop_or_entry_of_allows limit state action allowed with rfl | ⟨entry, rfl⟩
    · simp only [Grammar.stop_ofVocabulary, if_true]
      refine ⟨_, _, rfl, rfl, track.known, track.allows_stop_iff.mp allowed, ?_, ?_⟩
      · exact ⟨[], (List.append_nil tokens).symm, rfl⟩
      · intro decision member
        rw [List.mem_singleton.mp member]
    · have inside : entry.val ≠ v.size := Nat.ne_of_lt entry.isLt
      have arity := ((track.allows_iff entry).mp allowed).2.1
      have moves := Grammar.advance?_entry limit state entry arity
      have next := track.step allowed moves
      obtain ⟨finish, last, walked, finished⟩ := ih _ (tokens ++ [entry.val])
        ⟨stream.word, stream.position + 1⟩ next
        (by rw [List.length_append, List.length_singleton]; omega) next.room
      simp only [Grammar.stop_ofVocabulary, inside, if_false, moves, walked]
      exact ⟨_, _, rfl, finished.cons ⟨_, entry.val, _⟩ rfl⟩

theorem exists_samples (positive : 1 ≤ limit) (count : Nat) (stream : WordStream) :
    ∃ drawn last, (ofVocabulary v limit).samples p count stream = (.ok drawn, last) ∧
      ∀ sample ∈ drawn, Sample.Complete v limit sample := by
  induction count generalizing stream with
  | zero => exact ⟨[], stream, rfl, List.forall_mem_nil _⟩
  | succ count ih =>
    obtain ⟨finish, middle, walked, finished⟩ :=
      exists_finished p (limit + 1) .initial [] stream (.start positive) rfl
    have sampled := sampleWith_of_walk (ofVocabulary v limit) walked
    obtain ⟨rest, last, later, complete⟩ := ih middle
    simp only [samples] at later
    simp only [samples, samplesWith, sampled, later]
    exact ⟨_, _, rfl, List.forall_mem_cons.mpr ⟨finished.complete, complete⟩⟩

end Sampling.Generator

namespace Training

variable {periods instruments : Nat}

theorem exists_episodes {α : Type} [Scalar α] {s : Policy.Shape}
    (scorer : Scorer α periods instruments) (held : scorer.features.Holds scorer.vocabulary)
    (limit : Nat) (samples : List (Sample α s))
    (complete : ∀ sample ∈ samples, Sample.Complete scorer.vocabulary limit sample) :
    ∃ batch, episodes scorer samples = .ok batch := by
  refine exists_episodes_of_assessed scorer samples fun sample member => ?_
  obtain ⟨program, formula, drawn, -, -, canonical, -⟩ := (complete sample member).drawn
  obtain ⟨tree, rfl, -⟩ := (Program.canonical?_eq_some_iff ..).mp canonical
  obtain ⟨verdict, assessed⟩ := scorer.exists_assess held tree
  exact ⟨verdict, by rw [drawn, assessDraw, assessed]⟩

namespace Run

/-- The batch of a created run is drawn and scored, whatever its parameters and its words. -/
theorem exists_batch (settings : Settings ℝ) (v : Vocabulary)
    (features : FeatureSet ℝ periods instruments) (seed : UInt64)
    (fresh : Run ℝ periods instruments) (created : create settings v features seed = .ok fresh)
    (learner : Learner ℝ fresh.shape) (stream : WordStream) :
    ∃ batch last, { fresh with learner := learner, stream := stream }.batch =
      (.ok batch, last) := by
  simp only [create, Scorer.create, Result.bind_eq_ok_iff] at created
  obtain ⟨_, _, _, required, shape, shaped, scorer, ⟨forward, _, bound⟩, built⟩ := created
  cases Except.ok.inj bound
  simp only [Policy.Shape.create] at shaped
  split at shaped
  · cases shaped
  · split at shaped
    · cases shaped
    · rename_i some
      cases Except.ok.inj shaped
      cases Except.ok.inj built
      have positive : 1 ≤ settings.model.maxLength := by omega
      obtain ⟨drawn, last, sampled, complete⟩ :=
        Generator.exists_samples learner.parameters positive settings.training.batchSize stream
      obtain ⟨batch, scored⟩ := exists_episodes ⟨v, settings.reward, features, forward⟩
        (features.holds_of_require required) _ drawn complete
      refine ⟨batch, last, ?_⟩
      simp only [Run.batch, sampled, scored]

end Run

end Training

end FactorSearch
