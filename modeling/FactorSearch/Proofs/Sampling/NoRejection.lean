import FactorSearch.Proofs.Decoding.MaskExactness
import FactorSearch.Proofs.Sampling.ZeroWords

/-!
# No draw is wasted

A weighted choice that picks only indices of positive weight picks only actions that the mask
allows, so the decode of a sample is a walk.  A walk stops within the length on a valid program.
What can go wrong is in the numbers alone: at some state that a decode reaches, its scores cannot be
weighed, or the weights cannot be chosen from.
-/

set_option autoImplicit false

namespace FactorSearch

namespace Sampling

variable {α : Type} [Scalar α] {s : Policy.Shape}

/-- An outcome is a good value, or a failure that is accounted for. -/
def Yields {β : Type} (spoiled : Failure → Prop) (good : β → Prop) : Result β → Prop
  | .ok value => good value
  | .error failure => spoiled failure

/-- The numbers of a policy stop a decode.  In the state it has come to, the largest allowed score
is not finite, or the weights of the actions are refused because no index can be drawn among them;
or else that happens after the action that is drawn there. -/
inductive Spoiled (pick : List α → UInt64 → Result Nat) (g : Grammar) (p : Policy.Parameters α s) :
    DecodeState → List Nat → WordStream → Failure → Prop where
  | scores {state : DecodeState} {tokens : List Nat} {stream : WordStream}
      (refused : Scalar.isFinite (Softmax.allowedMaximum (Policy.logitsOf p tokens state.depth)
        (Softmax.maskOfList s.actions (g.mask state))) = false) :
      Spoiled pick g p state tokens stream (.internal .noFiniteLogit)
  | weights {state : DecodeState} {tokens : List Nat} {stream : WordStream}
      {trace : Policy.Trace α s} {failure : Failure}
      (passed : Policy.forward p tokens state.depth (g.mask state) = .ok trace)
      (refused : pick trace.probabilities.toList stream.next.1 = .error failure)
      (unusable : Choice.Unusable trace.probabilities.toList failure) :
      Spoiled pick g p state tokens stream failure
  | later {state next : DecodeState} {tokens : List Nat} {stream : WordStream}
      {trace : Policy.Trace α s} {action : Nat} {failure : Failure}
      (passed : Policy.forward p tokens state.depth (g.mask state) = .ok trace)
      (picked : pick trace.probabilities.toList stream.next.1 = .ok action)
      (moves : g.advance? state action = some next)
      (spoiled : Spoiled pick g p next (tokens ++ [action]) stream.next.2 failure) :
      Spoiled pick g p state tokens stream failure

/-- There is a weight for stopping at least, so a spoiled decode fails for bad scores or weights. -/
theorem Spoiled.failure_cases {pick : List α → UInt64 → Result Nat} {g : Grammar}
    {p : Policy.Parameters α s} {state : DecodeState} {tokens : List Nat} {stream : WordStream}
    {failure : Failure} (spoiled : Spoiled pick g p state tokens stream failure) :
    failure = .internal .noFiniteLogit ∨ failure = .internal .invalidWeight ∨
      failure = .internal .zeroWeights := by
  induction spoiled with
  | scores => exact .inl rfl
  | @weights _ _ _ trace _ _ _ unusable =>
    cases unusable with
    | empty none =>
      have size := congrArg List.length none
      rw [Vector.length_toList] at size
      cases size
    | invalid => exact .inr (.inl rfl)
    | zero => exact .inr (.inr rfl)
  | later _ _ _ _ ih => exact ih

/-- A sample whose actions spell a valid program, stop once, and carry their logarithms. -/
structure Sample.Complete (v : Vocabulary) (limit : Nat) (sample : Sample α s) : Prop where
  drawn : ∃ program formula, sample.draw = .valid program formula ∧
    1 ≤ program.length ∧ program.length ≤ limit ∧ program.canonical? v = some formula ∧
    sample.actions = program.map Token.index ++ [v.size]
  logarithms : ∀ decision ∈ sample.decisions,
    decision.logProbability = decision.trace.logProbability decision.action

namespace Generator

variable {v : Vocabulary} {limit heads headWidth layers : Nat}

/-- A decode from some tokens that has stopped on a valid program. -/
structure Finished (v : Vocabulary) (limit : Nat) (tokens : List Nat) (walk : Walk α s) :
    Prop where
  stopped : walk.open? = none
  known : ∀ token ∈ walk.tokens, token < v.size
  valid : (Program.ofActions walk.tokens).Valid v limit
  actions : ∃ more, walk.tokens = tokens ++ more ∧
    walk.decisions.map Decision.action = more ++ [v.size]
  logarithms : ∀ decision ∈ walk.decisions,
    decision.logProbability = decision.trace.logProbability decision.action

theorem allows_of_pick [Scalar.NullQuotient α] {pick : List α → UInt64 → Result Nat}
    (faithful : Choice.Faithful pick) (state : DecodeState) (logits weights : Vec α (v.size + 1))
    (word : UInt64) (action : Nat)
    (weighed : Softmax.masked logits
      (Softmax.maskOfList (v.size + 1) ((Grammar.ofVocabulary v limit).mask state)) = .ok weights)
    (picked : pick weights.toList word = .ok action) :
    (Grammar.ofVocabulary v limit).Allows state action := by
  obtain ⟨weight, here, positive⟩ := faithful.positive _ _ _ picked
  obtain ⟨inside, rfl⟩ := List.getElem?_eq_some_iff.mp here
  rw [Vector.length_toList] at inside
  rw [Vector.getElem_toList] at positive
  have allowed := Softmax.allowed_of_positive logits _ weights weighed ⟨action, inside⟩ positive
  rw [Softmax.maskOfList_get] at allowed
  cases entry : ((Grammar.ofVocabulary v limit).mask state)[action]? with
  | none => simp [entry] at allowed
  | some choice =>
    simp only [entry, Option.getD_some] at allowed
    rw [Grammar.Allows, entry, allowed]

theorem Finished.cons {tokens : List Nat} {walk : Walk α s} (decision : Decision α s)
    (logarithm : decision.logProbability = decision.trace.logProbability decision.action)
    (finished : Finished v limit (tokens ++ [decision.action]) walk) :
    Finished v limit tokens { walk with decisions := decision :: walk.decisions } := by
  obtain ⟨more, spelled, taken⟩ := finished.actions
  refine ⟨finished.stopped, finished.known, finished.valid, ⟨decision.action :: more, ?_, ?_⟩, ?_⟩
  · rw [spelled, List.append_assoc, List.singleton_append]
  · rw [List.map_cons, taken, List.cons_append]
  · intro other member
    rcases List.mem_cons.mp member with rfl | member
    · exact logarithm
    · exact finished.logarithms other member

/-- A decode with a decision left for every token that fits and for stopping finishes. -/
theorem walk_finishes [Scalar.NullQuotient α] {pick : List α → UInt64 → Result Nat}
    (sound : Choice.Sound pick)
    (p : Policy.Parameters α ⟨v.size, limit, heads, headWidth, layers⟩) (fuel : Nat)
    (state : DecodeState) (tokens : List Nat) (stream : WordStream)
    (track : Grammar.OnTrack v limit tokens state) (enough : fuel + tokens.length = limit + 1) :
    Yields (Spoiled pick (.ofVocabulary v limit) p state tokens stream) (Finished v limit tokens)
      (walk pick (.ofVocabulary v limit) p fuel state tokens stream).1 := by
  have room := track.room
  have shallow := track.depth_le
  induction fuel generalizing state tokens stream with
  | zero =>
    -- `limit + 1` tokens would not have fitted
    omega
  | succ fuel ih =>
    obtain ⟨possible, offered⟩ := track.exists_allowed
    have live : ((Grammar.ofVocabulary v limit).mask state).any (fun allowed => allowed) = true :=
      List.any_eq_true.mpr ⟨true, List.mem_of_getElem? offered, rfl⟩
    have forward := Policy.forward_in_range p tokens state.depth
      ((Grammar.ofVocabulary v limit).mask state) room
      (Nat.le_succ_of_le (Nat.le_trans shallow room)) (Grammar.size_mask v limit state)
    rw [walk]
    simp only [live, Bool.not_true, Bool.false_eq_true, if_false]
    cases weighed : Softmax.masked (Policy.logitsOf p tokens state.depth)
        (Softmax.maskOfList _ ((Grammar.ofVocabulary v limit).mask state)) with
    | error failure =>
      obtain ⟨refused, rfl⟩ := Softmax.masked_eq_error _ _ failure weighed
      rw [weighed] at forward
      simp only [forward, Except.map]
      exact .scores refused
    | ok probabilities =>
      obtain ⟨trace, passed, rfl⟩ : ∃ trace : Policy.Trace α _,
          Policy.forward p tokens state.depth ((Grammar.ofVocabulary v limit).mask state) =
            .ok trace ∧ trace.probabilities = probabilities := by
        rw [weighed] at forward
        exact ⟨_, forward, rfl⟩
      rw [passed]
      dsimp only
      cases picked : pick trace.probabilities.toList stream.next.1 with
      | error failure => exact .weights passed picked (sound.refusal _ _ failure picked)
      | ok action =>
        have allowed := allows_of_pick sound.toFaithful state _ _ _ action weighed picked
        rcases Grammar.stop_or_entry_of_allows limit state action allowed with rfl | ⟨entry, rfl⟩
        · simp only [Grammar.stop_ofVocabulary, if_true]
          refine ⟨rfl, track.known, track.allows_stop_iff.mp allowed, ?_, ?_⟩
          · exact ⟨[], (List.append_nil tokens).symm, rfl⟩
          · intro decision member
            rw [List.mem_singleton.mp member]
        · have inside : entry.val ≠ v.size := Nat.ne_of_lt entry.isLt
          have arity := ((track.allows_iff entry).mp allowed).2.1
          have moves := Grammar.advance?_entry limit state entry arity
          have next := track.step allowed moves
          have rest := ih _ (tokens ++ [entry.val]) stream.next.2 next
            (by rw [List.length_append, List.length_singleton]; omega) next.room next.depth_le
          simp only [Grammar.stop_ofVocabulary, inside, if_false, moves]
          generalize walk pick _ p fuel _ _ _ = outcome at rest ⊢
          obtain ⟨failure | later, last⟩ := outcome
          · exact .later passed picked moves rest
          · exact Finished.cons ⟨trace, entry.val, trace.logProbability entry.val⟩ rfl rest

theorem Finished.complete {walk : Walk α s} (finished : Finished v limit [] walk) :
    Sample.Complete v limit
      ⟨(ofVocabulary v limit).drawOf walk.tokens walk.open?, walk.decisions⟩ := by
  obtain ⟨formula, valid⟩ := finished.valid
  obtain ⟨short, tree, listing, rendered⟩ := (Program.validate_eq_ok_iff ..).mp valid
  obtain ⟨more, spelled, taken⟩ := finished.actions
  rw [List.nil_append] at spelled
  refine ⟨⟨Program.ofActions walk.tokens, formula, ?drawn, ?nonempty, short, ?formula, ?actions⟩,
    finished.logarithms⟩
  case drawn =>
    rw [finished.stopped]
    simp only [drawOf, ofVocabulary]
    rw [← Program.ofActions, valid]
  case nonempty =>
    rw [← listing]
    exact tree.length_postorder_pos
  case formula => exact (Program.canonical?_eq_some_iff ..).mpr ⟨tree, listing, rendered⟩
  case actions => rw [Sample.actions, taken, Program.index_ofActions _ finished.known, spelled]

theorem sampleWith_complete [Scalar.NullQuotient α] {pick : List α → UInt64 → Result Nat}
    (positive : 1 ≤ limit) (sound : Choice.Sound pick)
    (p : Policy.Parameters α ⟨v.size, limit, heads, headWidth, layers⟩) (stream : WordStream) :
    Yields (Spoiled pick (.ofVocabulary v limit) p .initial [] stream) (Sample.Complete v limit)
      ((ofVocabulary v limit).sampleWith pick p stream).1 := by
  have walked := walk_finishes sound p (limit + 1) .initial [] stream (.start positive) rfl
  have grammar : (ofVocabulary v limit).grammar = .ofVocabulary v limit := rfl
  have length : (Grammar.ofVocabulary v limit).maxLength = limit := rfl
  rw [sampleWith, grammar, length]
  generalize walk pick _ p _ _ _ _ = outcome at walked ⊢
  obtain ⟨failure | walk, last⟩ := outcome
  · exact walked
  · exact walked.complete

/-- Whatever the parameters and the stream, a batch has as many samples as were asked for, and each
is a valid program that was stopped once; unless, with some of the samples drawn, the numbers of the
policy stop the decode of the next one. -/
theorem samplesWith_complete [Scalar.NullQuotient α] (v : Vocabulary)
    (limit heads headWidth layers : Nat) (positive : 1 ≤ limit)
    (pick : List α → UInt64 → Result Nat) (sound : Choice.Sound pick)
    (p : Policy.Parameters α ⟨v.size, limit, heads, headWidth, layers⟩) (count : Nat)
    (stream : WordStream) :
    Yields
      (fun failure => ∃ drawn middle, drawn.length < count ∧
        (ofVocabulary v limit).samplesWith pick p drawn.length stream = (.ok drawn, middle) ∧
        Spoiled pick (.ofVocabulary v limit) p .initial [] middle failure)
      (fun batch => batch.length = count ∧ ∀ sample ∈ batch, Sample.Complete v limit sample)
      ((ofVocabulary v limit).samplesWith pick p count stream).1 := by
  induction count generalizing stream with
  | zero => exact ⟨rfl, List.forall_mem_nil _⟩
  | succ count ih =>
    have drawn := sampleWith_complete positive sound p stream
    rw [samplesWith]
    cases sampled : (ofVocabulary v limit).sampleWith pick p stream with
    | mk outcome next =>
      rw [sampled] at drawn
      cases outcome with
      | error failure => exact ⟨[], stream, Nat.succ_pos count, rfl, drawn⟩
      | ok first =>
        have others := ih next
        dsimp only
        generalize samplesWith pick _ p count next = outcome at others ⊢
        obtain ⟨failure | rest, last⟩ := outcome
        · obtain ⟨before, middle, few, earlier, spoiled⟩ := others
          refine ⟨first :: before, middle, Nat.succ_lt_succ few, ?_, spoiled⟩
          simp only [List.length_cons, samplesWith, sampled, earlier]
        · obtain ⟨size, complete⟩ := others
          exact ⟨congrArg Nat.succ size, List.forall_mem_cons.mpr ⟨drawn, complete⟩⟩

/-- With words that are all zero the return is drawn, negated. -/
theorem negated_return_taken :
    Takes ⟨Vocabulary.size ⟨false⟩, 2, 2, 4, 1⟩ (Grammar.ofVocabulary ⟨false⟩ 2) 3 .initial []
      [24, 4, 28] :=
  .cons ⟨by decide, by decide, by decide, by decide, by decide⟩ (by decide)
    (show _ = some ⟨1, 1⟩ by decide) <|
    .cons ⟨by decide, by decide, by decide, by decide, by decide⟩ (by decide)
      (show _ = some ⟨1, 2⟩ by decide)
      (.stop ⟨by decide, by decide, by decide, by decide, by decide⟩)

theorem two_samples_complete :
    1 ≤ 2 ∧ Choice.Sound (Choice.draw (α := ℝ)) ∧ ∃ batch last,
      (ofVocabulary ⟨false⟩ 2).samplesWith (Choice.draw (α := ℝ))
          (.zero (s := ⟨Vocabulary.size ⟨false⟩, 2, 2, 4, 1⟩)) 2 ⟨fun _ => 0, 0⟩ =
        (.ok batch, last) ∧ batch.map Sample.actions = [[24, 4, 28], [24, 4, 28]] ∧
      ∀ sample ∈ batch, Sample.Complete ⟨false⟩ 2 sample := by
  obtain ⟨batch, last, drawn, taken⟩ :=
    Takes.exists_samples (g := ofVocabulary ⟨false⟩ 2) negated_return_taken .zero 2 0
  have complete := samplesWith_complete ⟨false⟩ 2 2 4 1 (by decide) Choice.draw
    Choice.draw_sound .zero 2 ⟨fun _ => 0, 0⟩
  rw [drawn] at complete
  exact ⟨by decide, Choice.draw_sound, batch, last, drawn, taken, complete.2⟩

end Generator

end Sampling

end FactorSearch
