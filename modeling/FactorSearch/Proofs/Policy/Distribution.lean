import Mathlib
import FactorSearch.Proofs.Decoding.MaskExactness
import FactorSearch.Proofs.Policy.Masking
import FactorSearch.Proofs.Policy.StepGradient
import FactorSearch.Sampling.Generator

/-!
# A distribution on programs

In exact arithmetic the masked policy gives every valid program a positive probability, and these
add up to one.  Grouped by their next action, the programs that go on from the tokens so far share
the probability of that action; an action that the mask refuses has no such program and no
probability.
-/

set_option autoImplicit false

namespace FactorSearch

namespace Sampling

/-- The probability of a list of actions under the grammar: the product of what every step gives
its action, up to the first one that ends the decode. -/
def sequenceProbability {α : Type} [Scalar α] {s : Policy.Shape} (g : Grammar)
    (p : Policy.Parameters α s) (state : DecodeState) (tokens : List Nat) : List Nat → Result α
  | [] => .ok 1
  | action :: rest =>
    match Policy.forward p tokens state.depth (g.mask state) with
    | .error failure => .error failure
    | .ok trace =>
      let chance := trace.probabilities.toList[action]?.getD 0
      match g.advance? state action with
      | none => .ok chance
      | some next =>
        match sequenceProbability g p next (tokens ++ [action]) rest with
        | .error failure => .error failure
        | .ok later => .ok (chance * later)

section Distribution

variable {v : Vocabulary} {limit heads headWidth layers : Nat}

/-! ## The programs that go on from some tokens -/

theorem finite_token : Finite Token := by
  apply Finite.of_injective fun token : Token => token.id.toFin
  intro first second same
  cases first
  cases second
  exact congrArg Token.mk (UInt16.toFin_inj.mp same)

theorem finite_completions (v : Vocabulary) (limit : Nat) (tokens : List Nat) :
    {rest : Program | (Program.ofActions tokens ++ rest).Valid v limit}.Finite := by
  have := finite_token
  apply (List.finite_length_le Token limit).subset
  rintro rest ⟨formula, valid⟩
  have short := ((Program.validate_eq_ok_iff ..).mp valid).1
  rw [List.length_append] at short
  exact le_of_add_le_right short

/-- What can follow some tokens in a valid program. -/
noncomputable def completions (v : Vocabulary) (limit : Nat) (tokens : List Nat) :
    Finset Program :=
  (finite_completions v limit tokens).toFinset

theorem mem_completions (tokens : List Nat) (rest : Program) :
    rest ∈ completions v limit tokens ↔ (Program.ofActions tokens ++ rest).Valid v limit := by
  exact (finite_completions v limit tokens).mem_toFinset

theorem cons_mem_completions (tokens : List Nat) (action : Nat) (rest : Program) :
    Token.ofNat action :: rest ∈ completions v limit tokens ↔
      rest ∈ completions v limit (tokens ++ [action]) := by
  rw [mem_completions, mem_completions, Program.ofActions_snoc, List.append_assoc,
    List.singleton_append]

def emit (entry : Fin v.entries.length) : Fin (v.size + 1) :=
  ⟨entry.val, Nat.lt_succ_of_lt entry.isLt⟩

theorem val_emit (entry : Fin v.entries.length) : (emit entry).val = entry.val := rfl

def lead (v : Vocabulary) : Program → Fin (v.size + 1)
  | [] => Fin.last v.size
  | token :: _ => Fin.ofNat (v.size + 1) token.index

theorem lead_entry (entry : Fin v.entries.length) (rest : Program) :
    lead v (Token.ofNat entry.val :: rest) = emit entry := by
  apply Fin.ext
  rw [lead, Token.index_ofNat_entry, Fin.val_ofNat]
  exact Nat.mod_eq_of_lt (emit entry).isLt

theorem emit_ne_last (entry : Fin v.entries.length) : emit entry ≠ Fin.last v.size := by
  intro same
  exact absurd (congrArg Fin.val same) entry.isLt.ne

/-- On track a completion is empty, or starts with the token of an entry. -/
theorem completion_cases {tokens : List Nat} {state : DecodeState}
    (track : Grammar.OnTrack v limit tokens state) (rest : Program)
    (member : rest ∈ completions v limit tokens) :
    rest = [] ∨ ∃ (entry : Fin v.entries.length) (later : Program),
      rest = Token.ofNat entry.val :: later := by
  cases rest with
  | nil => exact Or.inl rfl
  | cons token later =>
    obtain ⟨_, run⟩ := (track.valid_append_iff _).mp ((mem_completions _ _).mp member)
    obtain ⟨arity, found, _⟩ := (Program.depthAfter_cons_ok_iff ..).mp run
    obtain ⟨entry, rfl, _⟩ := Vocabulary.exists_entry_of_arity? token arity found
    exact Or.inr ⟨entry, later, rfl⟩

theorem allows_lead {tokens : List Nat} {state : DecodeState}
    (track : Grammar.OnTrack v limit tokens state) (rest : Program)
    (member : rest ∈ completions v limit tokens) :
    (Grammar.ofVocabulary v limit).Allows state (lead v rest).val := by
  have valid := (mem_completions _ _).mp member
  rcases completion_cases track rest member with rfl | ⟨entry, later, rfl⟩
  · rw [List.append_nil] at valid
    exact track.allows_stop_iff.mpr valid
  · rw [lead_entry]
    exact (track.allows_token_iff entry).mpr ⟨later, valid⟩

theorem filter_lead_last {tokens : List Nat} {state : DecodeState}
    (track : Grammar.OnTrack v limit tokens state)
    (allowed : (Grammar.ofVocabulary v limit).Allows state v.size) :
    {rest ∈ completions v limit tokens | lead v rest = Fin.last v.size} = {[]} := by
  ext rest
  rw [Finset.mem_filter, Finset.mem_singleton]
  constructor
  · rintro ⟨member, leads⟩
    rcases completion_cases track rest member with rfl | ⟨entry, later, rfl⟩
    · rfl
    · rw [lead_entry] at leads
      exact absurd leads (emit_ne_last entry)
  · rintro rfl
    refine ⟨(mem_completions _ _).mpr ?_, rfl⟩
    rw [List.append_nil]
    exact track.allows_stop_iff.mp allowed

theorem filter_lead_entry {tokens : List Nat} {state : DecodeState}
    (track : Grammar.OnTrack v limit tokens state) (entry : Fin v.entries.length) :
    {rest ∈ completions v limit tokens | lead v rest = emit entry} =
      (completions v limit (tokens ++ [entry.val])).image (Token.ofNat entry.val :: ·) := by
  ext rest
  rw [Finset.mem_filter, Finset.mem_image]
  constructor
  · rintro ⟨member, leads⟩
    rcases completion_cases track rest member with rfl | ⟨other, later, rfl⟩
    · exact absurd leads.symm (emit_ne_last entry)
    · rw [lead_entry] at leads
      have same := congrArg Fin.val leads
      rw [val_emit, val_emit] at same
      cases Fin.ext same
      exact ⟨later, (cons_mem_completions ..).mp member, rfl⟩
  · rintro ⟨later, member, rfl⟩
    exact ⟨(cons_mem_completions ..).mpr member, lead_entry entry later⟩

/-! ## The probability of a completion -/

/-- What the policy gives an action in a state that is reached with some tokens. -/
noncomputable def chance (p : Policy.Parameters ℝ ⟨v.size, limit, heads, headWidth, layers⟩)
    (tokens : List Nat) (state : DecodeState) : Fin (v.size + 1) → ℝ :=
  Softmax.share (Softmax.maskOfList (v.size + 1) ((Grammar.ofVocabulary v limit).mask state)).get
    (Policy.logitsOf p tokens state.depth).get

variable (p : Policy.Parameters ℝ ⟨v.size, limit, heads, headWidth, layers⟩)

theorem allowed_iff (state : DecodeState) (action : Fin (v.size + 1)) :
    (Softmax.maskOfList (v.size + 1) ((Grammar.ofVocabulary v limit).mask state)).get action =
      true ↔ (Grammar.ofVocabulary v limit).Allows state action.val := by
  rw [Softmax.maskOfList_get, Grammar.Allows]
  cases ((Grammar.ofVocabulary v limit).mask state)[action.val]? with
  | none => simp
  | some allowed => simp

theorem sum_chance {tokens : List Nat} {state : DecodeState}
    (track : Grammar.OnTrack v limit tokens state) :
    ∑ action, chance p tokens state action = 1 := by
  obtain ⟨action, allowed⟩ := track.exists_allowed
  have inside : action < v.size + 1 := by
    rw [← Grammar.size_mask v limit state]
    exact (List.getElem?_eq_some_iff.mp allowed).1
  exact Softmax.sum_share _ _ ⟨action, inside⟩ ((allowed_iff state ⟨action, inside⟩).mpr allowed)

/-- A probability of a list of actions, with the logarithm that is reported for it. -/
structure Weighs (state : DecodeState) (tokens actions : List Nat) (weight : ℝ) : Prop where
  positive : 0 < weight
  probability : sequenceProbability (Grammar.ofVocabulary v limit) p state tokens actions =
    .ok weight
  logarithm : ∀ total, sequenceLogProbability (Grammar.ofVocabulary v limit) p state tokens total
    actions = .ok (total + Real.log weight)

variable {p}

theorem Weighs.unique {state : DecodeState} {tokens actions : List Nat} {first second : ℝ}
    (one : Weighs p state tokens actions first) (two : Weighs p state tokens actions second) :
    first = second :=
  Except.ok.inj (one.probability.symm.trans two.probability)

theorem forward_on_track {tokens : List Nat} {state : DecodeState}
    (track : Grammar.OnTrack v limit tokens state) :
    Policy.forward p tokens state.depth ((Grammar.ofVocabulary v limit).mask state) =
      .ok (Policy.exactTrace p tokens state.depth ((Grammar.ofVocabulary v limit).mask state)) := by
  have shallow : state.depth ≤ limit + 1 := by
    have bound := track.depth_le
    have room := track.room
    omega
  exact (Policy.forward_eq_ok_iff ..).mpr
    ⟨track.room, shallow, Grammar.size_mask v limit state, rfl⟩

theorem chance_eq (tokens : List Nat) (state : DecodeState) (action : Fin (v.size + 1)) :
    (Policy.exactTrace p tokens state.depth
      ((Grammar.ofVocabulary v limit).mask state)).probabilities.toList[action.val]? =
      some (chance p tokens state action) := by
  have here := Policy.exactTrace_probability p tokens state.depth
    ((Grammar.ofVocabulary v limit).mask state) action
  rw [chance, ← here]
  exact List.getElem?_eq_some_iff.mpr ⟨by rw [Vector.length_toList]; exact action.isLt, rfl⟩

theorem weighs_stop {tokens : List Nat} {state : DecodeState}
    (track : Grammar.OnTrack v limit tokens state)
    (allowed : (Grammar.ofVocabulary v limit).Allows state v.size) :
    Weighs p state tokens [v.size] (chance p tokens state (Fin.last v.size)) := by
  have passed := forward_on_track (p := p) track
  refine ⟨?positive, ?probability, ?logarithm⟩
  case positive =>
    exact (Softmax.share_pos_iff _ _ _).mpr ((allowed_iff state (Fin.last v.size)).mpr allowed)
  case probability =>
    have here := chance_eq (p := p) tokens state (Fin.last v.size)
    rw [Fin.val_last] at here
    simp only [sequenceProbability, passed, here, Option.getD_some, Grammar.advance?_stop]
  case logarithm =>
    intro total
    have here := Policy.exactTrace_logProbability p tokens state.depth
      ((Grammar.ofVocabulary v limit).mask state) (Fin.last v.size)
    rw [Fin.val_last] at here
    simp only [sequenceLogProbability, passed, here, Grammar.advance?_stop, chance]

theorem weighs_token {tokens : List Nat} {state : DecodeState}
    (track : Grammar.OnTrack v limit tokens state) (entry : Fin v.entries.length)
    (allowed : (Grammar.ofVocabulary v limit).Allows state entry.val) {next : DecodeState}
    (moves : (Grammar.ofVocabulary v limit).advance? state entry.val = some next)
    {actions : List Nat} {weight : ℝ}
    (rest : Weighs p next (tokens ++ [entry.val]) actions weight) :
    Weighs p state tokens (entry.val :: actions)
      (chance p tokens state (emit entry) * weight) := by
  have passed := forward_on_track (p := p) track
  have positive : 0 < chance p tokens state (emit entry) :=
    (Softmax.share_pos_iff _ _ _).mpr ((allowed_iff state (emit entry)).mpr allowed)
  refine ⟨mul_pos positive rest.positive, ?probability, ?logarithm⟩
  case probability =>
    have here := chance_eq (p := p) tokens state (emit entry)
    rw [val_emit] at here
    simp only [sequenceProbability, passed, here, Option.getD_some, moves, rest.probability]
  case logarithm =>
    intro total
    have here := Policy.exactTrace_logProbability p tokens state.depth
      ((Grammar.ofVocabulary v limit).mask state) (emit entry)
    rw [val_emit] at here
    simp only [sequenceLogProbability, passed, here, moves, rest.logarithm]
    rw [Real.log_mul positive.ne' rest.positive.ne', ← add_assoc, chance]

def actionsOf (v : Vocabulary) (rest : Program) : List Nat := rest.map Token.index ++ [v.size]

theorem actionsOf_cons (entry : Fin v.entries.length) (rest : Program) :
    actionsOf v (Token.ofNat entry.val :: rest) = entry.val :: actionsOf v rest := by
  rw [actionsOf, List.map_cons, Token.index_ofNat_entry, List.cons_append, actionsOf]

theorem exists_weight {tokens : List Nat} {state : DecodeState}
    (track : Grammar.OnTrack v limit tokens state) (rest : Program)
    (member : rest ∈ completions v limit tokens) :
    ∃ weight, Weighs p state tokens (actionsOf v rest) weight := by
  induction rest generalizing tokens state with
  | nil => exact ⟨_, weighs_stop track (allows_lead track [] member)⟩
  | cons token rest ih =>
    rcases completion_cases track _ member with nothing | ⟨entry, later, same⟩
    · cases nothing
    · cases same
      have allowed := allows_lead track _ member
      rw [lead_entry] at allowed
      have fits := ((track.allows_iff entry).mp allowed).2.1
      have moves := Grammar.advance?_entry limit state entry fits
      obtain ⟨weight, weighs⟩ := ih (track.step allowed moves) ((cons_mem_completions ..).mp member)
      have whole := weighs_token track entry allowed moves weighs
      rw [actionsOf_cons]
      exact ⟨_, whole⟩

/-! ## The probabilities add up to one -/

/-- From every state of a decode the probabilities of the completions add up to one.  The induction
is on the number of tokens that still fit. -/
theorem sum_weights {tokens : List Nat} {state : DecodeState}
    (track : Grammar.OnTrack v limit tokens state) (weight : Program → ℝ)
    (weighs : ∀ rest ∈ completions v limit tokens,
      Weighs p state tokens (actionsOf v rest) (weight rest)) :
    ∑ rest ∈ completions v limit tokens, weight rest = 1 := by
  generalize size : limit - tokens.length = room
  induction room using Nat.strong_induction_on generalizing tokens state weight with
  | _ room ih =>
    rw [← Finset.sum_fiberwise _ (lead v), ← sum_chance p track]
    apply Finset.sum_congr rfl
    intro action _
    by_cases allowed : (Grammar.ofVocabulary v limit).Allows state action.val
    · rcases Grammar.stop_or_entry_of_allows limit state action.val allowed with
        stop | ⟨entry, same⟩
      · obtain rfl : action = Fin.last v.size := Fin.ext stop
        have empty : [] ∈ completions v limit tokens := by
          rw [mem_completions, List.append_nil]
          exact track.allows_stop_iff.mp allowed
        rw [filter_lead_last track allowed, Finset.sum_singleton]
        exact (weighs [] empty).unique (weighs_stop track allowed)
      · obtain rfl : emit entry = action := Fin.ext same
        rw [val_emit] at allowed
        obtain ⟨fits, enough, _⟩ := (track.allows_iff entry).mp allowed
        have moves := Grammar.advance?_entry limit state entry enough
        have next := track.step allowed moves
        choose! later known using fun rest member => exists_weight (p := p) next rest member
        -- each of these weights is the chance of the token times the weight of what follows
        have each : ∀ rest ∈ completions v limit (tokens ++ [entry.val]),
            weight (Token.ofNat entry.val :: rest) =
              chance p tokens state (emit entry) * later rest := by
          intro rest member
          have given := weighs _ ((cons_mem_completions ..).mpr member)
          rw [actionsOf_cons] at given
          exact given.unique (weighs_token track entry allowed moves (known rest member))
        have shorter : limit - (tokens ++ [entry.val]).length < room := by
          rw [List.length_append, List.length_singleton]
          omega
        rw [filter_lead_entry track entry,
          Finset.sum_image fun _ _ _ _ same => List.tail_eq_of_cons_eq same,
          Finset.sum_congr rfl each, ← Finset.mul_sum, ih _ shorter next later known rfl, mul_one]
    · have refused : chance p tokens state action = 0 := by
        apply Softmax.share_of_not
        rw [← Bool.not_eq_true, allowed_iff]
        exact allowed
      rw [refused]
      apply Finset.sum_eq_zero
      intro rest member
      obtain ⟨member, leads⟩ := Finset.mem_filter.mp member
      rw [← leads] at allowed
      exact absurd (allows_lead track rest member) allowed

/-- Weights of the programs that the validator accepts: each is the product of what the policy
gives the program's tokens and stopping, and they add up to one. -/
structure Distributes (p : Policy.Parameters ℝ ⟨v.size, limit, heads, headWidth, layers⟩)
    (programs : Finset Program) (weight : Program → ℝ) : Prop where
  accepted : ∀ program, program ∈ programs ↔ ∃ formula, program.validate v limit = .ok formula
  probability : ∀ program ∈ programs,
    sequenceProbability (Grammar.ofVocabulary v limit) p .initial []
      (program.map Token.index ++ [(Grammar.ofVocabulary v limit).stop]) = .ok (weight program)
  logarithm : ∀ program ∈ programs,
    sequenceLogProbability (Grammar.ofVocabulary v limit) p .initial [] 0
      (program.map Token.index ++ [(Grammar.ofVocabulary v limit).stop]) =
        .ok (Real.log (weight program))
  positive : ∀ program ∈ programs, 0 < weight program
  total : ∑ program ∈ programs, weight program = 1

/-- Whatever its parameters, the policy is a probability distribution on the valid programs. -/
theorem policy_distribution (v : Vocabulary) (limit heads headWidth layers : Nat)
    (positive : 1 ≤ limit)
    (p : Policy.Parameters ℝ ⟨v.size, limit, heads, headWidth, layers⟩) :
    ∃ programs weight, Distributes p programs weight := by
  have track : Grammar.OnTrack v limit [] .initial := .start positive
  choose! weight weighs using fun rest member => exists_weight (p := p) track rest member
  refine ⟨completions v limit [], weight, mem_completions [], ?probability, ?logarithm, ?positive,
    sum_weights track weight weighs⟩
  case probability =>
    intro program member
    rw [Grammar.stop_ofVocabulary]
    exact (weighs program member).probability
  case logarithm =>
    intro program member
    have started := (weighs program member).logarithm 0
    rw [zero_add] at started
    rw [Grammar.stop_ofVocabulary]
    exact started
  case positive => exact fun program member => (weighs program member).positive

theorem short_programs_distributed :
    1 ≤ 3 ∧ ∃ programs weight,
      @Distributes ⟨false⟩ 3 2 4 1 .zero programs weight ∧ 0 < weight [.ofNat 24] := by
  obtain ⟨programs, weight, distributes⟩ := policy_distribution ⟨false⟩ 3 2 4 1 (by decide) .zero
  have member : [.ofNat 24] ∈ programs := (distributes.accepted _).mpr ⟨"RET", by decide⟩
  exact ⟨by decide, programs, weight, distributes, distributes.positive _ member⟩

end Distribution

end Sampling

end FactorSearch
