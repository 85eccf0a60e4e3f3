import FactorSearch.Decoding.Grammar
import FactorSearch.Proofs.Decoding.ClosingCost
import FactorSearch.Proofs.Formula.Validity
import Mathlib.Data.List.Induction

/-!
# The mask is exact

A walk takes only actions that the mask allows.  At every state of a walk a token is allowed
exactly when some valid program starts with the tokens so far and that token, and stopping is
allowed exactly when the tokens so far are a valid program.  So a walk never gets stuck, stops
within the length, and the walks that stop spell the valid programs and no others.
-/

set_option autoImplicit false

namespace FactorSearch

variable {v : Vocabulary}

namespace Program

def ofActions (actions : List Nat) : Program := actions.map Token.ofNat

theorem ofActions_snoc (actions : List Nat) (action : Nat) :
    ofActions (actions ++ [action]) = ofActions actions ++ [Token.ofNat action] := by
  simp [ofActions]

theorem length_ofActions (actions : List Nat) : (ofActions actions).length = actions.length :=
  List.length_map ..

theorem index_ofActions (actions : List Nat) (known : ∀ action ∈ actions, action < v.size) :
    (ofActions actions).map Token.index = actions := by
  rw [ofActions, List.map_map, List.map_congr_left, List.map_id]
  intro action member
  exact Token.index_ofNat_entry (v := v) ⟨action, known action member⟩

/-- Some program of at most `budget` tokens reduces a stack of the given depth to one value. -/
def Reducible (v : Vocabulary) (depth budget : Nat) : Prop :=
  ∃ rest : Program, rest.length ≤ budget ∧ depthAfter v 0 depth rest = .ok 1

end Program

namespace Vocabulary

theorem mem_arities_iff (arity : Nat) :
    arity ∈ v.arities ↔ ∃ entry : Fin v.entries.length, (v.entries.get entry).arity = arity := by
  simp only [arities, List.mem_map]
  constructor
  · intro given
    obtain ⟨found, member, same⟩ := given
    obtain ⟨entry, rfl⟩ := List.get_of_mem member
    exact ⟨entry, same⟩
  · intro given
    obtain ⟨entry, same⟩ := given
    exact ⟨v.entries.get entry, List.get_mem .., same⟩

theorem arity?_mem (token : Token) (arity : Nat) (found : v.arity? token = some arity) :
    arity ∈ v.arities := by
  obtain ⟨entry, _, same⟩ := exists_entry_of_arity? token arity found
  exact (mem_arities_iff _).mpr ⟨entry, same⟩

theorem le_foldl_max (values : List Nat) (start value : Nat)
    (bounded : value ≤ start ∨ value ∈ values) : value ≤ values.foldl Nat.max start := by
  induction values generalizing start with
  | nil => exact bounded.resolve_right (List.not_mem_nil)
  | cons head rest ih =>
    rw [List.foldl_cons]
    apply ih
    rcases bounded with below | member
    · exact Or.inl (Nat.le_trans below (Nat.le_max_left _ _))
    · rcases List.mem_cons.mp member with rfl | member
      · exact Or.inl (Nat.le_max_right _ _)
      · exact Or.inr member

/-- The arities that the closing costs are computed for are those of the tokens. -/
theorem mem_distinctArities_iff (arity : Nat) : arity ∈ v.distinctArities ↔ arity ∈ v.arities := by
  simp only [distinctArities, List.mem_filter, List.mem_range, List.contains_iff_mem]
  constructor
  · exact And.right
  · intro member
    have bound : arity ≤ v.maxArity := le_foldl_max v.arities 0 arity (Or.inr member)
    exact ⟨by omega, member⟩

end Vocabulary

namespace Grammar

/-! ## Closing costs as programs -/

theorem exists_program_of_closes (limit depth tokens : Nat)
    (closes : Decoding.Closes v.distinctArities limit depth tokens) :
    ∃ rest : Program, rest.length = tokens ∧ rest.depthAfter v 0 depth = .ok 1 := by
  induction closes with
  | done => exact ⟨[], rfl, rfl⟩
  | @token depth arity next tokens member step inside closes ih =>
    obtain ⟨rest, size, run⟩ := ih
    obtain ⟨entry, rfl⟩ :=
      (Vocabulary.mem_arities_iff _).mp ((Vocabulary.mem_distinctArities_iff _).mp member)
    obtain ⟨enough, rfl⟩ := (Decoding.depthAfter?_eq_some_iff ..).mp step
    refine ⟨Token.ofNat entry.val :: rest, by rw [List.length_cons, size], ?_⟩
    rw [Program.depthAfter_cons_ok_iff]
    exact ⟨_, Vocabulary.arity?_ofNat entry, enough, Program.depthAfter_ok_position _ _ _ _ _ run⟩

theorem closes_of_program (limit position depth : Nat) (rest : Program)
    (inside : depth + rest.length ≤ limit) (run : rest.depthAfter v position depth = .ok 1) :
    Decoding.Closes v.distinctArities limit depth rest.length := by
  induction rest generalizing position depth with
  | nil =>
    cases run
    exact .done
  | cons token rest ih =>
    obtain ⟨arity, found, enough, tail⟩ := (Program.depthAfter_cons_ok_iff ..).mp run
    rw [List.length_cons] at inside ⊢
    refine .token ((Vocabulary.mem_distinctArities_iff _).mpr (Vocabulary.arity?_mem _ _ found))
      ((Decoding.depthAfter?_eq_some_iff ..).mpr ⟨enough, rfl⟩) (by omega) ?_
    exact ih (position + 1) (depth - arity + 1) (by omega) tail

theorem closable_iff (limit depth budget : Nat) (positive : 1 ≤ depth)
    (inside : depth + budget ≤ limit) :
    (ofVocabulary v limit).closable depth budget = true ↔ Program.Reducible v depth budget := by
  have table := Decoding.closingCosts_relaxed v.distinctArities (limit + v.maxArity)
  constructor
  · intro fits
    simp only [closable, closingCost?, ofVocabulary] at fits
    cases stored : (Decoding.closingCosts v.distinctArities (limit + v.maxArity))[depth]? with
    | none => simp [stored] at fits
    | some entry =>
      cases entry with
      | none => simp [stored] at fits
      | some cost =>
        simp only [stored, Option.getD_some, decide_eq_true_eq] at fits
        obtain ⟨rest, size, run⟩ := exists_program_of_closes _ depth cost
          (table.attained depth cost stored)
        exact ⟨rest, by omega, run⟩
  · intro given
    obtain ⟨rest, short, run⟩ := given
    have closes := closes_of_program (limit + v.maxArity) 0 depth rest (by omega) run
    obtain ⟨cost, small, stored⟩ := table.least depth rest.length positive (by omega) closes
      (by omega)
    simp only [closable, closingCost?, ofVocabulary, stored, Option.getD_some, decide_eq_true_eq]
    omega

/-! ## What the mask allows -/

def Allows (g : Grammar) (state : DecodeState) (action : Nat) : Prop :=
  (g.mask state)[action]? = some true

instance (g : Grammar) (state : DecodeState) (action : Nat) : Decidable (g.Allows state action) :=
  inferInstanceAs (Decidable ((g.mask state)[action]? = some true))

theorem stop_ofVocabulary (v : Vocabulary) (limit : Nat) :
    (ofVocabulary v limit).stop = v.size := by
  simp [Grammar.stop, ofVocabulary, Vocabulary.arities, Vocabulary.size]

theorem size_mask (v : Vocabulary) (limit : Nat) (state : DecodeState) :
    ((ofVocabulary v limit).mask state).length = v.size + 1 := by
  simp [mask, ofVocabulary, Vocabulary.arities, Vocabulary.size]

theorem allows_stop_iff (v : Vocabulary) (limit : Nat) (state : DecodeState) :
    (ofVocabulary v limit).Allows state v.size ↔ state.depth = 1 ∧ 1 ≤ state.length := by
  have last : ((ofVocabulary v limit).arities.toList.map
      ((ofVocabulary v limit).offersToken state)).length = v.size := by
    simp [ofVocabulary, Vocabulary.arities, Vocabulary.size]
  rw [Allows, mask, List.getElem?_append_right (Nat.le_of_eq last), last, Nat.sub_self]
  simp [offersStop]

theorem allows_entry_iff (limit : Nat) (state : DecodeState) (entry : Fin v.entries.length) :
    (ofVocabulary v limit).Allows state entry.val ↔
      state.length < limit ∧ (v.entries.get entry).arity ≤ state.depth ∧
        (ofVocabulary v limit).closable (state.depth - (v.entries.get entry).arity + 1)
          (limit - state.length - 1) = true := by
  have inside : entry.val < ((ofVocabulary v limit).arities.toList.map
      ((ofVocabulary v limit).offersToken state)).length := by
    simp [ofVocabulary, Vocabulary.arities]
  have offered : (ofVocabulary v limit).Allows state entry.val ↔
      (ofVocabulary v limit).offersToken state (v.entries.get entry).arity = true := by
    rw [Allows, mask, List.getElem?_append_left inside]
    simp [ofVocabulary, Vocabulary.arities]
  have length : (ofVocabulary v limit).maxLength = limit := rfl
  rw [offered]
  simp only [offersToken, length]
  by_cases room : state.length < limit
  · simp only [room, if_true, true_and]
    cases step : Decoding.depthAfter? state.depth (v.entries.get entry).arity with
    | none =>
      simp only [Bool.false_eq_true, false_iff]
      intro given
      obtain ⟨enough, _⟩ := given
      have reached := (Decoding.depthAfter?_eq_some_iff ..).mpr ⟨enough, rfl⟩
      rw [step] at reached
      contradiction
    | some next =>
      obtain ⟨enough, rfl⟩ := (Decoding.depthAfter?_eq_some_iff ..).mp step
      simp only [enough, true_and]
  · simp only [room, if_false, Bool.false_eq_true, false_and]

theorem stop_or_entry_of_allows (limit : Nat) (state : DecodeState) (action : Nat)
    (allowed : (ofVocabulary v limit).Allows state action) :
    action = v.size ∨ ∃ entry : Fin v.entries.length, entry.val = action := by
  have inside := (List.getElem?_eq_some_iff.mp allowed).1
  rw [size_mask] at inside
  rcases Nat.lt_succ_iff_lt_or_eq.mp inside with token | stop
  · exact Or.inr ⟨⟨action, token⟩, rfl⟩
  · exact Or.inl stop

theorem advance?_entry (limit : Nat) (state : DecodeState) (entry : Fin v.entries.length)
    (enough : (v.entries.get entry).arity ≤ state.depth) :
    (ofVocabulary v limit).advance? state entry.val =
      some ⟨state.depth - (v.entries.get entry).arity + 1, state.length + 1⟩ := by
  have found : (ofVocabulary v limit).arities[entry.val]? = some (v.entries.get entry).arity := by
    simp [ofVocabulary, Vocabulary.arities]
  have room : ¬ state.depth + 1 < (v.entries.get entry).arity := by omega
  simp only [advance?, found, room, if_false, Option.some.injEq, DecodeState.mk.injEq, and_true]
  omega

theorem advance?_stop (v : Vocabulary) (limit : Nat) (state : DecodeState) :
    (ofVocabulary v limit).advance? state v.size = none := by
  have beyond : (ofVocabulary v limit).arities[v.size]? = none := by
    simp [ofVocabulary, Vocabulary.arities, Vocabulary.size]
  simp only [advance?, beyond]

/-! ## Walks -/

/-- The states that a decode reaches by allowed actions, with the actions that led there. -/
inductive Walk (g : Grammar) : List Nat → DecodeState → Prop where
  | start : Walk g [] .initial
  | step {actions : List Nat} {state next : DecodeState} {action : Nat}
      (walk : Walk g actions state) (allowed : g.Allows state action)
      (moves : g.advance? state action = some next) : Walk g (actions ++ [action]) next

/-- What holds along a walk: the state counts the tokens and their values, and the values can
still be reduced to one within the length. -/
structure OnTrack (v : Vocabulary) (limit : Nat) (actions : List Nat) (state : DecodeState) :
    Prop where
  known : ∀ action ∈ actions, action < v.size
  length : state.length = actions.length
  depth : (Program.ofActions actions).depthAfter v 0 0 = .ok state.depth
  room : actions.length ≤ limit
  finishable : Program.Reducible v state.depth (limit - actions.length)

theorem OnTrack.depth_le {limit : Nat} {actions : List Nat} {state : DecodeState}
    (track : OnTrack v limit actions state) : state.depth ≤ actions.length := by
  have bound := Program.depthAfter_ok_le _ _ _ _ track.depth
  rw [Program.length_ofActions] at bound
  omega

theorem OnTrack.start {limit : Nat} (positive : 1 ≤ limit) : OnTrack v limit [] .initial := by
  refine ⟨by simp, rfl, rfl, Nat.zero_le _, [Token.ofNat 24], positive, ?_⟩
  rcases v with ⟨_ | _⟩ <;> rfl

/-- On track an entry's token is allowed exactly when it can be followed up. -/
theorem OnTrack.allows_iff {limit : Nat} {actions : List Nat} {state : DecodeState}
    (track : OnTrack v limit actions state) (entry : Fin v.entries.length) :
    (ofVocabulary v limit).Allows state entry.val ↔
      actions.length < limit ∧ (v.entries.get entry).arity ≤ state.depth ∧
        Program.Reducible v (state.depth - (v.entries.get entry).arity + 1)
          (limit - actions.length - 1) := by
  have shallow := track.depth_le
  rw [allows_entry_iff, track.length]
  constructor
  · intro given
    obtain ⟨room, enough, fits⟩ := given
    exact ⟨room, enough, (closable_iff limit _ _ (by omega) (by omega)).mp fits⟩
  · intro given
    obtain ⟨room, enough, reducible⟩ := given
    exact ⟨room, enough, (closable_iff limit _ _ (by omega) (by omega)).mpr reducible⟩

theorem OnTrack.step {limit : Nat} {actions : List Nat} {state next : DecodeState} {action : Nat}
    (track : OnTrack v limit actions state) (allowed : (ofVocabulary v limit).Allows state action)
    (moves : (ofVocabulary v limit).advance? state action = some next) :
    OnTrack v limit (actions ++ [action]) next := by
  rcases stop_or_entry_of_allows limit state action allowed with rfl | ⟨entry, rfl⟩
  · rw [advance?_stop] at moves
    contradiction
  · obtain ⟨room, enough, reducible⟩ := (track.allows_iff entry).mp allowed
    rw [advance?_entry limit state entry enough] at moves
    cases Option.some.inj moves
    have size : (actions ++ [entry.val]).length = actions.length + 1 := by simp
    refine ⟨?known, ?length, ?depth, by omega, ?finishable⟩
    case known =>
      intro action member
      rcases List.mem_append.mp member with before | last
      · exact track.known action before
      · rw [List.mem_singleton.mp last]
        exact entry.isLt
    case length => rw [size, track.length]
    case depth =>
      rw [Program.ofActions_snoc, Program.depthAfter_append_ok_iff]
      refine ⟨state.depth, track.depth, ?_⟩
      rw [Program.depthAfter_cons_ok_iff]
      exact ⟨_, Vocabulary.arity?_ofNat entry, enough, rfl⟩
    case finishable =>
      rw [size]
      exact reducible

theorem Walk.onTrack {limit : Nat} {actions : List Nat} {state : DecodeState}
    (walk : (ofVocabulary v limit).Walk actions state) (positive : 1 ≤ limit) :
    OnTrack v limit actions state := by
  induction walk with
  | start => exact .start positive
  | step _ allowed moves ih => exact ih.step allowed moves

/-! ## Exactness -/

theorem OnTrack.valid_append_iff {limit : Nat} {actions : List Nat} {state : DecodeState}
    (track : OnTrack v limit actions state) (rest : Program) :
    (Program.ofActions actions ++ rest).Valid v limit ↔
      actions.length + rest.length ≤ limit ∧ rest.depthAfter v 0 state.depth = .ok 1 := by
  rw [Program.valid_iff_depth, List.length_append, Program.length_ofActions,
    Program.depthAfter_append_ok_iff]
  apply and_congr_right
  intro _
  constructor
  · intro given
    obtain ⟨middle, front, back⟩ := given
    cases Except.ok.inj (front.symm.trans track.depth)
    exact Program.depthAfter_ok_position _ _ _ _ _ back
  · intro back
    exact ⟨state.depth, track.depth, Program.depthAfter_ok_position _ _ _ _ _ back⟩

theorem OnTrack.allows_token_iff {limit : Nat} {actions : List Nat} {state : DecodeState}
    (track : OnTrack v limit actions state) (entry : Fin v.entries.length) :
    (ofVocabulary v limit).Allows state entry.val ↔
      ∃ rest, (Program.ofActions actions ++ Token.ofNat entry.val :: rest).Valid v limit := by
  rw [track.allows_iff]
  simp only [track.valid_append_iff, Program.depthAfter_cons_ok_iff, List.length_cons]
  constructor
  · intro given
    obtain ⟨room, enough, rest, short, run⟩ := given
    exact ⟨rest, by omega, _, Vocabulary.arity?_ofNat entry, enough,
      Program.depthAfter_ok_position _ _ _ _ _ run⟩
  · intro given
    obtain ⟨rest, short, arity, found, enough, run⟩ := given
    cases Option.some.inj ((Vocabulary.arity?_ofNat entry).symm.trans found)
    exact ⟨by omega, enough, rest, by omega, Program.depthAfter_ok_position _ _ _ _ _ run⟩

theorem OnTrack.valid_iff {limit : Nat} {actions : List Nat} {state : DecodeState}
    (track : OnTrack v limit actions state) :
    (Program.ofActions actions).Valid v limit ↔ state.depth = 1 := by
  have whole := track.valid_append_iff []
  rw [List.append_nil] at whole
  rw [whole, Program.depthAfter, Except.ok.injEq, List.length_nil, Nat.add_zero]
  exact and_iff_right track.room

theorem OnTrack.allows_stop_iff {limit : Nat} {actions : List Nat} {state : DecodeState}
    (track : OnTrack v limit actions state) :
    (ofVocabulary v limit).Allows state v.size ↔ (Program.ofActions actions).Valid v limit := by
  rw [Grammar.allows_stop_iff, track.valid_iff, track.length]
  have shallow := track.depth_le
  omega

theorem OnTrack.exists_allowed {limit : Nat} {actions : List Nat} {state : DecodeState}
    (track : OnTrack v limit actions state) :
    ∃ action, (ofVocabulary v limit).Allows state action := by
  obtain ⟨rest, short, run⟩ := track.finishable
  have room := track.room
  cases rest with
  | nil =>
    exact ⟨v.size, track.allows_stop_iff.mpr (track.valid_iff.mpr (Except.ok.inj run))⟩
  | cons token rest =>
    obtain ⟨arity, found, _⟩ := (Program.depthAfter_cons_ok_iff ..).mp run
    obtain ⟨entry, rfl, _⟩ := Vocabulary.exists_entry_of_arity? token arity found
    rw [List.length_cons] at short
    refine ⟨entry.val, (track.allows_token_iff entry).mpr ⟨rest, ?_⟩⟩
    exact (track.valid_append_iff _).mpr ⟨by rw [List.length_cons]; omega, run⟩

theorem walk_of_valid {limit : Nat} (positive : 1 ≤ limit) (done rest : Program)
    (valid : (done ++ rest).Valid v limit) :
    ∃ actions state, (ofVocabulary v limit).Walk actions state ∧
      Program.ofActions actions = done := by
  induction done using List.reverseRecOn generalizing rest with
  | nil => exact ⟨[], .initial, .start, rfl⟩
  | append_singleton done token ih =>
    rw [List.append_assoc, List.singleton_append] at valid
    obtain ⟨actions, state, walk, rfl⟩ := ih (token :: rest) valid
    have track := walk.onTrack positive
    obtain ⟨_, run⟩ := (track.valid_append_iff _).mp valid
    obtain ⟨arity, found, _⟩ := (Program.depthAfter_cons_ok_iff ..).mp run
    obtain ⟨entry, rfl, _⟩ := Vocabulary.exists_entry_of_arity? token arity found
    have allowed := (track.allows_token_iff entry).mpr ⟨rest, valid⟩
    have enough := ((track.allows_iff entry).mp allowed).2.1
    exact ⟨_, _, walk.step allowed (advance?_entry limit state entry enough),
      Program.ofActions_snoc actions entry.val⟩

/-- The actions are those that a way of choosing picks, each from the actions before it. -/
def Follows (choose : List Nat → Nat) (actions : List Nat) : Prop :=
  ∀ k, k < actions.length → actions[k]? = some (choose (actions.take k))

theorem Follows.snoc {choose : List Nat → Nat} {actions : List Nat}
    (follows : Follows choose actions) : Follows choose (actions ++ [choose actions]) := by
  intro k inside
  rw [List.length_append, List.length_singleton] at inside
  rcases Nat.lt_succ_iff_lt_or_eq.mp inside with before | rfl
  · rw [List.getElem?_append_left before, List.take_append_of_le_length (Nat.le_of_lt before)]
    exact follows k before
  · simp

/-- However allowed actions are chosen, a walk stops or goes on for any number of tokens. -/
theorem stops_or_goes_on {limit : Nat} (positive : 1 ≤ limit) (choose : List Nat → Nat)
    (obeys : ∀ actions state, (ofVocabulary v limit).Walk actions state → Follows choose actions →
      (ofVocabulary v limit).Allows state (choose actions)) (count : Nat) :
    ∃ actions state, (ofVocabulary v limit).Walk actions state ∧ Follows choose actions ∧
      (choose actions = v.size ∨ actions.length = count) := by
  induction count with
  | zero =>
    have nothing : Follows choose [] := fun k inside => absurd inside (Nat.not_lt_zero k)
    exact ⟨[], .initial, .start, nothing, Or.inr rfl⟩
  | succ count ih =>
    obtain ⟨actions, state, walk, follows, stopped | length⟩ := ih
    · exact ⟨actions, state, walk, follows, Or.inl stopped⟩
    · have allowed := obeys actions state walk follows
      rcases stop_or_entry_of_allows limit state _ allowed with stop | ⟨entry, here⟩
      · exact ⟨actions, state, walk, follows, Or.inl stop⟩
      · rw [← here] at allowed
        have enough := (((walk.onTrack positive).allows_iff entry).mp allowed).2.1
        have next := walk.step allowed (advance?_entry limit state entry enough)
        rw [here] at next
        exact ⟨_, _, next, follows.snoc, Or.inr (by simp [length])⟩

/-- Every walk has at most `limit` tokens.  On it the mask allows a token exactly when a valid
program starts with the tokens so far and it, allows stopping exactly when the tokens so far are a
valid program, and allows something.  However allowed actions are chosen, the walk comes to stopping
after at most `limit` tokens.  The valid programs are those of the walks that may stop. -/
theorem mask_exact (v : Vocabulary) (limit : Nat) (positive : 1 ≤ limit) :
    (∀ actions state, (ofVocabulary v limit).Walk actions state →
      actions.length ≤ limit ∧
      (∀ token, token < v.size →
        ((ofVocabulary v limit).Allows state token ↔
          ∃ rest, (Program.ofActions actions ++ Token.ofNat token :: rest).Valid v limit)) ∧
      ((ofVocabulary v limit).Allows state (ofVocabulary v limit).stop ↔
        (Program.ofActions actions).Valid v limit) ∧
      true ∈ (ofVocabulary v limit).mask state) ∧
    (∀ choose : List Nat → Nat,
      (∀ actions state, (ofVocabulary v limit).Walk actions state → Follows choose actions →
        (ofVocabulary v limit).Allows state (choose actions)) →
      ∃ actions state, (ofVocabulary v limit).Walk actions state ∧ Follows choose actions ∧
        actions.length ≤ limit ∧ choose actions = (ofVocabulary v limit).stop) ∧
    (∀ program : Program, program.Valid v limit ↔
      ∃ actions state, (ofVocabulary v limit).Walk actions state ∧
        (ofVocabulary v limit).Allows state (ofVocabulary v limit).stop ∧
        Program.ofActions actions = program) := by
  rw [stop_ofVocabulary]
  refine ⟨?walks, ?ends, ?programs⟩
  case walks =>
    intro actions state walk
    have track := walk.onTrack positive
    refine ⟨track.room, ?_, track.allows_stop_iff, ?_⟩
    · intro token inside
      exact track.allows_token_iff ⟨token, inside⟩
    · obtain ⟨action, allowed⟩ := track.exists_allowed
      exact List.mem_of_getElem? allowed
  case ends =>
    intro choose obeys
    obtain ⟨actions, state, walk, follows, stopped | long⟩ :=
      stops_or_goes_on positive choose obeys (limit + 1)
    · exact ⟨actions, state, walk, follows, (walk.onTrack positive).room, stopped⟩
    · have room := (walk.onTrack positive).room
      omega
  case programs =>
    intro program
    constructor
    · intro valid
      obtain ⟨actions, state, walk, rfl⟩ := walk_of_valid positive program []
        (by rwa [List.append_nil])
      exact ⟨actions, state, walk, (walk.onTrack positive).allows_stop_iff.mpr valid, rfl⟩
    · intro given
      obtain ⟨actions, state, walk, allowed, rfl⟩ := given
      exact (walk.onTrack positive).allows_stop_iff.mp allowed

theorem second_leaf_extends :
    1 ≤ 3 ∧ (ofVocabulary ⟨false⟩ 3).Walk [24] ⟨1, 1⟩ ∧
      ∃ rest, (Program.ofActions [24] ++ Token.ofNat 25 :: rest).Valid ⟨false⟩ 3 := by
  have walk : (ofVocabulary ⟨false⟩ 3).Walk ([] ++ [24]) ⟨1, 1⟩ :=
    .step .start (by decide) (by decide)
  exact ⟨by decide, walk,
    (((mask_exact ⟨false⟩ 3 (by decide)).1 [24] ⟨1, 1⟩ walk).2.1 25 (by decide)).mp (by decide)⟩

end Grammar

end FactorSearch
