import FactorSearch.Proofs.Training.TopFactors

/-!
# The hall of fame after any offers

Whatever is offered, a hall stays within its capacity, holds finite rewards and no formula twice,
is ranked by descending reward and ascending step, and remembers the formulas that it holds.  Its
order is that of one line, rewards downwards before steps upwards, so taking a factor in is putting
it in place; one that beats the last of a full hall is not the one that is dropped.
-/

set_option autoImplicit false

namespace FactorSearch

namespace HallOfFame

variable {α : Type} [Scalar α]

/-- The larger reward, or the same reward from no later step. -/
def Precedes (a b : Factor α) : Prop :=
  Scalar.lt b.reward a.reward = true ∨ Scalar.same a.reward b.reward = true ∧ a.step ≤ b.step

/-- What holds of a hall at any time. -/
structure Sound (hall : HallOfFame α) (capacity : Nat) : Prop where
  room : hall.capacity = capacity
  within : hall.factors.length ≤ capacity
  finite : AllFinite hall.factors
  distinct : (hall.factors.map Factor.formula).Nodup
  ranked : hall.factors.Pairwise Precedes
  seen : ∀ formula, formula ∈ hall.seen ↔ formula ∈ hall.factors.map Factor.formula

theorem sound_empty (capacity : Nat) : Sound (empty capacity : HallOfFame α) capacity where
  room := rfl
  within := Nat.zero_le _
  finite := List.forall_mem_nil _
  distinct := List.nodup_nil
  ranked := List.Pairwise.nil
  seen _ := Iff.rfl

variable [Scalar.Ordered α]

/-! ## The line of factors -/

def rank (factor : Factor α) : (Scalar.Ordered.Place α)ᵒᵈ ×ₗ Nat :=
  toLex (OrderDual.toDual (place factor), factor.step)

theorem precedes_iff_rank {a b : Factor α} (left : Scalar.isFinite a.reward = true)
    (right : Scalar.isFinite b.reward = true) : Precedes a b ↔ rank a ≤ rank b := by
  rw [Precedes, Scalar.Ordered.lt_iff_of_finite right left, Scalar.Ordered.same_iff,
    and_iff_right (Scalar.Ordered.present _ left), and_iff_right (Scalar.Ordered.present _ right),
    rank, rank, Prod.Lex.toLex_le_toLex, OrderDual.toDual_lt_toDual, OrderDual.toDual_inj]

theorem ranksBefore_iff_rank {a b : Factor α} (left : Scalar.isFinite a.reward = true)
    (right : Scalar.isFinite b.reward = true) : ranksBefore a b = true ↔ rank a < rank b := by
  rw [ranksBefore, Bool.or_eq_true, Bool.and_eq_true, Bool.not_eq_true', decide_eq_true_iff,
    ← Bool.not_eq_true, Scalar.Ordered.lt_iff_of_finite right left,
    Scalar.Ordered.lt_iff_of_finite left right, rank, rank, Prod.Lex.toLex_lt_toLex,
    OrderDual.toDual_lt_toDual, OrderDual.toDual_inj]
  constructor
  · rintro (larger | ⟨unbeaten, earlier⟩)
    · exact Or.inl larger
    · rcases (not_lt.mp unbeaten).lt_or_eq with larger | tied
      · exact Or.inl larger
      · exact Or.inr ⟨tied.symm, earlier⟩
  · rintro (larger | ⟨tied, earlier⟩)
    · exact Or.inl larger
    · exact Or.inr ⟨tied.not_lt, earlier⟩

/-! ## Taking a factor in -/

omit [Scalar.Ordered α] in
theorem allFinite_insertRanked {factor : Factor α} {ranked : List (Factor α)}
    (finite : Scalar.isFinite factor.reward = true) (others : AllFinite ranked) :
    AllFinite (insertRanked factor ranked) := by
  intro f member
  rcases List.mem_cons.mp ((insertRanked_perm factor ranked).mem_iff.mp member) with rfl | inside
  · exact finite
  · exact others f inside

theorem insertRanked_pairwise {factor : Factor α} {ranked : List (Factor α)}
    (finite : Scalar.isFinite factor.reward = true) (others : AllFinite ranked)
    (sorted : ranked.Pairwise fun a b => rank a ≤ rank b) :
    (insertRanked factor ranked).Pairwise fun a b => rank a ≤ rank b := by
  induction ranked with
  | nil => exact List.pairwise_singleton _ factor
  | cons head rest ih =>
    have known := others head List.mem_cons_self
    have behind := List.pairwise_cons.mp sorted
    rw [insertRanked]
    split
    · rename_i first
      have ahead := ((ranksBefore_iff_rank finite known).mp first).le
      refine List.pairwise_cons.mpr ⟨fun f member => ?_, sorted⟩
      rcases List.mem_cons.mp member with rfl | later
      · exact ahead
      · exact ahead.trans (behind.1 f later)
    · rename_i notFirst
      rw [ranksBefore_iff_rank finite known, not_lt] at notFirst
      refine List.pairwise_cons.mpr ⟨fun f member => ?_,
        ih (fun f member => others f (List.mem_cons_of_mem _ member)) behind.2⟩
      rcases List.mem_cons.mp ((insertRanked_perm factor rest).mem_iff.mp member) with rfl | later
      · exact notFirst
      · exact behind.1 f later

omit [Scalar.Ordered α] in
theorem insertRanked_before_last {factor last : Factor α} (better : List (Factor α))
    (beaten : ranksBefore factor last = true) :
    insertRanked factor (better ++ [last]) = insertRanked factor better ++ [last] := by
  induction better with
  | nil => exact if_pos beaten
  | cons head rest ih =>
    rw [List.cons_append, insertRanked, insertRanked]
    split
    · rfl
    · rw [ih, List.cons_append]

omit [Scalar.Ordered α] in
theorem insertRanked_head (factor : Factor α) (ranked : List (Factor α)) (head : Factor α)
    (first : ranked.head? = some head) :
    (insertRanked factor ranked).head? =
      some (if ranksBefore factor head then factor else head) := by
  obtain ⟨rest, rfl⟩ := List.head?_eq_some_iff.mp first
  rw [insertRanked]
  split <;> rfl

/-! ## One offer -/

namespace Sound

variable {hall : HallOfFame α} {capacity : Nat} {factor : Factor α}

omit [Scalar.Ordered α] in
theorem new_of_admits (sound : Sound hall capacity) (admitted : hall.admits factor = true) :
    factor.formula ∉ hall.factors.map Factor.formula := by
  rw [← sound.seen]
  exact ((admits_iff ..).mp admitted).2.2.1

theorem mem_insert (sound : Sound hall capacity) (admitted : hall.admits factor = true) :
    factor ∈ (hall.insert factor).factors := by
  obtain ⟨finite, some, _, unexcluded⟩ := (admits_iff ..).mp admitted
  have member : factor ∈ insertRanked factor hall.factors :=
    (insertRanked_perm factor hall.factors).mem_iff.mpr List.mem_cons_self
  change factor ∈ (insertRanked factor hall.factors).take hall.capacity
  rcases Nat.lt_or_ge hall.factors.length hall.capacity with free | full
  · rwa [List.take_of_length_le]
    rw [(insertRanked_perm factor hall.factors).length_eq, List.length_cons]
    exact free
  · -- the hall is full, so the last one is dropped, and the factor ranks before it
    have held : hall.factors ≠ [] := by
      intro none
      rw [none] at full
      exact some (Nat.le_zero.mp full)
    obtain ⟨better, last, whole⟩ := (List.eq_nil_or_concat' hall.factors).resolve_left held
    have known : Scalar.isFinite last.reward = true := by
      refine sound.finite last ?_
      rw [whole]
      exact List.mem_append_right _ List.mem_cons_self
    have beaten : ranksBefore factor last = true := by
      rw [ranksBefore_iff_rank finite known, rank, rank, Prod.Lex.toLex_lt_toLex]
      left
      rw [OrderDual.toDual_lt_toDual, ← not_le]
      intro below
      refine unexcluded ((excludes_iff ..).mpr
        ⟨full, last, List.getLast?_eq_some_iff.mpr ⟨better, whole⟩, ?_⟩)
      exact (Scalar.Ordered.le_iff_of_finite finite known).mpr below
    have size : (insertRanked factor better).length = hall.capacity := by
      have within := sound.within
      rw [← sound.room] at within
      have exactly := Nat.le_antisymm within full
      rwa [whole, List.length_append, List.length_singleton,
        ← List.length_cons (a := factor), ← (insertRanked_perm factor better).length_eq] at exactly
    rw [whole, insertRanked_before_last better beaten, List.take_left' size]
    exact (insertRanked_perm factor better).mem_iff.mpr List.mem_cons_self

theorem insert (sound : Sound hall capacity) (admitted : hall.admits factor = true) :
    Sound (hall.insert factor) capacity := by
  obtain ⟨finite, _⟩ := (admits_iff ..).mp admitted
  have new := sound.new_of_admits admitted
  have others := allFinite_insertRanked finite sound.finite
  have kept : (hall.insert factor).factors.Sublist (insertRanked factor hall.factors) :=
    List.take_sublist ..
  have keptFinite : AllFinite (hall.insert factor).factors :=
    fun f member => others f (kept.subset member)
  have before : hall.factors.Pairwise fun a b => rank a ≤ rank b :=
    sound.ranked.imp_of_mem fun left right precedes =>
      (precedes_iff_rank (sound.finite _ left) (sound.finite _ right)).mp precedes
  refine ⟨sound.room, ?within, keptFinite, ?distinct, ?ranked,
    mem_seen_insert hall factor sound.distinct new sound.seen⟩
  case within =>
    rw [← sound.room]
    exact List.length_take_le ..
  case distinct =>
    refine List.Nodup.sublist (kept.map Factor.formula) ?_
    rw [((insertRanked_perm factor hall.factors).map Factor.formula).nodup_iff, List.map_cons,
      List.nodup_cons]
    exact ⟨new, sound.distinct⟩
  case ranked =>
    exact ((insertRanked_pairwise finite sound.finite before).sublist kept).imp_of_mem
      fun left right ordered =>
        (precedes_iff_rank (keptFinite _ left) (keptFinite _ right)).mpr ordered

theorem offer (sound : Sound hall capacity) (factor : Factor α) :
    Sound (hall.offer factor).2 capacity := by
  rw [HallOfFame.offer]
  split
  · rename_i admitted
    exact sound.insert admitted
  · exact sound

theorem accepts_iff (sound : Sound hall capacity) (factor : Factor α) :
    (hall.offer factor).1 = true ↔
      factor ∈ (hall.offer factor).2.factors ∧
        factor.formula ∉ hall.factors.map Factor.formula := by
  rw [HallOfFame.offer]
  split
  · rename_i admitted
    exact iff_of_true rfl ⟨sound.mem_insert admitted, sound.new_of_admits admitted⟩
  · refine iff_of_false Bool.false_ne_true ?_
    rintro ⟨held, new⟩
    exact new (List.mem_map_of_mem held)

theorem best_rises (sound : Sound hall capacity) (factor best : Factor α)
    (first : hall.best? = some best) :
    ∃ better, (hall.offer factor).2.best? = some better ∧
      Scalar.le best.reward better.reward = true := by
  have known := sound.finite best (List.mem_of_head? first)
  rw [HallOfFame.offer]
  split
  · rename_i admitted
    obtain ⟨finite, some, _⟩ := (admits_iff ..).mp admitted
    refine ⟨if ranksBefore factor best then factor else best, ?_, ?_⟩
    · change ((insertRanked factor hall.factors).take hall.capacity).head? = _
      rw [List.head?_take, if_neg some, insertRanked_head factor _ best first]
    · split
      · rename_i before
        rw [Scalar.Ordered.le_iff_of_finite known finite]
        rw [ranksBefore_iff_rank finite known, rank, rank, Prod.Lex.toLex_lt_toLex] at before
        exact before.elim (fun larger => (OrderDual.toDual_lt_toDual.mp larger).le)
          fun tied => (OrderDual.toDual_inj.mp tied.1).ge
      · exact (Scalar.Ordered.le_iff_of_finite known known).mpr le_rfl
  · exact ⟨best, first, (Scalar.Ordered.le_iff_of_finite known known).mpr le_rfl⟩

end Sound

theorem sound_offerAll (capacity : Nat) (offers : List (Factor α)) :
    Sound ((empty capacity).offerAll offers) capacity := by
  induction offers using List.reverseRecOn with
  | nil => exact sound_empty capacity
  | append_singleton earlier factor ih =>
    rw [offerAll, List.foldl_append]
    exact ih.offer factor

/-- After any offers a hall is within its capacity, of finite rewards, without repeats, ranked, and
remembers the formulas it holds.  The next offer is accepted exactly when its factor is then a new
entry, a refused one leaves the hall as it is, and the best reward never falls. -/
theorem hall_sound (capacity : Nat) (offers : List (Factor α)) (factor : Factor α) :
    Sound ((empty capacity).offerAll offers) capacity ∧
      ((((empty capacity).offerAll offers).offer factor).1 = true ↔
        factor ∈ (((empty capacity).offerAll offers).offer factor).2.factors ∧
          factor.formula ∉ ((empty capacity).offerAll offers).factors.map Factor.formula) ∧
      ((((empty capacity).offerAll offers).offer factor).1 = false →
        (((empty capacity).offerAll offers).offer factor).2 = (empty capacity).offerAll offers) ∧
      ∀ best, ((empty capacity).offerAll offers).best? = some best →
        ∃ better, (((empty capacity).offerAll offers).offer factor).2.best? = some better ∧
          Scalar.le best.reward better.reward = true := by
  have sound := sound_offerAll capacity offers
  refine ⟨sound, sound.accepts_iff factor, ?_, sound.best_rises factor⟩
  rw [offer]
  split
  · intro accepted
    cases accepted
  · exact fun _ => rfl

end HallOfFame

end FactorSearch
