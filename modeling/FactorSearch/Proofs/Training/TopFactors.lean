import FactorSearch.Proofs.Double.Order
import FactorSearch.Training.HallOfFame

/-!
# The hall of fame against the list of all offers

Each formula counts at its first offer with a finite reward.  The stable sort of these offers by
descending reward is their ranking, and a hall holds as many from its front as it has room for,
whatever it dropped and was offered again on the way.
-/

set_option autoImplicit false

namespace FactorSearch

namespace HallOfFame

variable {α : Type}

/-! ## The distinct formulas of a list of offers -/

/-- Each formula at its first offer. -/
def firstOffers : List (Factor α) → List (Factor α)
  | [] => []
  | first :: rest => first :: (firstOffers rest).filter fun later => later.formula != first.formula

theorem firstOffers_subset (offers : List (Factor α)) : firstOffers offers ⊆ offers := by
  induction offers with
  | nil => exact List.Subset.refl _
  | cons first rest ih =>
    intro factor member
    rcases List.mem_cons.mp member with rfl | later
    · exact List.mem_cons_self
    · exact List.mem_cons_of_mem _ (ih (List.mem_of_mem_filter later))

theorem exists_firstOffer (offers : List (Factor α)) (factor : Factor α)
    (offered : factor ∈ offers) : ∃ first ∈ firstOffers offers, first.formula = factor.formula := by
  induction offers with
  | nil => cases offered
  | cons first rest ih =>
    by_cases same : first.formula = factor.formula
    · exact ⟨first, List.mem_cons_self, same⟩
    · rcases List.mem_cons.mp offered with rfl | later
      · exact absurd rfl same
      · obtain ⟨twin, member, spelled⟩ := ih later
        refine ⟨twin, List.mem_cons_of_mem _ (List.mem_filter.mpr ⟨member, ?_⟩), spelled⟩
        rw [spelled]
        exact bne_iff_ne.mpr (Ne.symm same)

theorem firstOffers_nodup (offers : List (Factor α)) :
    ((firstOffers offers).map Factor.formula).Nodup := by
  induction offers with
  | nil => exact List.nodup_nil
  | cons first rest ih =>
    rw [firstOffers, List.map_cons, List.nodup_cons]
    constructor
    · intro again
      obtain ⟨later, member, same⟩ := List.mem_map.mp again
      exact bne_iff_ne.mp (List.mem_filter.mp member).2 same
    · exact ih.sublist (List.filter_sublist.map Factor.formula)

theorem firstOffers_append (offers more : List (Factor α)) :
    firstOffers (offers ++ more) = firstOffers offers ++
      (firstOffers more).filter fun later => later.formula ∉ offers.map Factor.formula := by
  induction offers with
  | nil => simp [firstOffers]
  | cons first rest ih =>
    rw [List.cons_append, firstOffers, ih, firstOffers, List.cons_append, List.filter_append,
      List.filter_filter]
    congr 2
    apply List.filter_congr
    intro later _
    rw [Bool.eq_iff_iff, Bool.and_eq_true, bne_iff_ne, decide_eq_true_iff, decide_eq_true_iff,
      List.map_cons, List.mem_cons, not_or]

theorem firstOffers_snoc (offers : List (Factor α)) (factor : Factor α) :
    firstOffers (offers ++ [factor]) =
      if factor.formula ∈ offers.map Factor.formula then firstOffers offers
      else firstOffers offers ++ [factor] := by
  have alone : firstOffers [factor] = [factor] := rfl
  rw [firstOffers_append, alone, List.filter_singleton]
  split
  · rename_i repeated
    rw [decide_eq_false (not_not.mpr repeated), Bool.cond_false, List.append_nil]
  · rename_i new
    rw [decide_eq_true new, Bool.cond_true]

/-! ## Ranking -/

section Ranking

variable [Scalar α]

/-- Factors by descending reward; the sort is stable, so factors of one reward keep their order. -/
def ranking (factors : List (Factor α)) : List (Factor α) :=
  factors.mergeSort fun a b => Scalar.le b.reward a.reward

variable [Scalar.Ordered α]

abbrev place (factor : Factor α) : Scalar.Ordered.Place α := Scalar.Ordered.place factor.reward

def AllFinite (factors : List (Factor α)) : Prop :=
  ∀ factor ∈ factors, Scalar.isFinite factor.reward = true

omit [Scalar.Ordered α] in
theorem allFinite_append {factors more : List (Factor α)} :
    AllFinite (factors ++ more) ↔ AllFinite factors ∧ AllFinite more := List.forall_mem_append

omit [Scalar.Ordered α] in
theorem mem_ranking {factors : List (Factor α)} {factor : Factor α} :
    factor ∈ ranking factors ↔ factor ∈ factors := List.mem_mergeSort

theorem ranking_eq_places (factors : List (Factor α)) (finite : AllFinite factors) :
    ranking factors = factors.mergeSort fun a b => decide (place b ≤ place a) := by
  have converted := List.map_mergeSort (r := fun a b : Factor α => Scalar.le b.reward a.reward)
    (s := fun a b => decide (place b ≤ place a)) (f := id) (l := factors) ?agree
  case agree =>
    intro a left b right
    rw [Bool.eq_iff_iff, decide_eq_true_iff]
    exact Scalar.Ordered.le_iff_of_finite (finite b right) (finite a left)
  rw [List.map_id, List.map_id] at converted
  exact converted

theorem ranking_descends (factors : List (Factor α)) (finite : AllFinite factors) :
    (ranking factors).Pairwise fun a b => place b ≤ place a := by
  rw [ranking_eq_places factors finite]
  have sorted := @List.pairwise_mergeSort _ (fun a b : Factor α => decide (place b ≤ place a))
    (fun a b c first second => by
      rw [decide_eq_true_iff] at first second ⊢
      exact second.trans first)
    (fun a b => by
      rw [Bool.or_eq_true, decide_eq_true_iff, decide_eq_true_iff]
      exact le_total ..) factors
  exact sorted.imp fun holds => of_decide_eq_true holds

/-- Another factor at the front is ranked before the factors of its own reward. -/
theorem ranking_cons (first : Factor α) (rest : List (Factor α))
    (finite : AllFinite (first :: rest)) :
    ranking (first :: rest) =
      (ranking rest).orderedInsert (fun a b => place b ≤ place a) first := by
  have descends := ranking_descends _ finite
  obtain ⟨above, below, whole, without, higher⟩ := @List.mergeSort_cons _
    (fun a b : Factor α => decide (place b ≤ place a))
    (fun a b c first second => by
      rw [decide_eq_true_iff] at first second ⊢
      exact second.trans first)
    (fun a b => by
      rw [Bool.or_eq_true, decide_eq_true_iff, decide_eq_true_iff]
      exact le_total ..) first rest
  rw [← ranking_eq_places _ finite] at whole
  rw [← ranking_eq_places _ fun f member => finite f (List.mem_cons_of_mem _ member)] at without
  rw [whole, List.pairwise_append, List.pairwise_cons] at descends
  have lower := descends.2.1.1
  rw [whole, without]
  clear whole without descends
  induction above with
  | nil =>
    cases below with
    | nil => rfl
    | cons next _ =>
      rw [List.nil_append, List.nil_append, List.orderedInsert_cons,
        if_pos (lower next List.mem_cons_self)]
  | cons next above ih =>
    have passed : ¬ place next ≤ place first := by
      have strictly := higher next List.mem_cons_self
      rw [Bool.not_eq_true', decide_eq_false_iff_not] at strictly
      exact strictly
    rw [List.cons_append, List.cons_append, List.orderedInsert_cons, if_neg passed,
      ih fun f member => higher f (List.mem_cons_of_mem _ member)]

theorem ranksBefore_iff {a b : Factor α} (left : Scalar.isFinite a.reward = true)
    (right : Scalar.isFinite b.reward = true) (later : b.step ≤ a.step) :
    ranksBefore a b = true ↔ place b < place a := by
  rw [ranksBefore, Bool.or_eq_true, Bool.and_eq_true, decide_eq_true_iff,
    Scalar.Ordered.lt_iff_of_finite right left]
  exact or_iff_left fun tie => absurd tie.2 (Nat.not_lt.mpr later)

/-- The factor may be ranked behind the ties of the list: it is finite, as all others, and no other
was found in a later step. -/
structure Latest (factor : Factor α) (factors : List (Factor α)) : Prop where
  finite : Scalar.isFinite factor.reward = true
  others : AllFinite factors
  steps : ∀ other ∈ factors, other.step ≤ factor.step

namespace Latest

variable {factor : Factor α} {factors : List (Factor α)}

omit [Scalar.Ordered α] in
theorem subset {fewer : List (Factor α)} (latest : Latest factor factors) (part : fewer ⊆ factors) :
    Latest factor fewer :=
  ⟨latest.finite, fun f member => latest.others f (part member),
    fun f member => latest.steps f (part member)⟩

theorem insertRanked_front (latest : Latest factor factors) (head : Factor α)
    (member : head ∈ factors) (rest : List (Factor α)) (beaten : place head < place factor) :
    insertRanked factor (head :: rest) = factor :: head :: rest := by
  rw [insertRanked, if_pos]
  exact (ranksBefore_iff latest.finite (latest.others head member)
    (latest.steps head member)).mpr beaten

theorem insertRanked_behind (latest : Latest factor factors) (head : Factor α)
    (member : head ∈ factors) (rest : List (Factor α)) (held : ¬ place head < place factor) :
    insertRanked factor (head :: rest) = head :: insertRanked factor rest := by
  rw [insertRanked, if_neg]
  exact fun before => held ((ranksBefore_iff latest.finite (latest.others head member)
    (latest.steps head member)).mp before)

/-- A factor that goes before its ties and one that goes behind them do not get in each other's
way. -/
theorem insertRanked_orderedInsert (first : Factor α) (latest : Latest factor (first :: factors)) :
    insertRanked factor (factors.orderedInsert (fun a b => place b ≤ place a) first) =
      (insertRanked factor factors).orderedInsert (fun a b => place b ≤ place a) first := by
  have front := fun rest => latest.insertRanked_front first List.mem_cons_self rest
  have behind := fun rest => latest.insertRanked_behind first List.mem_cons_self rest
  induction factors with
  | nil =>
    rw [List.orderedInsert_nil, insertRanked]
    by_cases beaten : place first < place factor
    · rw [front _ beaten, List.orderedInsert_cons, if_neg (not_le.mpr beaten),
        List.orderedInsert_nil]
    · rw [behind _ beaten, List.orderedInsert_cons, if_pos (not_lt.mp beaten), insertRanked]
  | cons next rest ih =>
    have inside : next ∈ first :: next :: rest := List.mem_cons_of_mem _ List.mem_cons_self
    have frontNext := fun rest => latest.insertRanked_front next inside rest
    have behindNext := fun rest => latest.insertRanked_behind next inside rest
    by_cases before : place next ≤ place first
    · rw [List.orderedInsert_cons, if_pos before]
      by_cases beaten : place first < place factor
      · rw [front _ beaten, frontNext _ (before.trans_lt beaten),
          List.orderedInsert_cons, if_neg (not_le.mpr beaten),
          List.orderedInsert_cons, if_pos before]
      · rw [behind _ beaten]
        by_cases beatenNext : place next < place factor
        · rw [frontNext _ beatenNext, List.orderedInsert_cons, if_pos (not_lt.mp beaten)]
        · rw [behindNext _ beatenNext, List.orderedInsert_cons, if_pos before]
    · rw [List.orderedInsert_cons, if_neg before]
      by_cases beatenNext : place next < place factor
      · have above : ¬ place factor ≤ place first :=
          not_le.mpr ((not_le.mp before).trans beatenNext)
        rw [frontNext _ beatenNext, frontNext _ beatenNext, List.orderedInsert_cons, if_neg above,
          List.orderedInsert_cons, if_neg before]
      · rw [behindNext _ beatenNext, behindNext _ beatenNext,
          List.orderedInsert_cons, if_neg before, ih (latest.subset (by simp))]

end Latest

/-- Another factor at the end is ranked behind the factors of its own reward. -/
theorem ranking_snoc (factors : List (Factor α)) (factor : Factor α)
    (latest : Latest factor factors) :
    ranking (factors ++ [factor]) = insertRanked factor (ranking factors) := by
  induction factors with
  | nil => rw [List.nil_append, ranking, ranking, List.mergeSort_singleton, List.mergeSort_nil,
      insertRanked]
  | cons first rest ih =>
    have finite : AllFinite (first :: (rest ++ [factor])) := by
      intro f member
      rw [← List.cons_append, List.mem_append] at member
      rcases member with inside | last
      · exact latest.others f inside
      · rw [List.mem_singleton.mp last]
        exact latest.finite
    rw [List.cons_append, ranking_cons _ _ finite, ih (latest.subset (List.subset_cons_self ..)),
      ranking_cons _ _ latest.others, Latest.insertRanked_orderedInsert]
    refine latest.subset fun f member => ?_
    rcases List.mem_cons.mp member with rfl | ranked
    · exact List.mem_cons_self
    · exact List.mem_cons_of_mem _ (mem_ranking.mp ranked)

/-! ## Inserting into what is held -/

omit [Scalar.Ordered α] in
/-- What does not fit is not needed to find out what fits after another factor. -/
theorem take_insertRanked (factor : Factor α) (ranked : List (Factor α)) (capacity : Nat) :
    (insertRanked factor (ranked.take capacity)).take capacity =
      (insertRanked factor ranked).take capacity := by
  induction ranked generalizing capacity with
  | nil => rw [List.take_nil]
  | cons head rest ih =>
    cases capacity with
    | zero => rw [List.take_zero, List.take_zero]
    | succ room =>
      have short : (head :: rest.take room).take room = (head :: rest).take room := by
        rw [← List.take_succ_cons, List.take_take, Nat.min_eq_left (Nat.le_succ room)]
      rw [List.take_succ_cons, insertRanked, insertRanked]
      split
      · rw [List.take_succ_cons, List.take_succ_cons, short]
      · rw [List.take_succ_cons, List.take_succ_cons, ih]

omit [Scalar.Ordered α] in
theorem insertRanked_perm (factor : Factor α) (ranked : List (Factor α)) :
    (insertRanked factor ranked).Perm (factor :: ranked) := by
  induction ranked with
  | nil => exact List.Perm.refl _
  | cons head rest ih =>
    rw [insertRanked]
    split
    · exact List.Perm.refl _
    · exact (ih.cons head).trans (List.Perm.swap factor head rest)

theorem Latest.insertRanked_end {factor : Factor α} {ranked : List (Factor α)}
    (latest : Latest factor ranked) (unbeaten : ∀ other ∈ ranked, place factor ≤ place other) :
    insertRanked factor ranked = ranked ++ [factor] := by
  induction ranked with
  | nil => rfl
  | cons head rest ih =>
    rw [latest.insertRanked_behind head List.mem_cons_self _
      (not_lt.mpr (unbeaten head List.mem_cons_self)),
      ih (latest.subset (List.subset_cons_self ..))
        fun other member => unbeaten other (List.mem_cons_of_mem _ member), List.cons_append]

omit [Scalar.Ordered α] in
theorem excludes_iff (hall : HallOfFame α) (reward : α) :
    hall.excludes reward = true ↔ hall.capacity ≤ hall.factors.length ∧
      ∃ worst, hall.factors.getLast? = some worst ∧ Scalar.le reward worst.reward = true := by
  rw [excludes, Bool.and_eq_true, decide_eq_true_iff]
  cases hall.factors.getLast? with
  | none => simp
  | some worst => simp

omit [Scalar.Ordered α] in
theorem admits_iff (hall : HallOfFame α) (factor : Factor α) :
    hall.admits factor = true ↔ Scalar.isFinite factor.reward = true ∧ hall.capacity ≠ 0 ∧
      factor.formula ∉ hall.seen ∧ ¬ hall.excludes factor.reward = true := by
  simp [admits, and_assoc]

omit [Scalar.Ordered α] in
theorem mem_seen_insert (hall : HallOfFame α) (factor : Factor α)
    (distinct : (hall.factors.map Factor.formula).Nodup)
    (new : factor.formula ∉ hall.factors.map Factor.formula)
    (seen : ∀ formula, formula ∈ hall.seen ↔ formula ∈ hall.factors.map Factor.formula)
    (formula : String) :
    formula ∈ (hall.insert factor).seen ↔
      formula ∈ (hall.insert factor).factors.map Factor.formula := by
  have ranked := (insertRanked_perm factor hall.factors).map Factor.formula
  have apart : ((insertRanked factor hall.factors).map Factor.formula).Nodup := by
    rw [ranked.nodup_iff, List.map_cons, List.nodup_cons]
    exact ⟨new, distinct⟩
  have kept : formula ∈ (hall.insert factor).seen ↔
      formula ∈ (insertRanked factor hall.factors).map Factor.formula ∧
        formula ∉ ((insertRanked factor hall.factors).drop hall.capacity).map Factor.formula := by
    rw [insert, List.mem_filter, ranked.mem_iff, List.map_cons, List.mem_cons, List.mem_cons,
      seen, Bool.not_eq_true', ← Bool.not_eq_true, List.contains_iff_mem]
  rw [← List.take_append_drop hall.capacity (insertRanked factor hall.factors), List.map_append,
    List.nodup_append] at apart
  rw [kept, ← List.take_append_drop hall.capacity (insertRanked factor hall.factors),
    List.map_append, List.take_append_drop, List.mem_append]
  constructor
  · rintro ⟨stays | dropped, not⟩
    · exact stays
    · exact absurd dropped not
  · intro stays
    exact ⟨Or.inl stays, fun dropped => apart.2.2 formula stays formula dropped rfl⟩

/-! ## The hall after any offers -/

/-- The offers that count: each formula at its first offer with a finite reward. -/
def counted (offers : List (Factor α)) : List (Factor α) :=
  firstOffers (offers.filter fun factor => Scalar.isFinite factor.reward)

omit [Scalar.Ordered α] in
theorem mem_of_counted {offers : List (Factor α)} {factor : Factor α}
    (member : factor ∈ counted offers) :
    factor ∈ offers ∧ Scalar.isFinite factor.reward = true :=
  List.mem_filter.mp (firstOffers_subset _ member)

omit [Scalar.Ordered α] in
theorem allFinite_counted (offers : List (Factor α)) : AllFinite (counted offers) :=
  fun _ member => (mem_of_counted member).2

omit [Scalar.Ordered α] in
theorem counted_snoc (offers : List (Factor α)) (factor : Factor α) :
    counted (offers ++ [factor]) = counted offers ∧
        (Scalar.isFinite factor.reward = true →
          ∃ first ∈ counted offers, first.formula = factor.formula) ∨
      counted (offers ++ [factor]) = counted offers ++ [factor] ∧
        Scalar.isFinite factor.reward = true ∧
          factor.formula ∉ (counted offers).map Factor.formula := by
  rw [counted, List.filter_append, List.filter_singleton]
  cases finite : Scalar.isFinite factor.reward with
  | false =>
    left
    rw [Bool.cond_false, List.append_nil]
    exact ⟨rfl, fun impossible => by cases impossible⟩
  | true =>
    rw [Bool.cond_true, firstOffers_snoc]
    split
    · rename_i repeated
      obtain ⟨twin, offered, same⟩ := List.mem_map.mp repeated
      obtain ⟨first, member, spelled⟩ := exists_firstOffer _ twin offered
      exact Or.inl ⟨rfl, fun _ => ⟨first, member, spelled.trans same⟩⟩
    · rename_i new
      refine Or.inr ⟨rfl, rfl, fun again => new ?_⟩
      obtain ⟨first, member, same⟩ := List.mem_map.mp again
      exact List.mem_map.mpr ⟨first, firstOffers_subset _ member, same⟩

/-- The hall holds the best of the offers, and remembers the formulas of what it holds. -/
structure Holds (hall : HallOfFame α) (capacity : Nat) (offers : List (Factor α)) : Prop where
  room : hall.capacity = capacity
  factors : hall.factors = (ranking (counted offers)).take capacity
  seen : ∀ formula, formula ∈ hall.seen ↔ formula ∈ hall.factors.map Factor.formula

omit [Scalar.Ordered α] in
theorem holds_empty (capacity : Nat) : Holds (empty capacity : HallOfFame α) capacity [] := by
  refine ⟨rfl, ?_, fun formula => Iff.rfl⟩
  rw [counted, List.filter_nil, firstOffers, ranking, List.mergeSort_nil, List.take_nil]
  rfl

namespace Holds

variable {hall : HallOfFame α} {capacity : Nat} {offers : List (Factor α)}

omit [Scalar.Ordered α] in
theorem mem_factors (holds : Holds hall capacity offers) {factor : Factor α}
    (held : factor ∈ hall.factors) : factor ∈ counted offers := by
  rw [holds.factors] at held
  exact mem_ranking.mp (List.mem_of_mem_take held)

theorem descends (holds : Holds hall capacity offers) :
    hall.factors.Pairwise fun a b => place b ≤ place a := by
  rw [holds.factors]
  exact (ranking_descends _ (allFinite_counted _)).sublist (List.take_sublist ..)

/-- A formula that counts and is not held was dropped: the hall is full of better factors. -/
theorem excludes_of_dropped (holds : Holds hall capacity offers) (some : capacity ≠ 0)
    {first factor : Factor α} (counts : first ∈ counted offers) (dropped : first ∉ hall.factors)
    (finite : Scalar.isFinite factor.reward = true) (same : place factor = place first) :
    hall.excludes factor.reward = true := by
  have split := List.take_append_drop capacity (ranking (counted offers))
  have behind : first ∈ (ranking (counted offers)).drop capacity := by
    have ranked := mem_ranking.mpr counts
    rw [← split, List.mem_append, ← holds.factors] at ranked
    exact ranked.resolve_left dropped
  have full : hall.factors.length = capacity := by
    have longer := List.length_pos_of_mem behind
    rw [List.length_drop] at longer
    rw [holds.factors, List.length_take]
    omega
  have above := ranking_descends _ (allFinite_counted offers)
  rw [← split, List.pairwise_append, ← holds.factors] at above
  have filled : hall.factors ≠ [] := by
    intro none
    rw [none] at full
    exact some full.symm
  have lastHeld := List.getLast_mem filled
  refine (excludes_iff ..).mpr ⟨by rw [holds.room, full],
    hall.factors.getLast filled, List.getLast?_eq_some_getLast filled, ?_⟩
  rw [Scalar.Ordered.le_iff_of_finite finite (allFinite_counted _ _ (holds.mem_factors lastHeld))]
  exact same.trans_le (above.2.2 _ lastHeld _ behind)

theorem unbeaten_of_excludes (holds : Holds hall capacity offers) {factor : Factor α}
    (finite : Scalar.isFinite factor.reward = true)
    (excluded : hall.excludes factor.reward = true) :
    ∀ other ∈ hall.factors, place factor ≤ place other := by
  obtain ⟨_, worst, last, below⟩ := (excludes_iff ..).mp excluded
  obtain ⟨better, whole⟩ := List.getLast?_eq_some_iff.mp last
  have worstHeld := List.mem_of_getLast? last
  rw [Scalar.Ordered.le_iff_of_finite finite
    (allFinite_counted _ _ (holds.mem_factors worstHeld))] at below
  intro other held
  have descends := holds.descends
  rw [whole] at held descends
  rcases List.mem_append.mp held with ahead | rest
  · exact below.trans
      ((List.pairwise_append.mp descends).2.2 other ahead worst List.mem_cons_self)
  · rw [List.mem_singleton.mp rest]
    exact below

omit [Scalar.Ordered α] in
theorem seen_insert (holds : Holds hall capacity offers) {factor : Factor α}
    (new : factor.formula ∉ (counted offers).map Factor.formula) (formula : String) :
    formula ∈ (hall.insert factor).seen ↔
      formula ∈ (hall.insert factor).factors.map Factor.formula := by
  refine mem_seen_insert hall factor ?_ (fun held => new ?_) holds.seen formula
  · rw [holds.factors]
    exact (((List.mergeSort_perm ..).map Factor.formula).nodup_iff.mpr
      (firstOffers_nodup _)).sublist ((List.take_sublist ..).map Factor.formula)
  · obtain ⟨twin, member, same⟩ := List.mem_map.mp held
    exact List.mem_map.mpr ⟨twin, holds.mem_factors member, same⟩

theorem offer (holds : Holds hall capacity offers) (factor : Factor α)
    (agrees : ∀ other ∈ offers, other.formula = factor.formula →
      Scalar.isFinite other.reward = true → Scalar.isFinite factor.reward = true →
        Scalar.same other.reward factor.reward = true)
    (latest : ∀ other ∈ offers, other.step ≤ factor.step) :
    Holds (hall.offer factor).2 capacity (offers ++ [factor]) := by
  have refused (counts : counted (offers ++ [factor]) = counted offers)
      (rejected : hall.admits factor = false) :
      Holds (hall.offer factor).2 capacity (offers ++ [factor]) := by
    rw [HallOfFame.offer, rejected, if_neg Bool.false_ne_true]
    exact ⟨holds.room, by rw [counts, holds.factors], holds.seen⟩
  rcases counted_snoc offers factor with ⟨counts, repeated⟩ | ⟨counts, finite, new⟩
  · -- the offer does not count, and the hall refuses it for one of four reasons
    apply refused counts
    rw [Bool.eq_false_iff, Ne, admits_iff]
    rintro ⟨finite, some, unseen, unexcluded⟩
    obtain ⟨first, member, same⟩ := repeated finite
    rw [holds.room] at some
    by_cases held : first ∈ hall.factors
    · exact unseen ((holds.seen _).mpr (List.mem_map.mpr ⟨first, held, same⟩))
    · obtain ⟨offered, firstFinite⟩ := mem_of_counted member
      have tied := ((Scalar.Ordered.same_iff ..).mp
        (agrees first offered same firstFinite finite)).2.2
      exact unexcluded (holds.excludes_of_dropped some member held finite tied.symm)
  · have last : Latest factor (ranking (counted offers)) :=
      ⟨finite, fun f ranked => allFinite_counted _ f (mem_ranking.mp ranked),
        fun f ranked => latest f (mem_of_counted (mem_ranking.mp ranked)).1⟩
    have ranked : (ranking (counted (offers ++ [factor]))).take capacity =
        (insertRanked factor hall.factors).take capacity := by
      rw [counts, ranking_snoc _ _ (last.subset fun f member => mem_ranking.mpr member),
        holds.factors, take_insertRanked]
    by_cases admitted : hall.admits factor = true
    · rw [HallOfFame.offer, if_pos admitted]
      refine ⟨holds.room, ?_, holds.seen_insert new⟩
      rw [ranked, ← holds.room]
      rfl
    · rw [HallOfFame.offer, if_neg admitted]
      refine ⟨holds.room, ?_, holds.seen⟩
      rw [ranked]
      by_cases none : capacity = 0
      · rw [holds.factors, none, List.take_zero, List.take_zero]
      · have unseen : factor.formula ∉ hall.seen := by
          rw [holds.seen, List.mem_map]
          rintro ⟨twin, held, same⟩
          exact new (List.mem_map.mpr ⟨twin, holds.mem_factors held, same⟩)
        have excluded : hall.excludes factor.reward = true := by
          by_contra unexcluded
          exact admitted ((admits_iff ..).mpr
            ⟨finite, by rw [holds.room]; exact none, unseen, unexcluded⟩)
        have full : hall.factors.length = capacity := by
          apply Nat.le_antisymm
          · rw [holds.factors, List.length_take]
            exact Nat.min_le_left ..
          · rw [← holds.room]
            exact ((excludes_iff ..).mp excluded).1
        rw [Latest.insertRanked_end
          (last.subset fun f held => mem_ranking.mpr (holds.mem_factors held))
          (holds.unbeaten_of_excludes finite excluded), List.take_left' full]

end Holds

/-- Offers that respect time and in which a formula always carries one reward. -/
structure Consistent (offers : List (Factor α)) : Prop where
  rewards : ∀ a ∈ offers, ∀ b ∈ offers, a.formula = b.formula →
    Scalar.isFinite a.reward = true → Scalar.isFinite b.reward = true →
      Scalar.same a.reward b.reward = true
  steps : offers.Pairwise fun a b => a.step ≤ b.step

theorem holds_offerAll (capacity : Nat) (offers : List (Factor α))
    (consistent : Consistent offers) :
    Holds ((empty capacity).offerAll offers) capacity offers := by
  induction offers using List.reverseRecOn with
  | nil => exact holds_empty capacity
  | append_singleton earlier factor ih =>
    have steps := List.pairwise_append.mp consistent.steps
    have before : Consistent earlier :=
      ⟨fun a left b right => consistent.rewards a (List.mem_append_left _ left) b
        (List.mem_append_left _ right), steps.1⟩
    rw [offerAll, List.foldl_append]
    exact (ih before).offer factor
      (fun other member => consistent.rewards other (List.mem_append_left _ member) factor
        (List.mem_append_right _ List.mem_cons_self))
      (fun other member => steps.2.2 other member factor List.mem_cons_self)

/-- A hall is a streaming selection: after any offers in which a formula always carries the same
reward and steps never decrease, it holds the first of the ranking of the distinct formulas with a
finite reward, each at its first offer. -/
theorem offerAll_eq_top (capacity : Nat) (offers : List (Factor α))
    (rewards : ∀ a ∈ offers, ∀ b ∈ offers, a.formula = b.formula →
      Scalar.isFinite a.reward = true → Scalar.isFinite b.reward = true →
        Scalar.same a.reward b.reward = true)
    (steps : offers.Pairwise fun a b => a.step ≤ b.step) :
    ((empty capacity).offerAll offers).factors =
      (ranking (firstOffers (offers.filter fun factor => Scalar.isFinite factor.reward))).take
        capacity :=
  (holds_offerAll capacity offers ⟨rewards, steps⟩).factors

end Ranking

def rival (formula : String) (reward : Float) (step : Nat) : Factor Float :=
  ⟨formula, reward, ⟨0, 0, 0, 0, 0, 0, 0⟩, step⟩

/-- Offers with ties, repeats, a missing reward, and formulas that are pushed out of a hall of three
and come back. -/
def rivals : List (Factor Float) :=
  [rival "ABS(RET)" 0.5 0, rival "NEG(RET)" 1.5 0, rival "RET" 1 1, rival "ABS(RET)" 0.5 1,
    rival "VOL" (0.0 / 0.0) 2, rival "NEG(VOL)" 1 2, rival "ABS(VOL)" 1.5 2, rival "RET" 1 3,
    rival "NEG(VOL)" 1 3]

theorem rivals_ranked :
    (∀ a ∈ rivals, ∀ b ∈ rivals, a.formula = b.formula → Scalar.isFinite a.reward = true →
        Scalar.isFinite b.reward = true → Scalar.same a.reward b.reward = true) ∧
      (rivals.Pairwise fun a b => a.step ≤ b.step) ∧
      (ranking (firstOffers (rivals.filter fun factor => Scalar.isFinite factor.reward))).take 3 =
        [rival "NEG(RET)" 1.5 0, rival "ABS(VOL)" 1.5 2, rival "RET" 1 1] :=
  ⟨by decide +kernel, by decide,
    (offerAll_eq_top 3 rivals (by decide +kernel) (by decide)).symm.trans rfl⟩

end HallOfFame

end FactorSearch
