import FactorSearch.Proofs.Training.BestTracking

/-!
# The best of the hall

The hall ranks each formula at its first offer, and the run compares the best of whole batches.  A
formula stands for one program, so it is always scored alike.  Then the front of the ranking is the
earliest factor with the largest reward, and both records of the best are the same factor.
-/

set_option autoImplicit false

namespace FactorSearch

theorem Program.eq_of_validate {v : Vocabulary} {limit : Nat} {formula : String}
    (program : Program) {twin : Program} (valid : program.validate v limit = .ok formula)
    (alsoValid : twin.validate v limit = .ok formula) : program = twin := by
  obtain ⟨-, tree, rfl, spelled⟩ := (validate_eq_ok_iff ..).mp valid
  obtain ⟨-, second, rfl, alike⟩ := (validate_eq_ok_iff ..).mp alsoValid
  exact Formula.postorder_eq_of_render tree second (by rw [spelled, alike])

namespace Training

namespace Run

open HallOfFame

variable {α : Type} [Scalar α] {periods instruments : Nat}

/-- The formula of a scored program determines what it was scored with. -/
theorem Attested.unique {run : Run α periods instruments} {a b : Factor α}
    (one : run.Attested a) (other : run.Attested b) (same : a.formula = b.formula) :
    a.metrics = b.metrics ∧ a.reward = b.reward := by
  obtain ⟨program, valid, scored⟩ := one
  obtain ⟨twin, alsoValid, alsoScored⟩ := other
  rw [← same] at alsoValid
  rw [program.eq_of_validate valid alsoValid, alsoScored] at scored
  injection Except.ok.inj scored with metrics reward
  exact ⟨metrics.symm, reward.symm⟩

variable [Scalar.Ordered α]

/-- The ranking begins with the earliest factor that has the largest reward. -/
theorem head?_ranking (factors : List (Factor α)) (finite : AllFinite factors) :
    (ranking factors).head? = earliestBest? factors := by
  induction factors with
  | nil =>
    rw [ranking, List.mergeSort_nil]
    rfl
  | cons first rest ih =>
    have behind : AllFinite rest := fun f member => finite f (List.mem_cons_of_mem _ member)
    rw [ranking_cons first rest finite]
    by_cases none : rest = []
    · subst none
      rw [(Leads.single first).earliestBest?_eq finite, ranking, List.mergeSort_nil]
      rfl
    · obtain ⟨leader, -, leads⟩ := exists_leader rest behind none
      have front := ih behind
      rw [leads.earliestBest?_eq behind] at front
      obtain ⟨tail, ranked⟩ := List.head?_eq_some_iff.mp front
      rw [ranked, List.orderedInsert_cons]
      split
      · rename_i level
        have kept : Leads first ([first] ++ rest) := (Leads.single first).append_kept
          fun other member => (leads.le other member).trans level
        exact (kept.earliestBest?_eq finite).symm
      · rename_i beaten
        have exceeds : ∀ other ∈ [first], place other < place leader := by
          intro other member
          rw [List.mem_singleton.mp member]
          exact not_le.mp beaten
        exact ((leads.append_taken exceeds).earliestBest?_eq finite).symm

/-- When a formula always carries one reward, its first offer counts for all of them. -/
theorem Leads.firstOffers {leader : Factor α} {factors : List (Factor α)}
    (leads : Leads leader factors)
    (alike : ∀ a ∈ factors, ∀ b ∈ factors, a.formula = b.formula → place a = place b) :
    Leads leader (firstOffers factors) := by
  obtain ⟨before, after, rfl, above, level⟩ := leads
  have new : leader.formula ∉ before.map Factor.formula := by
    intro repeated
    obtain ⟨twin, earlier, same⟩ := List.mem_map.mp repeated
    have tied := alike twin (List.mem_append_left _ earlier) leader
      (List.mem_append_right _ List.mem_cons_self) same
    exact absurd tied (above twin earlier).ne
  rw [firstOffers_append, HallOfFame.firstOffers, List.filter_cons, if_pos (decide_eq_true new)]
  refine ⟨HallOfFame.firstOffers before, _, rfl,
    fun other member => above other (firstOffers_subset before member), fun other member => ?_⟩
  exact level other (firstOffers_subset after
    (List.mem_of_mem_filter (List.mem_of_mem_filter member)))

theorem Recounts.consistent {start run : Run α periods instruments}
    {trials : List (Trial α periods instruments)} (recounts : Recounts start trials run) :
    Consistent (offered trials) where
  rewards a left b right same finite _ := by
    obtain ⟨-, equal⟩ :=
      (recounts.attested a left).unique (recounts.attested b right) same
    rw [← equal, Scalar.Ordered.same_iff]
    exact ⟨Scalar.Ordered.present _ finite, Scalar.Ordered.present _ finite, rfl⟩
  steps := by
    rw [offered, List.pairwise_flatten]
    refine ⟨fun batch listed => ?_, recounts.ordered.imp fun later a inBatch b inLater =>
      (later a inBatch b inLater).le⟩
    obtain ⟨trial, -, rfl⟩ := List.mem_map.mp listed
    refine List.pairwise_of_forall_mem_list fun a left b right => ?_
    rw [found_step _ _ a left, found_step _ _ b right]

/-- The two records of the best are one: a fresh run with room in its hall has the same factor at
the front of the hall as for its best, or none in both, after any calls. -/
theorem hall_best_eq_best (fresh : Run α periods instruments) (unused : fresh.Fresh)
    (room : 1 ≤ fresh.settings.hallSize) (calls : List Call) :
    (fresh.after calls).hall.best? = (fresh.after calls).best := by
  have recounts := unused.recounts_calls calls
  have finite := recounts.finite
  have consistent := recounts.consistent
  have alike : ∀ a ∈ offered (fresh.trials calls), ∀ b ∈ offered (fresh.trials calls),
      a.formula = b.formula → place a = place b := by
    intro a left b right same
    rw [place, place, ((recounts.attested a left).unique (recounts.attested b right) same).2]
  have everything : counted (offered (fresh.trials calls)) =
      firstOffers (offered (fresh.trials calls)) := by
    rw [counted, List.filter_eq_self.mpr finite]
  rw [recounts.hall, HallOfFame.best?, (holds_offerAll _ _ consistent).factors, List.head?_take,
    if_neg (Nat.pos_iff_ne_zero.mp room), head?_ranking _ (allFinite_counted _), everything,
    recounts.best]
  by_cases none : offered (fresh.trials calls) = []
  · rw [none]
    rfl
  · obtain ⟨leader, -, leads⟩ := exists_leader _ finite none
    rw [leads.earliestBest?_eq finite]
    exact (leads.firstOffers alike).earliestBest?_eq
      fun factor member => finite factor (firstOffers_subset _ member)

theorem leaf_hall_best :
    (leafRun (.fresh 1 .zero) ⟨fun _ => 0, 0⟩).Fresh ∧ leafSettings.training.hallSize = 1 ∧
      ∃ factor, factor.formula = "RET" ∧ factor.step = 0 ∧
        ((leafRun (.fresh 1 .zero) ⟨fun _ => 0, 0⟩).after [.next false]).best = some factor ∧
        ((leafRun (.fresh 1 .zero) ⟨fun _ => 0, 0⟩).after [.next false]).hall.best? =
          some factor := by
  have unused : (leafRun (.fresh 1 .zero) ⟨fun _ => 0, 0⟩).Fresh := ⟨rfl, rfl, rfl, rfl, rfl, rfl⟩
  obtain ⟨metrics, reward, decisions, last, reached⟩ := leaf_after
  have best : ((leafRun (.fresh 1 .zero) ⟨fun _ => 0, 0⟩).after [.next false]).best =
      some ⟨"RET", reward, metrics, 0⟩ := by
    rw [reached]
    rfl
  exact ⟨unused, rfl, _, rfl, rfl, best,
    (hall_best_eq_best _ unused le_rfl [.next false]).trans best⟩

end Run

end Training

end FactorSearch
