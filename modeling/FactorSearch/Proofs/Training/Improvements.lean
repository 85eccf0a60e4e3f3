import FactorSearch.Proofs.Training.Calls
import FactorSearch.Proofs.Training.TopFactors

/-!
# Improvements over batches

The best of a list of factors is the earliest one that none exceeds.  A batch improves on what was
found before it when its best exceeds all of that.  A run that takes the factors of a batch into
account keeps the best of all that was found, and announces the improvement.
-/

set_option autoImplicit false

namespace FactorSearch

namespace Training

namespace Run

open HallOfFame

variable {α : Type} [Scalar α] {periods instruments : Nat}

/-- The earliest factor with the largest reward. -/
def earliestBest? (factors : List (Factor α)) : Option (Factor α) :=
  factors.find? fun factor => factors.all fun other => Scalar.le other.reward factor.reward

def improvement? (earlier batch : List (Factor α)) : Option (Factor α) :=
  (earliestBest? batch).filter fun factor =>
    earlier.all fun other => Scalar.lt other.reward factor.reward

/-- The improvements of batches, each over those before it. -/
def improvements (earlier : List (Factor α)) : List (List (Factor α)) → List (Factor α)
  | [] => []
  | batch :: rest => (improvement? earlier batch).toList ++ improvements (earlier ++ batch) rest

/-! ## The improvements of a list of batches -/

theorem improvements_snoc (earlier : List (Factor α)) (batches : List (List (Factor α)))
    (batch : List (Factor α)) :
    improvements earlier (batches ++ [batch]) =
      improvements earlier batches ++ (improvement? (earlier ++ batches.flatten) batch).toList := by
  induction batches generalizing earlier with
  | nil => simp [improvements]
  | cons first rest ih =>
    rw [List.cons_append, improvements, ih, improvements, List.flatten_cons, List.append_assoc,
      List.append_assoc]

theorem improvement?_eq_some {earlier batch : List (Factor α)} {factor : Factor α}
    (improves : improvement? earlier batch = some factor) :
    factor ∈ batch ∧ ∀ other ∈ earlier, Scalar.lt other.reward factor.reward = true := by
  obtain ⟨best, exceeds⟩ := Option.filter_eq_some_iff.mp improves
  exact ⟨List.mem_of_find?_eq_some best, List.all_eq_true.mp exceeds⟩

theorem mem_improvements {earlier : List (Factor α)} {batches : List (List (Factor α))}
    {factor : Factor α} (member : factor ∈ improvements earlier batches) :
    factor ∈ batches.flatten ∧ ∀ other ∈ earlier, Scalar.lt other.reward factor.reward = true := by
  induction batches generalizing earlier with
  | nil => cases member
  | cons batch rest ih =>
    rw [List.flatten_cons]
    rcases List.mem_append.mp member with here | later
    · obtain ⟨found, exceeds⟩ := improvement?_eq_some (Option.mem_toList.mp here)
      exact ⟨List.mem_append_left _ found, exceeds⟩
    · obtain ⟨found, exceeds⟩ := ih later
      exact ⟨List.mem_append_right _ found,
        fun other before => exceeds other (List.mem_append_left _ before)⟩

/-- Each improvement exceeds the ones before it, and comes from a later batch. -/
theorem improvements_pairwise (earlier : List (Factor α)) (batches : List (List (Factor α)))
    (relation : Factor α → Factor α → Prop)
    (ordered : batches.Pairwise fun batch later => ∀ a ∈ batch, ∀ b ∈ later, relation a b) :
    (improvements earlier batches).Pairwise fun a b =>
      relation a b ∧ Scalar.lt a.reward b.reward = true := by
  induction batches generalizing earlier with
  | nil => exact List.Pairwise.nil
  | cons batch rest ih =>
    obtain ⟨ahead, behind⟩ := List.pairwise_cons.mp ordered
    rw [improvements, List.pairwise_append]
    refine ⟨?_, ih _ behind, ?_⟩
    · cases improvement? earlier batch with
      | none => exact List.Pairwise.nil
      | some factor => exact List.pairwise_singleton _ factor
    · intro factor here other member
      obtain ⟨found, -⟩ := improvement?_eq_some (Option.mem_toList.mp here)
      obtain ⟨inside, exceeds⟩ := mem_improvements member
      obtain ⟨later, listed, contains⟩ := List.mem_flatten.mp inside
      exact ⟨ahead later listed factor found other contains,
        exceeds factor (List.mem_append_right _ found)⟩

/-! ## The best of a list -/

variable [Scalar.Ordered α]

/-- The factor exceeds those before it in the list, and none behind exceeds it. -/
def Leads (leader : Factor α) (factors : List (Factor α)) : Prop :=
  ∃ before after, factors = before ++ leader :: after ∧
    (∀ other ∈ before, place other < place leader) ∧ ∀ other ∈ after, place other ≤ place leader

namespace Leads

variable {leader : Factor α} {factors more : List (Factor α)}

theorem mem (leads : Leads leader factors) : leader ∈ factors := by
  obtain ⟨before, after, rfl, -, -⟩ := leads
  exact List.mem_append_right _ List.mem_cons_self

theorem le (leads : Leads leader factors) : ∀ other ∈ factors, place other ≤ place leader := by
  obtain ⟨before, after, rfl, above, level⟩ := leads
  intro other member
  rcases List.mem_append.mp member with ahead | rest
  · exact (above other ahead).le
  · rcases List.mem_cons.mp rest with rfl | behind
    · exact le_rfl
    · exact level other behind

theorem single (factor : Factor α) : Leads factor [factor] :=
  ⟨[], [], rfl, List.forall_mem_nil _, List.forall_mem_nil _⟩

theorem append_kept (leads : Leads leader factors)
    (unbeaten : ∀ other ∈ more, place other ≤ place leader) : Leads leader (factors ++ more) := by
  obtain ⟨before, after, rfl, above, level⟩ := leads
  refine ⟨before, after ++ more, by simp, above, fun other member => ?_⟩
  rcases List.mem_append.mp member with behind | new
  · exact level other behind
  · exact unbeaten other new

theorem append_taken {challenger : Factor α} (challenge : Leads challenger more)
    (beaten : ∀ other ∈ factors, place other < place challenger) :
    Leads challenger (factors ++ more) := by
  obtain ⟨before, after, rfl, above, level⟩ := challenge
  refine ⟨factors ++ before, after, by simp, fun other member => ?_, level⟩
  rcases List.mem_append.mp member with earlier | ahead
  · exact beaten other earlier
  · exact above other ahead

end Leads

theorem earliestBest?_eq_some_iff (factors : List (Factor α)) (finite : AllFinite factors)
    (factor : Factor α) : earliestBest? factors = some factor ↔ Leads factor factors := by
  have reaches (candidate : Factor α) (member : candidate ∈ factors) :
      (factors.all fun other => Scalar.le other.reward candidate.reward) = true ↔
        ∀ other ∈ factors, place other ≤ place candidate := by
    rw [List.all_eq_true]
    exact forall₂_congr fun other inside =>
      Scalar.Ordered.le_iff_of_finite (finite other inside) (finite candidate member)
  rw [earliestBest?, List.find?_eq_some_iff_append]
  constructor
  · rintro ⟨best, before, after, whole, passed⟩
    have member : factor ∈ factors := whole ▸ List.mem_append_right _ List.mem_cons_self
    have largest := (reaches factor member).mp best
    refine ⟨before, after, whole, fun other ahead => ?_, fun other behind => ?_⟩
    · -- a factor that was passed is exceeded by one of the list
      have inside : other ∈ factors := whole ▸ List.mem_append_left _ ahead
      by_contra level
      have alsoBest := (reaches other inside).mpr fun any listed =>
        (largest any listed).trans (not_lt.mp level)
      have rejected := passed other ahead
      rw [alsoBest] at rejected
      cases rejected
    · exact largest other (whole ▸ List.mem_append_right _ (List.mem_cons_of_mem _ behind))
  · intro leads
    refine ⟨(reaches factor leads.mem).mpr leads.le, ?_⟩
    obtain ⟨before, after, whole, above, level⟩ := leads
    refine ⟨before, after, whole, fun other ahead => ?_⟩
    have inside : other ∈ factors := whole ▸ List.mem_append_left _ ahead
    have member : factor ∈ factors := whole ▸ List.mem_append_right _ List.mem_cons_self
    rw [Bool.not_eq_true', Bool.eq_false_iff, Ne, reaches other inside]
    exact fun best => absurd (above other ahead) (not_lt.mpr (best factor member))

theorem Leads.earliestBest?_eq {leader : Factor α} {factors : List (Factor α)}
    (leads : Leads leader factors) (finite : AllFinite factors) :
    earliestBest? factors = some leader :=
  (earliestBest?_eq_some_iff factors finite leader).mpr leads

omit [Scalar.Ordered α] in
theorem leader?_snoc (factors : List (Factor α)) (factor : Factor α) :
    leader? (factors ++ [factor]) =
      match leader? factors with
      | none => some factor
      | some best => if Scalar.lt best.reward factor.reward then some factor else some best := by
  rw [leader?, List.foldl_append, ← leader?]
  cases leader? factors <;> rfl

/-- Factors with finite rewards have a leader, and the fold finds it. -/
theorem exists_leader (factors : List (Factor α)) (finite : AllFinite factors)
    (some : factors ≠ []) : ∃ leader, leader? factors = .some leader ∧ Leads leader factors := by
  induction factors using List.reverseRecOn with
  | nil => exact absurd rfl some
  | append_singleton earlier factor ih =>
    obtain ⟨before, alone⟩ := allFinite_append.mp finite
    have last := alone factor List.mem_cons_self
    rw [leader?_snoc]
    by_cases none : earlier = []
    · rw [none]
      exact ⟨factor, rfl, .single factor⟩
    · obtain ⟨leader, found, leads⟩ := ih before none
      rw [found]
      by_cases beaten : place leader < place factor
      · have exceeds := (Scalar.Ordered.lt_iff_of_finite (before leader leads.mem) last).mpr beaten
        exact ⟨factor, if_pos exceeds, (Leads.single factor).append_taken
          fun other member => (leads.le other member).trans_lt beaten⟩
      · have held : ¬ Scalar.lt leader.reward factor.reward = true := fun exceeds =>
          beaten ((Scalar.Ordered.lt_iff_of_finite (before leader leads.mem) last).mp exceeds)
        refine ⟨leader, if_neg held, leads.append_kept fun other member => ?_⟩
        rw [List.mem_singleton.mp member]
        exact not_lt.mp beaten

theorem leader?_eq_earliestBest? (factors : List (Factor α)) (finite : AllFinite factors) :
    leader? factors = earliestBest? factors := by
  by_cases some : factors = []
  · rw [some]
    rfl
  · obtain ⟨leader, found, leads⟩ := exists_leader factors finite some
    rw [found, leads.earliestBest?_eq finite]

theorem earliestBest?_eq_none_iff (factors : List (Factor α)) (finite : AllFinite factors) :
    earliestBest? factors = none ↔ factors = [] := by
  constructor
  · intro absent
    by_contra some
    obtain ⟨leader, found, -⟩ := exists_leader factors finite some
    rw [leader?_eq_earliestBest? factors finite, absent] at found
    cases found
  · rintro rfl
    rfl

/-! ## Taking a batch into account -/

section Batch

variable (earlier batch : List (Factor α)) (finite : AllFinite (earlier ++ batch))

include finite

theorem improvement?_cases (leader : Factor α) (leads : Leads leader batch) :
    (improvement? earlier batch = some leader ∧ ∀ other ∈ earlier, place other < place leader) ∨
      (improvement? earlier batch = none ∧ ∃ other ∈ earlier, place leader ≤ place other) := by
  obtain ⟨before, after⟩ := allFinite_append.mp finite
  have exceeds (other : Factor α) (member : other ∈ earlier) :
      Scalar.lt other.reward leader.reward = true ↔ place other < place leader :=
    Scalar.Ordered.lt_iff_of_finite (before other member) (after leader leads.mem)
  rw [improvement?, leads.earliestBest?_eq after]
  by_cases beaten : ∀ other ∈ earlier, place other < place leader
  · refine Or.inl ⟨Option.filter_eq_some_iff.mpr ⟨rfl, List.all_eq_true.mpr ?_⟩, beaten⟩
    exact fun other member => (exceeds other member).mpr (beaten other member)
  · obtain ⟨other, member, level⟩ : ∃ other ∈ earlier, ¬ place other < place leader := by
      simpa using beaten
    refine Or.inr ⟨Option.filter_eq_none_iff.mpr ?_, other, member, not_lt.mp level⟩
    rintro _ ⟨⟩ all
    exact level ((exceeds other member).mp (List.all_eq_true.mp all other member))

theorem earliestBest?_append :
    earliestBest? (earlier ++ batch) = (improvement? earlier batch).or (earliestBest? earlier) := by
  obtain ⟨before, after⟩ := allFinite_append.mp finite
  by_cases some : batch = []
  · rw [some, List.append_nil]
    rfl
  obtain ⟨leader, -, leads⟩ := exists_leader batch after some
  rcases improvement?_cases earlier batch finite leader leads with
    ⟨improves, beaten⟩ | ⟨fails, other, member, level⟩
  · rw [improves, Option.some_or, earliestBest?_eq_some_iff _ finite]
    exact leads.append_taken beaten
  · obtain ⟨champion, -, rules⟩ := exists_leader earlier before (List.ne_nil_of_mem member)
    rw [fails, Option.none_or, rules.earliestBest?_eq before, earliestBest?_eq_some_iff _ finite]
    exact rules.append_kept fun new inside =>
      (leads.le new inside).trans (level.trans (rules.le other member))

/-- A run whose best is that of the factors before keeps the improvement and announces it. -/
theorem track_eq (run : Run α periods instruments) (best : run.best = earliestBest? earlier) :
    run.track batch =
      { run with
        hall := run.hall.offerAll batch
        best := (improvement? earlier batch).or run.best
        announced := run.announced ++ (improvement? earlier batch).toList } := by
  obtain ⟨before, after⟩ := allFinite_append.mp finite
  by_cases some : batch = []
  · subst some
    simp [track, leader?, improvement?, earliestBest?]
  obtain ⟨leader, found, leads⟩ := exists_leader batch after some
  by_cases first : earlier = []
  · subst first
    have empty : run.best = none := best
    rcases improvement?_cases [] batch finite leader leads with ⟨improves, -⟩ | ⟨-, _, none, -⟩
    · simp [track, found, empty, improves]
    · cases none
  · obtain ⟨champion, -, rules⟩ := exists_leader earlier before first
    rw [rules.earliestBest?_eq before] at best
    have compared := Scalar.Ordered.le_iff_of_finite (after leader leads.mem)
      (before champion rules.mem)
    rcases improvement?_cases earlier batch finite leader leads with
      ⟨improves, beaten⟩ | ⟨fails, other, member, level⟩
    · have wins : ¬ Scalar.le leader.reward champion.reward = true := fun below =>
        absurd (compared.mp below) (not_le.mpr (beaten champion rules.mem))
      simp [track, found, best, improves, wins]
    · have loses := compared.mpr (level.trans (rules.le other member))
      simp [track, found, best, fails, loses]

end Batch

/-- A step keeps the best of all that was found, and announces the improvement of its batch. -/
theorem stepped_best (run : Run α periods instruments) (batch : List (Episode α run.shape))
    (stream : WordStream) (earlier : List (Factor α))
    (finite : AllFinite (earlier ++ run.found batch)) (best : run.best = earliestBest? earlier) :
    (run.stepped batch stream).best = earliestBest? (earlier ++ run.found batch) ∧
      (run.stepped batch stream).announced =
        run.announced ++ (improvement? earlier (run.found batch)).toList := by
  rw [stepped, learn_eq, track_eq earlier (run.found batch) finite (run.updated batch) best,
    earliestBest?_append earlier (run.found batch) finite, ← best]
  exact ⟨rfl, rfl⟩

end Run

end Training

end FactorSearch
