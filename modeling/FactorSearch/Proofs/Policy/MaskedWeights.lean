import FactorSearch.Proofs.Double.Exponential
import FactorSearch.Proofs.Exact.Softmax
import FactorSearch.Proofs.Policy.Stages

/-!
# Masked softmax on every logit

Logits may be missing or infinite.  They are refused when no allowed one is finite, or one is plus
infinity.  Otherwise the weights are a distribution over the allowed entries unless one of these is
missing: the maximum passes over it, but the sum of the powers does not, and every weight, also of
the disallowed entries, is missing.  For doubles that holds whatever function is taken for the
exponential, as long as it treats missing values, zero and the numbers below it as one does.
-/

set_option autoImplicit false

namespace FactorSearch

namespace Softmax

/-! ## What the weights depend on -/

section Dependence

variable {α : Type} [Scalar α] {n : Nat}

def allowedLogits (logits : Vec α n) (mask : Vector Bool n) : List α :=
  ((List.finRange n).filter mask.get).map logits.get

omit [Scalar α] in
theorem mem_allowedLogits (logits : Vec α n) (mask : Vector Bool n) (x : α) :
    x ∈ allowedLogits logits mask ↔ ∃ i, mask.get i = true ∧ logits.get i = x := by
  simp [allowedLogits]

theorem allowedMaximum_eq (logits : Vec α n) (mask : Vector Bool n) :
    allowedMaximum logits mask = Scalar.maximum (allowedLogits logits mask) := by
  rw [allowedMaximum, Fin.foldl_eq_foldl_finRange, Scalar.maximum, allowedLogits, List.foldl_map,
    List.foldl_filter]

/-- The exponential of the distance from the top where the mask allows it, and zero elsewhere. -/
def power (logits : Vec α n) (mask : Vector Bool n) (i : Fin n) : α :=
  if mask.get i then Scalar.exp (logits.get i - allowedMaximum logits mask) else 0

theorem masked_eq (logits : Vec α n) (mask : Vector Bool n) :
    masked logits mask = if Scalar.isFinite (allowedMaximum logits mask) then
      .ok (Vector.ofFn fun i => power logits mask i / Tensor.sum (power logits mask))
    else .error (.internal .noFiniteLogit) := by
  simp only [masked, Vec.get_ofFn]
  rfl

theorem masked_congr {logits other : Vec α n} {mask : Vector Bool n}
    (agree : ∀ i, mask.get i = true → logits.get i = other.get i) :
    masked logits mask = masked other mask := by
  have same : allowedMaximum logits mask = allowedMaximum other mask := by
    rw [allowedMaximum_eq, allowedMaximum_eq, allowedLogits, allowedLogits]
    congr 1
    exact List.map_congr_left fun i member => agree i (List.mem_filter.mp member).2
  have powers : power logits mask = power other mask := by
    funext i
    rw [power, power, same]
    split
    · rename_i inside
      rw [agree i inside]
    · rfl
  rw [masked_eq, masked_eq, same, powers]

/-- No allowed logit is finite, or one is plus infinity. -/
def Refused (logits : Vec α n) (mask : Vector Bool n) : Prop :=
  (∀ i, mask.get i = true → Scalar.isFinite (logits.get i) = false) ∨
    ∃ i, mask.get i = true ∧ Scalar.le Scalar.infinity (logits.get i) = true

/-- Some allowed logit is missing. -/
def Lacking (logits : Vec α n) (mask : Vector Bool n) : Prop :=
  ∃ i, mask.get i = true ∧ Scalar.isNaN (logits.get i) = true

theorem top_finite_iff [Scalar.Ordered α] [Scalar.Bounded α] (logits : Vec α n)
    (mask : Vector Bool n) :
    Scalar.isFinite (allowedMaximum logits mask) = true ↔ ¬ Refused logits mask := by
  rw [allowedMaximum_eq, Scalar.Bounded.isFinite_maximum_iff]
  simp only [mem_allowedLogits, Refused, not_or, not_forall, not_exists, not_and, Bool.not_eq_true,
    Bool.not_eq_false]
  constructor
  · rintro ⟨⟨_, ⟨i, inside, rfl⟩, finite⟩, bounded⟩
    exact ⟨⟨i, inside, finite⟩, fun j allowed => bounded _ ⟨j, allowed, rfl⟩⟩
  · rintro ⟨⟨i, inside, finite⟩, bounded⟩
    refine ⟨⟨_, ⟨i, inside, rfl⟩, finite⟩, ?_⟩
    rintro _ ⟨j, allowed, rfl⟩
    exact bounded j allowed

theorem masked_of_refused [Scalar.Ordered α] [Scalar.Bounded α] {logits : Vec α n}
    {mask : Vector Bool n} (refused : Refused logits mask) :
    masked logits mask = .error (.internal .noFiniteLogit) := by
  rw [masked_eq, if_neg fun finite => (top_finite_iff logits mask).mp finite refused]

theorem masked_of_not_refused [Scalar.Ordered α] [Scalar.Bounded α] {logits : Vec α n}
    {mask : Vector Bool n} (weighed : ¬ Refused logits mask) :
    masked logits mask =
      .ok (Vector.ofFn fun i => power logits mask i / Tensor.sum (power logits mask)) := by
  rw [masked_eq, if_pos ((top_finite_iff logits mask).mpr weighed)]

theorem le_top [Scalar.Ordered α] (logits : Vec α n) (mask : Vector Bool n) {i : Fin n}
    (inside : mask.get i = true) (present : Scalar.isNaN (logits.get i) = false) :
    Scalar.le (logits.get i) (allowedMaximum logits mask) = true := by
  rw [allowedMaximum_eq]
  exact Scalar.Ordered.le_maximum ((mem_allowedLogits ..).mpr ⟨i, inside, rfl⟩) present

theorem top_attained [Scalar.Ordered α] [Scalar.Bounded α] {logits : Vec α n}
    {mask : Vector Bool n} (weighed : ¬ Refused logits mask) :
    ∃ i, mask.get i = true ∧ logits.get i = allowedMaximum logits mask := by
  have finite := (top_finite_iff logits mask).mpr weighed
  rw [allowedMaximum_eq] at finite ⊢
  exact (mem_allowedLogits ..).mp (Scalar.Bounded.maximum_mem_of_finite finite)

theorem refused_congr {logits other : Vec α n} {mask : Vector Bool n}
    (finite : ∀ i, mask.get i = true →
      Scalar.isFinite (logits.get i) = Scalar.isFinite (other.get i))
    (upper : ∀ i, mask.get i = true → Scalar.le Scalar.infinity (logits.get i) =
      Scalar.le Scalar.infinity (other.get i)) :
    Refused logits mask ↔ Refused other mask :=
  or_congr (forall_congr' fun i => imp_congr_right fun inside => by rw [finite i inside])
    (exists_congr fun i => and_congr_right fun inside => by rw [upper i inside])

theorem lacking_congr {logits other : Vec α n} {mask : Vector Bool n}
    (missing : ∀ i, mask.get i = true →
      Scalar.isNaN (logits.get i) = Scalar.isNaN (other.get i)) :
    Lacking logits mask ↔ Lacking other mask :=
  exists_congr fun i => and_congr_right fun inside => by rw [missing i inside]

/-- Weights over the entries that a list allows: the others have none, and no weight is missing or
below zero. -/
structure IsDistribution (allowed : List Bool) (weights : Vec α n) : Prop where
  excluded (i : Fin n) : allowed[i.val]? ≠ some true → weights.get i = 0
  present (i : Fin n) : Scalar.isNaN (weights.get i) = false
  nonneg (i : Fin n) : Scalar.le 0 (weights.get i) = true

theorem maskOfList_get_iff (allowed : List Bool) (i : Fin n) :
    (maskOfList n allowed).get i = true ↔ allowed[i.val]? = some true := by
  rw [maskOfList_get]
  cases allowed[i.val]? with
  | none => simp
  | some entry => simp

theorem isDistribution_ofFn [Scalar.Ordered α] {allowed : List Bool} {weight : Fin n → α}
    (excluded : ∀ i, (maskOfList n allowed).get i = false → weight i = 0)
    (nonneg : ∀ i, Scalar.le 0 (weight i) = true) :
    IsDistribution allowed (Vector.ofFn weight) := by
  refine ⟨fun i outside => ?_, fun i => ?_, fun i => ?_⟩
  · rw [Vec.get_ofFn]
    refine excluded i ?_
    rw [← Bool.not_eq_true, maskOfList_get_iff]
    exact outside
  · rw [Vec.get_ofFn]
    exact ((Scalar.Ordered.le_iff ..).mp (nonneg i)).2.1
  · rw [Vec.get_ofFn]
    exact nonneg i

end Dependence

end Softmax

/-! ## Doubles with any exponential -/

namespace DoubleWith

/-- The library runs with the exponential of doubles. -/
theorem masked_float {n : Nat} (logits : Vec Float n) (mask : Vector Bool n) :
    Softmax.masked (α := Float) logits mask =
      Softmax.masked (α := DoubleWith Float.exp) logits mask := rfl

section Weights

open Softmax

variable {exp : Float → Float} {n : Nat} {logits : Vec (DoubleWith exp) n} {mask : Vector Bool n}

theorem power_bounds (exponential : Exponential exp) (weighed : ¬ Refused logits mask)
    (known : ¬ Lacking logits mask) (i : Fin n) :
    Scalar.le 0 (power logits mask i) = true ∧ Scalar.le (power logits mask i) 1 = true := by
  rw [power]
  split
  · rename_i inside
    have present : Scalar.isNaN (logits.get i) = false := by
      rw [← Bool.not_eq_true]
      exact fun missing => known ⟨i, inside, missing⟩
    exact exponential.falls _ (DoubleWith.sub_nonpos ((top_finite_iff logits mask).mpr weighed)
      (le_top logits mask inside present))
  · have zero := Scalar.Ordered.present (0 : DoubleWith exp)
      (Scalar.Ordered.small_finite 0 (by omega)).1
    exact ⟨Scalar.Ordered.le_refl zero, DoubleWith.zero_le_one⟩

theorem exists_power_one (exponential : Exponential exp) (weighed : ¬ Refused logits mask) :
    ∃ i, power logits mask i = 1 := by
  obtain ⟨i, inside, attained⟩ := top_attained weighed
  refine ⟨i, ?_⟩
  rw [power, if_pos inside, attained]
  exact exponential.zero _ (sub_self_same ((top_finite_iff logits mask).mpr weighed))

theorem total_pos (exponential : Exponential exp) (weighed : ¬ Refused logits mask)
    (known : ¬ Lacking logits mask) :
    Scalar.lt 0 (Tensor.sum (power logits mask)) = true := by
  obtain ⟨i, one⟩ := exists_power_one exponential weighed
  refine sum_pos _ (fun j => (power_bounds exponential weighed known j).1) i ?_
  rw [one]
  exact DoubleWith.zero_lt_one

theorem isDistribution (exponential : Exponential exp) (allowed : List Bool)
    (weighed : ¬ Refused logits (maskOfList n allowed))
    (known : ¬ Lacking logits (maskOfList n allowed)) :
    IsDistribution allowed (Vector.ofFn fun i => power logits (maskOfList n allowed) i /
      Tensor.sum (power logits (maskOfList n allowed))) := by
  have total := total_pos exponential weighed known
  refine isDistribution_ofFn (fun i disallowed => ?_) fun i => ?_
  · rw [power, disallowed, if_neg Bool.false_ne_true]
    exact zero_div_of_pos total
  · obtain ⟨above, below⟩ := power_bounds exponential weighed known i
    have finite := Scalar.Bounded.isFinite_of_between (Scalar.Ordered.small_finite 0 (by omega)).1
      (Scalar.Ordered.small_finite 1 (by omega)).1 above below
    exact DoubleWith.div_nonneg finite above total

theorem missing_weights (exponential : Exponential exp) (lacking : Lacking logits mask)
    (i : Fin n) :
    Scalar.isNaN (power logits mask i / Tensor.sum (power logits mask)) = true := by
  obtain ⟨j, inside, missing⟩ := lacking
  apply isNaN_div_right
  apply isNaN_sum _ j
  rw [power, if_pos inside]
  exact exponential.missing _ (isNaN_sub_left missing _)

end Weights

end DoubleWith

/-! ## Exact arithmetic -/

namespace Extended

open Softmax

variable {n : Nat} {logits : Vec Extended n} {mask : Vector Bool n}

noncomputable def admitted (logits : Vec Extended n) (mask : Vector Bool n) (i : Fin n) : Bool :=
  mask.get i && Scalar.isFinite (logits.get i)

theorem exists_admitted (weighed : ¬ Refused logits mask) : ∃ i, admitted logits mask i = true := by
  obtain ⟨i, inside, largest⟩ := top_attained weighed
  refine ⟨i, ?_⟩
  rw [admitted, inside, largest, (top_finite_iff logits mask).mpr weighed]
  rfl

theorem power_eq {top : ℝ} (attained : allowedMaximum logits mask = finite top)
    (weighed : ¬ Refused logits mask) (known : ¬ Lacking logits mask) (i : Fin n) :
    power logits mask i = finite
      (if admitted logits mask i then Real.exp ((logits.get i).toReal - top) else 0) := by
  rw [power, attained, admitted]
  cases inside : mask.get i with
  | false => simp
  | true =>
    cases kind : logits.get i with
    | finite x =>
      rw [if_pos rfl, sub_finite]
      rfl
    | infinite s =>
      cases s with
      | true => rfl
      | false =>
        exact absurd (Or.inr ⟨i, inside, (le_infinity_iff _).mpr kind⟩) weighed
    | missing => exact absurd ⟨i, inside, by rw [kind]; rfl⟩ known

theorem masked_eq_share (weighed : ¬ Refused logits mask) (known : ¬ Lacking logits mask) :
    masked logits mask = .ok (Vector.ofFn fun i =>
      finite (share (admitted logits mask) (fun j => (logits.get j).toReal) i)) := by
  obtain ⟨top, attained⟩ := exists_real ((top_finite_iff logits mask).mpr weighed)
  obtain ⟨i, admits⟩ := exists_admitted weighed
  have powers := funext (power_eq attained weighed known)
  have positive :=
    partition_pos (admitted logits mask) (fun j => (logits.get j).toReal - top) i admits
  rw [masked_of_not_refused weighed, powers, sum_finite]
  congr 2
  funext j
  rw [← share_shift (admitted logits mask) (fun j => (logits.get j).toReal) top]
  exact div_finite _ positive.ne'

theorem masked_of_lacking (weighed : ¬ Refused logits mask) (lacking : Lacking logits mask) :
    masked logits mask = .ok (Vector.ofFn fun _ => missing) := by
  obtain ⟨i, inside, unknown⟩ := lacking
  have gone : power logits mask i = missing := by
    rw [power, if_pos inside]
    cases kind : logits.get i with
    | missing => rfl
    | finite | infinite =>
      rw [kind] at unknown
      cases unknown
  rw [masked_of_not_refused weighed, sum_missing _ i gone]
  congr 2
  funext j
  exact div_missing _

theorem isDistribution_share (allowed : List Bool) (z : Fin n → ℝ) :
    IsDistribution allowed (Vector.ofFn fun i =>
      finite (share (admitted logits (maskOfList n allowed)) z i)) := by
  refine isDistribution_ofFn (fun i disallowed => ?_) fun i => ?_
  · have out : admitted logits (maskOfList n allowed) i = false := by
      rw [admitted, disallowed, Bool.false_and]
    rw [share_of_not _ _ _ out, zero_eq]
  · rw [zero_eq, le_finite, decide_eq_true_iff]
    exact share_nonneg ..

theorem sum_weights (weighed : ¬ Refused logits mask) (z : Fin n → ℝ) :
    Tensor.sum (fun i => finite (share (admitted logits mask) z i)) = 1 := by
  obtain ⟨i, admits⟩ := exists_admitted weighed
  rw [sum_finite, sum_share _ _ i admits, one_eq]

section Shift

variable {moved : Vec Extended n} {c : ℝ}
  (shifted : ∀ i, mask.get i = true → moved.get i = logits.get i + finite c)

include shifted

theorem refused_shift : Refused moved mask ↔ Refused logits mask :=
  refused_congr (fun i inside => by rw [shifted i inside, isFinite_add_finite])
    fun i inside => by rw [shifted i inside, le_infinity_add_finite]

theorem lacking_shift : Lacking moved mask ↔ Lacking logits mask :=
  lacking_congr fun i inside => by rw [shifted i inside, isNaN_add_finite]

theorem admitted_shift : admitted moved mask = admitted logits mask := by
  funext i
  rw [admitted, admitted]
  cases inside : mask.get i with
  | false => rfl
  | true => rw [shifted i inside, isFinite_add_finite]

theorem toReal_shift (i : Fin n) (admits : admitted logits mask i = true) :
    (moved.get i).toReal = (logits.get i).toReal - -c := by
  rw [admitted, Bool.and_eq_true] at admits
  obtain ⟨x, known⟩ := exists_real admits.2
  rw [shifted i admits.1, known, sub_neg_eq_add]
  rfl

/-- Allowed logits that move by one number keep their weights. -/
theorem masked_shift : masked moved mask = masked logits mask := by
  have refusals := refused_shift shifted
  have gaps := lacking_shift shifted
  by_cases refused : Refused logits mask
  · rw [masked_of_refused refused, masked_of_refused (refusals.mpr refused)]
  by_cases lacking : Lacking logits mask
  · rw [masked_of_lacking refused lacking,
      masked_of_lacking (mt refusals.mp refused) (gaps.mpr lacking)]
  rw [masked_eq_share refused lacking,
    masked_eq_share (mt refusals.mp refused) (mt gaps.mp lacking), admitted_shift shifted,
    share_congr (toReal_shift shifted)]
  congr 2
  funext i
  rw [share_shift]

end Shift

end Extended

/-! ## A policy without logits -/

/-- A bias of missing values leaves no logit that is finite. -/
theorem Policy.forward_of_missing_bias {s : Policy.Shape} (p : Policy.Parameters Float s)
    (blind : ∀ a, Scalar.isNaN (p.outputBias.get a) = true) (actions : List Nat) (depth : Nat)
    (allowed : List Bool) (length : actions.length ≤ s.maxLength)
    (shallow : depth ≤ s.maxLength + 1) (entries : allowed.length = s.actions) :
    Policy.forward p actions depth allowed = .error (.internal .noFiniteLogit) := by
  have refused (x : Vec Float s.actions) :
      Softmax.masked (Tensor.add x p.outputBias) (Softmax.maskOfList s.actions allowed) =
        .error (.internal .noFiniteLogit) := by
    refine Softmax.masked_of_refused (Or.inl fun a _ => ?_)
    have missing : Double.Missing ((Tensor.add x p.outputBias).get a) := by
      rw [Tensor.add, Vec.get_ofFn]
      exact Double.Missing.add_right ((Double.isNaN_iff _).mp (blind a)) _
    exact Double.Beyond.not_finite (Or.inl missing : Double.Beyond .positive _)
  rw [Policy.forward_in_range p actions depth allowed length shallow entries, Policy.logitsOf,
    refused]
  rfl

/-! ## What masked softmax answers -/

namespace Softmax

/-- The answers of masked softmax: a refusal, a distribution, or weights that are all missing. -/
inductive Weighs {α : Type} [Scalar α] {n : Nat} (allowed : List Bool) (logits : Vec α n) :
    Result (Vec α n) → Prop where
  | refused : Refused logits (maskOfList n allowed) →
      Weighs allowed logits (.error (.internal .noFiniteLogit))
  | distribution (weights : Vec α n) : ¬ Refused logits (maskOfList n allowed) →
      ¬ Lacking logits (maskOfList n allowed) → IsDistribution allowed weights →
        Weighs allowed logits (.ok weights)
  | lacking (weights : Vec α n) : ¬ Refused logits (maskOfList n allowed) →
      Lacking logits (maskOfList n allowed) → (∀ i, Scalar.isNaN (weights.get i) = true) →
        Weighs allowed logits (.ok weights)

theorem weighs_doubles {exp : Float → Float} (exponential : DoubleWith.Exponential exp) {n : Nat}
    (allowed : List Bool) (logits : Vec (DoubleWith exp) n) :
    Weighs allowed logits (masked logits (maskOfList n allowed)) := by
  by_cases refused : Refused logits (maskOfList n allowed)
  · rw [masked_of_refused refused]
    exact .refused refused
  rw [masked_of_not_refused refused]
  by_cases lacking : Lacking logits (maskOfList n allowed)
  · refine .lacking _ refused lacking fun i => ?_
    rw [Vec.get_ofFn]
    exact DoubleWith.missing_weights exponential lacking i
  · exact .distribution _ refused lacking
      (DoubleWith.isDistribution exponential allowed refused lacking)

theorem weighs_extended {n : Nat} (allowed : List Bool) (logits : Vec Extended n) :
    Weighs allowed logits (masked logits (maskOfList n allowed)) := by
  by_cases refused : Refused logits (maskOfList n allowed)
  · rw [masked_of_refused refused]
    exact .refused refused
  by_cases lacking : Lacking logits (maskOfList n allowed)
  · rw [Extended.masked_of_lacking refused lacking]
    refine .lacking _ refused lacking fun i => ?_
    rw [Vec.get_ofFn]
    rfl
  · rw [Extended.masked_eq_share refused lacking]
    exact .distribution _ refused lacking (Extended.isDistribution_share allowed _)

/-- Masked softmax of doubles refuses the logits when no allowed one is finite or one is plus
infinity.  Otherwise its weights are a distribution over the allowed entries exactly when no allowed
logit is missing; if one is, no weight is left.  It is the same in exact arithmetic, where the
weights of a distribution add up to one and do not change when all allowed logits move by one
number.  The disallowed logits have no part in any of it. -/
theorem masked_distribution {exp : Float → Float} (exponential : DoubleWith.Exponential exp)
    {n : Nat} (allowed : List Bool) :
    (∀ logits : Vec (DoubleWith exp) n,
      Weighs allowed logits (masked logits (maskOfList n allowed)) ∧
        ∀ other : Vec (DoubleWith exp) n,
          (∀ i : Fin n, allowed[i.val]? = some true → other.get i = logits.get i) →
            masked other (maskOfList n allowed) = masked logits (maskOfList n allowed)) ∧
      ∀ logits : Vec Extended n,
        Weighs allowed logits (masked logits (maskOfList n allowed)) ∧
          (∀ weights, masked logits (maskOfList n allowed) = .ok weights →
            ¬ Lacking logits (maskOfList n allowed) → Tensor.sum weights.get = 1) ∧
          ∀ (c : ℝ) (moved : Vec Extended n),
            (∀ i : Fin n, allowed[i.val]? = some true →
              moved.get i = logits.get i + Extended.finite c) →
              masked moved (maskOfList n allowed) = masked logits (maskOfList n allowed) := by
  refine ⟨fun logits => ⟨weighs_doubles exponential allowed logits, fun other agree => ?_⟩,
    fun logits => ⟨weighs_extended allowed logits, fun weights weighed known => ?_,
      fun c moved shifted => ?_⟩⟩
  · exact masked_congr fun i inside => agree i ((maskOfList_get_iff allowed i).mp inside)
  · by_cases refused : Refused logits (maskOfList n allowed)
    · rw [masked_of_refused refused] at weighed
      cases weighed
    · rw [Extended.masked_eq_share refused known] at weighed
      cases weighed
      exact (congrArg Tensor.sum (funext (Vec.get_ofFn _))).trans (Extended.sum_weights refused _)
  · exact Extended.masked_shift fun i inside =>
      shifted i ((maskOfList_get_iff allowed i).mp inside)

/-- A finite logit and minus infinity, with a missing one beyond the mask. -/
theorem cutoff_weights :
    DoubleWith.Exponential DoubleWith.cutoff ∧ ∃ weights,
      masked (α := DoubleWith DoubleWith.cutoff) #v[0, -Scalar.infinity, Scalar.nan]
        (maskOfList 3 [true, true]) = .ok weights ∧ IsDistribution [true, true] weights := by
  have answer := ((masked_distribution DoubleWith.cutoff_exponential [true, true]).1
    #v[0, -Scalar.infinity, Scalar.nan]).1
  refine ⟨DoubleWith.cutoff_exponential, ?_⟩
  generalize masked (α := DoubleWith DoubleWith.cutoff) _ _ = answered at answer ⊢
  cases answer with
  | refused refused => exact absurd refused (by unfold Refused; decide +kernel)
  | distribution weights _ _ distributed => exact ⟨weights, rfl, distributed⟩
  | lacking _ _ lacking _ => exact absurd lacking (by unfold Lacking; decide +kernel)

/-- A missing logit beside a finite one is not refused, and leaves no weight, not even the zero of
the entry that is not allowed. -/
theorem missing_logit_spreads : ∃ weights,
    masked (α := DoubleWith DoubleWith.cutoff) #v[Scalar.nan, 0, 0]
      (maskOfList 3 [true, true, false]) = .ok weights ∧
        (∀ i, Scalar.isNaN (weights.get i) = true) ∧
          ¬ IsDistribution [true, true, false] weights := by
  have answer := weighs_doubles DoubleWith.cutoff_exponential [true, true, false]
    #v[Scalar.nan, 0, 0]
  generalize masked (α := DoubleWith DoubleWith.cutoff) _ _ = answered at answer ⊢
  cases answer with
  | refused refused => exact absurd refused (by unfold Refused; decide +kernel)
  | distribution _ _ known _ => exact absurd (by unfold Lacking; decide +kernel) known
  | lacking weights _ _ missing =>
    refine ⟨weights, rfl, missing, fun distributed => ?_⟩
    have present := distributed.present 2
    rw [missing 2] at present
    cases present

end Softmax

end FactorSearch
