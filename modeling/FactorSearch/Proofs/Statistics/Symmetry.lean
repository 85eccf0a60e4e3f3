import FactorSearch.Kernel.CrossSection
import FactorSearch.Proofs.Statistics.CountingRank
import FactorSearch.Statistics.Correlation

/-!
# Statistics of unordered values

Where sums do not depend on the order of their terms, the moments of values and the correlations of
pairs do not depend on the order of the values and pairs, and the cross-sectional kernels send a
cell to a value that follows from the cell and from its row without its order.
-/

set_option autoImplicit false

namespace FactorSearch

variable {α : Type} [Scalar α]

/-! ## Moments -/

section Moments

variable [RightCommutative fun sum value : α => sum + value] {values others : List α}

theorem Scalar.total_perm (order : values.Perm others) :
    Scalar.total values = Scalar.total others :=
  order.foldl_eq 0

namespace Statistics

theorem mean_perm (order : values.Perm others) : mean values = mean others := by
  rw [mean, mean, order.isEmpty_eq, Scalar.total_perm order, order.length_eq]

theorem deviation_perm (order : values.Perm others) : deviation values = deviation others := by
  rw [deviation, deviation, order.isEmpty_eq, mean_perm order, order.length_eq]
  dsimp only
  rw [Scalar.total_perm (order.map _)]

/-! ## Correlation -/

variable {pairs swapped : List (α × α)}

theorem pearson_perm (order : pairs.Perm swapped) :
    pearson (pairs.map Prod.fst) (pairs.map Prod.snd) =
      pearson (swapped.map Prod.fst) (swapped.map Prod.snd) := by
  have zipped (pairs : List (α × α)) : (pairs.map Prod.fst).zip (pairs.map Prod.snd) = pairs := by
    rw [List.zip_map', List.map_id']
  rw [pearson, pearson, zipped, zipped]
  simp only [order.length_eq, Scalar.total_perm (order.map _)]

variable [Scalar.Ordered α]

def Known (pairs : List (α × α)) : Prop :=
  ∀ p ∈ pairs, Scalar.isNaN p.1 = false ∧ Scalar.isNaN p.2 = false

omit [RightCommutative fun sum value : α => sum + value] in
theorem spearman_eq (known : Known pairs) :
    spearman (pairs.map Prod.fst) (pairs.map Prod.snd) =
      pearson
        ((pairs.map fun p => (rankAmong 0 (pairs.map Prod.fst) p.1,
          rankAmong 0 (pairs.map Prod.snd) p.2)).map Prod.fst)
        ((pairs.map fun p => (rankAmong 0 (pairs.map Prod.fst) p.1,
          rankAmong 0 (pairs.map Prod.snd) p.2)).map Prod.snd) := by
  have first : ∀ v ∈ pairs.map Prod.fst, Scalar.isNaN v = false :=
    List.forall_mem_map.mpr fun p member => (known p member).1
  have second : ∀ v ∈ pairs.map Prod.snd, Scalar.isNaN v = false :=
    List.forall_mem_map.mpr fun p member => (known p member).2
  rw [spearman, averageRanks_eq first, averageRanks_eq second]
  simp only [List.map_map]
  rfl

theorem spearman_perm (known : Known pairs) (order : pairs.Perm swapped) :
    spearman (pairs.map Prod.fst) (pairs.map Prod.snd) =
      spearman (swapped.map Prod.fst) (swapped.map Prod.snd) := by
  have known' : Known swapped := fun p member => known p (order.mem_iff.mpr member)
  rw [spearman_eq known, spearman_eq known', rankAmong_perm (order.map Prod.fst),
    rankAmong_perm (order.map Prod.snd)]
  exact pearson_perm (order.map _)

theorem rowCorrelation_perm (ranked : Bool) {factor forward factor' forward' : List α}
    (order : (factor.zip forward).Perm (factor'.zip forward')) :
    rowCorrelation ranked factor forward = rowCorrelation ranked factor' forward' := by
  have usable : (usablePairs factor forward).Perm (usablePairs factor' forward') :=
    order.filter _
  have known : Known (usablePairs factor forward) := by
    intro p member
    obtain ⟨first, second⟩ := Bool.and_eq_true_iff.mp (List.mem_filter.mp member).2
    exact ⟨Scalar.Ordered.present _ first, Scalar.Ordered.present _ second⟩
  cases ranked with
  | true => exact spearman_perm known usable
  | false => exact pearson_perm usable

end Statistics

end Moments

/-! ## Cross-sectional kernels -/

namespace Kernel

theorem spread_map (row : List α) (value : α → α) :
    spread row ((finiteCells row).map value) =
      row.map fun v => if Scalar.isFinite v then value v else Scalar.nan := by
  induction row with
  | nil => rfl
  | cons first rest ih =>
    cases known : Scalar.isFinite first with
    | true =>
      have cells : finiteCells (first :: rest) = first :: finiteCells rest :=
        List.filter_cons_of_pos known
      rw [spread, if_pos known, cells, List.map_cons, List.headD_cons, List.tail_cons, ih,
        List.map_cons, if_pos known]
    | false =>
      have cells : finiteCells (first :: rest) = finiteCells rest :=
        List.filter_cons_of_neg (by simp [known])
      rw [spread, if_neg (by simp [known]), cells, ih, List.map_cons, if_neg (by simp [known])]

def rankCell (finite : List α) (v : α) : α :=
  if Scalar.isFinite v then Statistics.rankAmong 0 finite v / Scalar.ofNat finite.length
  else Scalar.nan

theorem rankRow_eq [Scalar.Ordered α] (row : List α) :
    rankRow row = row.map (rankCell (finiteCells row)) := by
  have known : ∀ v ∈ finiteCells row, Scalar.isNaN v = false := fun v member =>
    Scalar.Ordered.present v (List.mem_filter.mp member).2
  rw [rankRow, Statistics.averageRanks_eq known, List.map_map, spread_map]
  rfl

theorem rankCell_perm {finite others : List α} (order : finite.Perm others) :
    rankCell finite = rankCell others := by
  funext v
  rw [rankCell, rankCell, Statistics.rankAmong_perm order, order.length_eq]

def zScoreCell (finite : List α) (v : α) : α :=
  if Scalar.isFinite v then
    if Scalar.lt 0 (Statistics.deviation finite) then
      (v - Statistics.mean finite) / Statistics.deviation finite
    else 0
  else Scalar.nan

theorem zScoreRow_eq (row : List α) : zScoreRow row = row.map (zScoreCell (finiteCells row)) :=
  rfl

theorem zScoreCell_perm [RightCommutative fun sum value : α => sum + value]
    {finite others : List α} (order : finite.Perm others) :
    zScoreCell finite = zScoreCell others := by
  funext v
  rw [zScoreCell, zScoreCell, Statistics.deviation_perm order, Statistics.mean_perm order]

end Kernel

end FactorSearch
