import FactorSearch.Proofs.Double.UnitQuotients
import FactorSearch.Proofs.Evaluation.Periods
import FactorSearch.Proofs.Exact.Images
import FactorSearch.Proofs.Statistics.RankOrder
import FactorSearch.Proofs.Statistics.Symmetry

/-!
# Cross-sectional ranks by counting

The rank of a cell follows from three counts of its row: the finite cells, those below it and those
level with it.  So ranks lie between zero and one, and keep the order of the cells, which is all
that they depend on.
-/

set_option autoImplicit false

namespace FactorSearch

namespace Kernel

section Counts

variable {α : Type} [Scalar α]

def countFinite (row : List α) : Nat := row.countP Scalar.isFinite

/-- The number of finite cells below a value. -/
def countBelow (row : List α) (v : α) : Nat :=
  row.countP fun w => Scalar.isFinite w && Scalar.lt w v

def countLevel (row : List α) (v : α) : Nat :=
  row.countP fun w => Scalar.isFinite w && Scalar.same w v

theorem length_finiteCells (row : List α) : (finiteCells row).length = countFinite row :=
  List.countP_eq_length_filter.symm

theorem doubledRank_finiteCells (row : List α) (v : α) :
    Statistics.doubledRank (finiteCells row) v = 2 * countBelow row v + countLevel row v + 1 := by
  simp only [Statistics.doubledRank, finiteCells, List.countP_filter, countBelow, countLevel,
    Bool.and_comm]

theorem finiteCells_map {f : α → α} {row : List α}
    (keeps : ∀ v ∈ row, Scalar.isFinite (f v) = Scalar.isFinite v) :
    finiteCells (row.map f) = (finiteCells row).map f := by
  rw [finiteCells, finiteCells, List.filter_map]
  congr 1
  exact List.filter_congr keeps

variable [Scalar.Ordered α]

theorem isNaN_of_mem_finiteCells {row : List α} :
    ∀ v ∈ finiteCells row, Scalar.isNaN v = false := fun v member =>
  Scalar.Ordered.present v (List.mem_filter.mp member).2

/-- Ranks do not see a map of the finite cells that keeps their order. -/
theorem rankRow_map {f : α → α} {row : List α}
    (keeps : ∀ v ∈ row, Scalar.isFinite (f v) = Scalar.isFinite v)
    (increasing : Statistics.Increasing f (finiteCells row)) :
    rankRow (row.map f) = rankRow row := by
  rw [rankRow_eq, rankRow_eq, List.map_map, finiteCells_map keeps]
  refine List.map_congr_left fun v member => ?_
  rw [Function.comp_apply, rankCell, rankCell, keeps v member, List.length_map]
  split
  · rename_i known
    have inside : v ∈ finiteCells row := List.mem_filter.mpr ⟨member, known⟩
    rw [Statistics.rankAmong_zero, Statistics.rankAmong_zero,
      increasing.doubledRank_map isNaN_of_mem_finiteCells inside]
  · rfl

theorem isNaN_rankCell_iff {cells : List α} {v : α} (missing : Scalar.isNaN (Scalar.nan : α) = true)
    (kept : Scalar.isFinite v = true → Scalar.isFinite (rankCell cells v) = true) :
    Scalar.isNaN (rankCell cells v) = true ↔ Scalar.isFinite v = false := by
  cases known : Scalar.isFinite v with
  | true => simp [Scalar.Ordered.present _ (kept known)]
  | false => simp [rankCell, known, missing]

variable {periods instruments : Nat}

theorem row_rank (x : Panel α periods instruments) (t : Fin periods) :
    (rank x).row t = rankRow (x.row t) :=
  Panel.row_mapRows _ (fun row => by rw [rankRow_eq, List.length_map]) x t

theorem cell_rank (x : Panel α periods instruments) (t : Fin periods) (i : Fin instruments) :
    (rank x).cell t i = rankCell (finiteCells (x.row t)) (x.cell t i) :=
  Panel.cell_mapRows_cellwise _ rankRow_eq x t i

end Counts

/-! ## Exact ranks -/

open Extended

variable {row : List Extended} {v : Extended}

theorem rankCell_finite (member : v ∈ finiteCells row) :
    rankCell (finiteCells row) v =
      finite (Statistics.doubledRank (finiteCells row) v / 2 / countFinite row) := by
  have some : ((countFinite row : ℕ) : ℝ) ≠ 0 := by
    rw [← length_finiteCells]
    exact_mod_cast (List.length_pos_of_mem member).ne'
  rw [rankCell, if_pos (List.mem_filter.mp member).2, Statistics.rankAmong_exact, ofNat_eq,
    length_finiteCells, div_finite _ some]

theorem rankCell_bounds (member : v ∈ finiteCells row) :
    (0 : ℝ) < Statistics.doubledRank (finiteCells row) v / 2 / countFinite row ∧
      (Statistics.doubledRank (finiteCells row) v : ℝ) / 2 / countFinite row ≤ 1 := by
  have count : (0 : ℝ) < countFinite row := by
    rw [← length_finiteCells]
    exact_mod_cast List.length_pos_of_mem member
  have least := Statistics.two_le_doubledRank isNaN_of_mem_finiteCells member
  have atMost : (Statistics.doubledRank (finiteCells row) v : ℝ) ≤ 2 * countFinite row := by
    rw [← length_finiteCells]
    exact_mod_cast Statistics.doubledRank_le isNaN_of_mem_finiteCells member
  have positive : (0 : ℝ) < Statistics.doubledRank (finiteCells row) v := by
    exact_mod_cast (by omega : 0 < Statistics.doubledRank (finiteCells row) v)
  refine ⟨by positivity, ?_⟩
  rw [div_div, div_le_one (by positivity)]
  exact atMost

theorem isFinite_rankCell (member : v ∈ row) :
    Scalar.isFinite (rankCell (finiteCells row) v) = Scalar.isFinite v := by
  cases known : Scalar.isFinite v with
  | true => rw [rankCell_finite (List.mem_filter.mpr ⟨member, known⟩), isFinite_finite]
  | false => rw [rankCell, known]; rfl

theorem increasing_rankCell (row : List Extended) :
    Statistics.Increasing (rankCell (finiteCells row)) (finiteCells row) where
  lt u left v right below := by
    have count : (0 : ℝ) < countFinite row := by
      rw [← length_finiteCells]
      exact_mod_cast List.length_pos_of_mem left
    have order := Statistics.doubledRank_lt isNaN_of_mem_finiteCells left below
    rw [rankCell_finite left, rankCell_finite right, lt_finite, decide_eq_true_iff]
    gcongr
  same u left v right level := by
    rw [rankCell_finite left, rankCell_finite right, Statistics.doubledRank_congr level,
      same_finite, decide_eq_true_iff]

theorem rankRow_rankRow (row : List Extended) : rankRow (rankRow row) = rankRow row := by
  rw [rankRow_eq row, rankRow_map (fun v member => isFinite_rankCell member)
    (increasing_rankCell row), rankRow_eq]

theorem rank_transform {periods instruments : Nat} (g : Fin periods → ℝ → ℝ)
    (x : Panel Extended periods instruments) (t : Fin periods)
    (rises : StrictMonoOn (g t) {v | ∃ i, x.cell t i = finite v}) :
    (rank (x.transform g)).row t = (rank x).row t := by
  have row : (x.transform g).row t = (x.row t).map (mapReal (g t)) := by
    rw [Panel.row_eq, Panel.row_eq, List.map_ofFn]
    congr 1
    funext i
    exact Panel.cell_ofFn ..
  have members : {r | finite r ∈ finiteCells (x.row t)} ⊆ {v | ∃ i, x.cell t i = finite v} := by
    intro r member
    exact x.exists_cell t _ (List.mem_filter.mp member).1
  rw [row_rank, row_rank, row]
  exact rankRow_map (fun v _ => isFinite_mapReal (g t) v)
    (increasing_mapReal (fun v member => (List.mem_filter.mp member).2) (rises.mono members))

/-! ## Ranks of doubles -/

section Doubles

open Double

variable {row : List Float} {v : Float}

/-- The rank of a double is one rounding away from the quotient of its counts. -/
theorem rankCell_double (few : row.length < 2 ^ 52) (member : v ∈ finiteCells row) :
    ∃ place count : Float,
      value place = countBelow row v + (countLevel row v + 1) / 2 ∧
      value count = countFinite row ∧ rankCell (finiteCells row) v = place / count ∧
      Scalar.isFinite (place / count) = true ∧ Scalar.lt 0 (place / count) = true ∧
      Scalar.le (place / count) 1 = true := by
  have least := Statistics.two_le_doubledRank isNaN_of_mem_finiteCells member
  have most := Statistics.doubledRank_le isNaN_of_mem_finiteCells member
  have shorter : (finiteCells row).length ≤ row.length := List.length_filter_le _ _
  have positive := List.length_pos_of_mem member
  obtain ⟨-, half⟩ := half_exact (Statistics.doubledRank (finiteCells row) v) (by omega) (by omega)
  have counted := value_ofNat (finiteCells row).length positive (by omega)
  have atLeast : (2 : ℚ) ≤ Statistics.doubledRank (finiteCells row) v := Nat.ofNat_le_cast.mpr least
  have atMost :
      (Statistics.doubledRank (finiteCells row) v : ℚ) ≤ 2 * (finiteCells row).length := by
    exact_mod_cast most
  refine ⟨Scalar.ofNat (Statistics.doubledRank (finiteCells row) v) / Scalar.ofNat 2,
    Scalar.ofNat (finiteCells row).length, ?_, ?_, ?_, ?_⟩
  · rw [half, doubledRank_finiteCells]
    push_cast
    ring
  · rw [counted, length_finiteCells]
  · rw [rankCell, if_pos (List.mem_filter.mp member).2, Statistics.rankAmong_zero]
    rfl
  · apply div_unit
    · rw [half]
      linarith
    · rw [half, counted]
      linarith
    · rw [counted]
      exact_mod_cast (by omega : (finiteCells row).length ≤ 2 ^ 53)

end Doubles

/-! ## Panels -/

variable {periods instruments : Nat}

theorem cell_mem_finiteCells {α : Type} [Scalar α] {x : Panel α periods instruments}
    {t : Fin periods} {i : Fin instruments} (known : Scalar.isFinite (x.cell t i) = true) :
    x.cell t i ∈ finiteCells (x.row t) :=
  List.mem_filter.mpr ⟨Panel.cell_mem_row x t i, known⟩

theorem cell_rank_finite {x : Panel Extended periods instruments} {t : Fin periods}
    {i : Fin instruments} (known : Scalar.isFinite (x.cell t i) = true) :
    ∃ r : ℝ, (rank x).cell t i = finite r ∧
      r = (countBelow (x.row t) (x.cell t i) + (countLevel (x.row t) (x.cell t i) + 1) / 2) /
        countFinite (x.row t) ∧
      0 < r ∧ r ≤ 1 := by
  have member := cell_mem_finiteCells known
  obtain ⟨positive, atMost⟩ := rankCell_bounds member
  refine ⟨_, (cell_rank x t i).trans (rankCell_finite member), ?_, positive, atMost⟩
  rw [doubledRank_finiteCells]
  push_cast
  ring

theorem cell_rank_double (few : instruments < 2 ^ 52) {x : Panel Float periods instruments}
    {t : Fin periods} {i : Fin instruments} (known : Scalar.isFinite (x.cell t i) = true) :
    ∃ place count : Float,
      Double.value place =
        countBelow (x.row t) (x.cell t i) + (countLevel (x.row t) (x.cell t i) + 1) / 2 ∧
      Double.value count = countFinite (x.row t) ∧ (rank x).cell t i = place / count ∧
      Scalar.isFinite ((rank x).cell t i) = true ∧ Scalar.lt 0 ((rank x).cell t i) = true ∧
      Scalar.le ((rank x).cell t i) 1 = true := by
  have width : (x.row t).length < 2 ^ 52 := by
    rwa [Panel.row_eq, List.length_ofFn]
  obtain ⟨place, count, placed, counted, divided, finite, positive, atMost⟩ :=
    rankCell_double width (cell_mem_finiteCells known)
  rw [cell_rank, divided]
  exact ⟨place, count, placed, counted, rfl, finite, positive, atMost⟩

/-- Ranks count.  In exact arithmetic the rank of a cell is missing just where the cell is not
finite; else it is the number of finite cells below it, and half of one more than the number of
those level with it, as a fraction of the number of finite cells, which is above zero and at most
one.  A strictly increasing function of the finite cells of a period changes no rank in it, and
ranks are their own ranks.  On doubles the same holds, but for the rounding of the fraction, which
may make two ranks of a wide row equal. -/
theorem rank_counts :
    (∀ x : Panel Extended periods instruments,
      (∀ t i,
        (Scalar.isNaN ((rank x).cell t i) = true ↔ Scalar.isFinite (x.cell t i) = false) ∧
        (Scalar.isFinite (x.cell t i) = true →
          ∃ r : ℝ, (rank x).cell t i = finite r ∧
            r = (countBelow (x.row t) (x.cell t i) +
              (countLevel (x.row t) (x.cell t i) + 1) / 2) / countFinite (x.row t) ∧
            0 < r ∧ r ≤ 1)) ∧
      (∀ (g : Fin periods → ℝ → ℝ) t, StrictMonoOn (g t) {v | ∃ i, x.cell t i = finite v} →
        (rank (x.transform g)).row t = (rank x).row t) ∧
      rank (rank x) = rank x) ∧
    (instruments < 2 ^ 52 → ∀ (x : Panel Float periods instruments) t,
      (∀ i,
        (Scalar.isNaN ((rank x).cell t i) = true ↔ Scalar.isFinite (x.cell t i) = false) ∧
        (Scalar.isFinite (x.cell t i) = true →
          ∃ place count : Float,
            Double.value place = countBelow (x.row t) (x.cell t i) +
              (countLevel (x.row t) (x.cell t i) + 1) / 2 ∧
            Double.value count = countFinite (x.row t) ∧ (rank x).cell t i = place / count ∧
            Scalar.lt 0 ((rank x).cell t i) = true ∧ Scalar.le ((rank x).cell t i) 1 = true)) ∧
      ∀ (f : Float → Float) (y : Panel Float periods instruments), y.row t = (x.row t).map f →
        (∀ v ∈ x.row t, Scalar.isFinite (f v) = Scalar.isFinite v) →
        Statistics.Increasing f (finiteCells (x.row t)) → (rank y).row t = (rank x).row t) := by
  constructor
  · intro x
    refine ⟨fun t i => ⟨?_, cell_rank_finite⟩, fun g t => rank_transform g x t, ?_⟩
    · rw [cell_rank]
      refine isNaN_rankCell_iff rfl fun known => ?_
      rw [rankCell_finite (cell_mem_finiteCells known), isFinite_finite]
    · refine Panel.ext_row fun t => ?_
      rw [row_rank, row_rank, rankRow_rankRow]
  · intro few x t
    refine ⟨fun i => ⟨?_, fun known => ?_⟩, fun f y mapped keeps increasing => ?_⟩
    · rw [cell_rank]
      refine isNaN_rankCell_iff rfl fun known => ?_
      obtain ⟨_, _, _, _, _, finite, _⟩ := cell_rank_double few known
      rwa [cell_rank] at finite
    · obtain ⟨place, count, placed, counted, divided, _, positive, atMost⟩ :=
        cell_rank_double few known
      exact ⟨place, count, placed, counted, divided, positive, atMost⟩
    · rw [row_rank, row_rank, mapped]
      exact rankRow_map keeps increasing

noncomputable def tied : Panel Extended 1 4 :=
  ⟨#v[#v[finite 3, missing, finite 1, finite 3]]⟩

def tiedDoubles : Panel Float 1 4 := ⟨#v[#v[3, Scalar.nan, 1, 3]]⟩

/-- The two largest of three cells share the second and the third place, so their rank is the mean
of two and three over three; cubes and doubled cells rank alike. -/
theorem ties_ranked :
    (rank tied).cell 0 0 = finite (5 / 6) ∧ Scalar.isNaN ((rank tied).cell 0 1) = true ∧
    (rank (tied.transform fun _ v => v ^ 3)).row 0 = (rank tied).row 0 ∧
    Scalar.le ((rank tiedDoubles).cell 0 0) 1 = true ∧
    (rank (tiedDoubles.map fun v => v + v)).row 0 = (rank tiedDoubles).row 0 := by
  obtain ⟨exact, doubles⟩ := @rank_counts 1 4
  obtain ⟨cells, mapped, -⟩ := exact tied
  obtain ⟨doubleCells, doubleMapped⟩ := doubles (by norm_num) tiedDoubles 0
  have cubes : StrictMonoOn (fun v : ℝ => v ^ 3) {v | ∃ i, tied.cell 0 i = finite v} :=
    (Odd.strictMono_pow (by decide)).strictMonoOn _
  refine ⟨?_, ?_, mapped (fun _ v => v ^ 3) 0 cubes, ?_, ?_⟩
  · obtain ⟨r, ranked, counted, -⟩ := (cells 0 0).2 rfl
    have row : tied.row 0 = [finite 3, missing, finite 1, finite 3] := rfl
    have cell : tied.cell 0 0 = finite 3 := rfl
    have none : Scalar.isFinite missing = false := rfl
    rw [ranked, counted, row, cell]
    norm_num [countBelow, countLevel, countFinite, List.countP_cons, none]
  · exact (cells 0 1).1.mpr rfl
  · obtain ⟨place, count, -, -, -, -, atMost⟩ := (doubleCells 0).2 (by decide +kernel)
    exact atMost
  · refine doubleMapped (fun v => v + v) _ ?_ ?_ ⟨?_, ?_⟩
    · exact Panel.row_map ..
    · decide +kernel
    · decide +kernel
    · decide +kernel

end Kernel

end FactorSearch
