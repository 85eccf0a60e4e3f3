import FactorSearch.Backtest
import Mathlib.Data.List.FinRange

/-!
# Backtests period by period

A backtest goes through its periods in order and carries the positions along, also through periods
that it skips.  What a period contributes thus follows from its own row, its forward returns and
the row before, so that the evaluated periods are found in each period on its own.
-/

set_option autoImplicit false

namespace FactorSearch

variable {α : Type} {periods instruments : Nat}

namespace Panel

theorem row_eq (x : Panel α periods instruments) (t : Fin periods) :
    x.row t = List.ofFn (x.cell t) := by
  apply List.ext_getElem <;> simp [row, cell]

theorem cell_mem_row (x : Panel α periods instruments) (t : Fin periods) (i : Fin instruments) :
    x.cell t i ∈ x.row t := by
  rw [row_eq]
  exact List.mem_ofFn.mpr ⟨i, rfl⟩

theorem exists_cell (x : Panel α periods instruments) (t : Fin periods) (v : α)
    (member : v ∈ x.row t) : ∃ i, x.cell t i = v := by
  rw [row_eq] at member
  exact List.mem_ofFn.mp member

theorem cell_of_row {x : Panel α periods instruments} {t : Fin periods}
    {cells : Fin instruments → α} (row : x.row t = List.ofFn cells)
    (i : Fin instruments) : x.cell t i = cells i := by
  rw [row_eq] at row
  exact congrFun (List.ofFn_injective row) i

theorem toRows_eq (x : Panel α periods instruments) :
    x.toRows = (List.finRange periods).map x.row := by
  apply List.ext_getElem <;> simp [toRows, row]

theorem row_map {β : Type} (f : α → β) (x : Panel α periods instruments) (t : Fin periods) :
    (x.map f).row t = (x.row t).map f := by
  apply List.ext_getElem <;> simp [map, ofFn, row, cell]

theorem row_mapRows {β : Type} (default : β) {f : List α → List β}
    (keeps : ∀ row, (f row).length = row.length) (x : Panel α periods instruments)
    (t : Fin periods) : (x.mapRows default f).row t = f (x.row t) := by
  apply List.ext_getElem
  · rw [keeps]
    simp [row]
  intro i inside inside'
  simp only [mapRows, row, Fin.getElem_fin, Vector.getElem_map, Vector.getElem_toList,
    Vector.getElem_ofFn, List.getElem?_toArray]
  exact congrArg (Option.getD · default) (List.getElem?_eq_getElem inside')

/-- A function of rows that goes cell by cell, with the row at hand, gives such cells. -/
theorem cell_mapRows_cellwise {β : Type} (default : β) {f : List α → List β} {g : List α → α → β}
    (cellwise : ∀ row, f row = row.map (g row)) (x : Panel α periods instruments) (t : Fin periods)
    (i : Fin instruments) : (x.mapRows default f).cell t i = g (x.row t) (x.cell t i) := by
  have keeps (row : List α) : (f row).length = row.length := by
    rw [cellwise, List.length_map]
  have row := row_mapRows default keeps x t
  rw [cellwise, row_eq x, List.map_ofFn] at row
  rw [row_eq x]
  exact cell_of_row row i

theorem ext_row {x y : Panel α periods instruments} (rows : ∀ t, x.row t = y.row t) : x = y := by
  ext t i
  exact cell_of_row ((rows t).trans (row_eq y t)) i

end Panel

variable [Scalar α]

namespace Backtest

/-- The positions before a period: none before the first one, then those of the period before. -/
def heldBefore (held : Panel α periods instruments) (t : Fin periods) : List α :=
  match t with
  | ⟨0, _⟩ => List.replicate instruments 0
  | ⟨s + 1, inside⟩ => held.row ⟨s, Nat.lt_of_succ_lt inside⟩

theorem row_positions (settings : RewardSettings α) (factor : Panel α periods instruments)
    (t : Fin periods) : (positions settings factor).row t =
      (Kernel.zScoreRow (factor.row t)).map (positionOf settings.signalThreshold) := by
  rw [positions, Kernel.zScore, Panel.row_map, Panel.row_mapRows]
  intro row
  rw [Kernel.zScoreRow, List.length_map]

def period? (costRate : α) (previous current forward : List α) : Option (Period α) :=
  let trades := tradable current forward
  if trades.isEmpty then none
  else
    let change := turnover previous current
    some ⟨Scalar.total (trades.map fun p => p.1 * p.2) / Scalar.ofNat trades.length -
      costRate * change, change⟩

/-- Each row is met with the positions of the row before it, skipped or not. -/
theorem evaluate_eq (costRate : α) (previous : List α) (rows : List (List α × List α)) :
    evaluate costRate previous rows =
      (rows.zip (previous :: rows.map Prod.fst)).filterMap fun p =>
        period? costRate p.2 p.1.1 p.1.2 := by
  induction rows generalizing previous with
  | nil => rw [evaluate, List.zip_nil_left, List.filterMap_nil]
  | cons first rest ih =>
    obtain ⟨current, forward⟩ := first
    rw [evaluate, List.map_cons, List.zip_cons_cons, List.filterMap_cons, ← ih current]
    dsimp only [period?]
    split <;> rfl

theorem evaluatedPeriods_eq (settings : RewardSettings α)
    (factor forward : Panel α periods instruments) :
    evaluatedPeriods settings factor forward =
      (List.finRange periods).filterMap fun t =>
        period? settings.costRate (heldBefore (positions settings factor) t)
          ((positions settings factor).row t) (forward.row t) := by
  rw [evaluatedPeriods, evaluate_eq, Panel.toRows_eq, Panel.toRows_eq]
  have aligned : (((List.finRange periods).map (positions settings factor).row).zip
        ((List.finRange periods).map forward.row)).zip
        (List.replicate instruments 0 :: (((List.finRange periods).map
          (positions settings factor).row).zip ((List.finRange periods).map forward.row)).map
            Prod.fst) =
      (List.finRange periods).map fun t => (((positions settings factor).row t, forward.row t),
        heldBefore (positions settings factor) t) := by
    apply List.ext_getElem
    · simp
    intro t inside inside'
    cases t with
    | zero => simp [heldBefore]
    | succ s => simp [heldBefore]
  rw [aligned, List.filterMap_map]
  rfl

end Backtest

theorem Statistics.informationCoefficient_eq (ranked : Bool)
    (factor forward : Panel α periods instruments) :
    informationCoefficient ranked factor.toRows forward.toRows =
      mean ((List.finRange periods).filterMap fun t =>
        rowCorrelation ranked (factor.row t) (forward.row t)) := by
  rw [informationCoefficient, Panel.toRows_eq, Panel.toRows_eq, List.zip_map', List.filterMap_map]
  rfl

end FactorSearch
