import FactorSearch.Proofs.Evaluation.PaidTurnover

/-!
# Equity and drawdown

In exact arithmetic the equity of a backtest is the product of one plus each net return, and no
return is bounded below: a short position loses more than everything once its instrument more than
doubles.  The equity stays nonnegative, and the drawdown within one, just if no period before the
ruin of the account loses more than the account, for which it suffices that forward returns and
costs are small.
-/

set_option autoImplicit false

namespace FactorSearch

open Extended

namespace Statistics

/-! ## Equity -/

def worth (value : ℝ) (returns : List ℝ) : List ℝ :=
  returns.scanl (fun value r => value * (1 + r)) value

@[simp] theorem worth_nil (value : ℝ) : worth value [] = [value] := rfl

@[simp] theorem worth_cons (value r : ℝ) (rest : List ℝ) :
    worth value (r :: rest) = value :: worth (value * (1 + r)) rest :=
  List.scanl_cons

theorem compound_finite (value : ℝ) (returns : List ℝ) :
    compound (finite value) (returns.map finite) = (worth value returns).map finite := by
  induction returns generalizing value with
  | nil => rfl
  | cons r rest ih =>
    rw [List.map_cons, compound, one_eq, add_finite, mul_finite, ih, worth_cons, List.map_cons]

theorem worth_zero (returns : List ℝ) : ∀ e ∈ worth 0 returns, 0 ≤ e := by
  induction returns with
  | nil => simp
  | cons r rest ih =>
    rw [worth_cons, zero_mul]
    exact List.forall_mem_cons.mpr ⟨le_rfl, ih⟩

/-- Every return below minus one comes after a return of minus one, which has left nothing. -/
def Covered (returns : List ℝ) : Prop :=
  ∀ before r after, returns = before ++ r :: after → r < -1 → -1 ∈ before

theorem covered_cons {r : ℝ} {rest : List ℝ} :
    Covered (r :: rest) ↔ -1 ≤ r ∧ (r = -1 ∨ Covered rest) := by
  constructor
  · intro covered
    have first : -1 ≤ r := by
      by_contra below
      exact List.not_mem_nil (covered [] r rest rfl (not_le.mp below))
    refine ⟨first, or_iff_not_imp_left.mpr fun solvent before s after split below => ?_⟩
    have ruined := covered (r :: before) s after (by rw [split, List.cons_append]) below
    exact (List.mem_cons.mp ruined).resolve_left (Ne.symm solvent)
  · rintro ⟨first, later⟩ before s after split below
    cases before with
    | nil =>
      rw [List.nil_append, List.cons.injEq] at split
      exact absurd (split.1 ▸ first) (not_le.mpr below)
    | cons t before =>
      rw [List.cons_append, List.cons.injEq] at split
      obtain ⟨rfl, split⟩ := split
      rcases later with rfl | later
      · exact List.mem_cons_self
      · exact List.mem_cons_of_mem _ (later before s after split below)

theorem worth_nonneg_iff {value : ℝ} (positive : 0 < value) (returns : List ℝ) :
    (∀ e ∈ worth value returns, 0 ≤ e) ↔ Covered returns := by
  induction returns generalizing value with
  | nil => simp [Covered, positive.le]
  | cons r rest ih =>
    rw [covered_cons, worth_cons, List.forall_mem_cons, and_iff_right positive.le]
    have starts : value * (1 + r) ∈ worth (value * (1 + r)) rest := by
      cases rest <;> simp
    rcases lt_trichotomy r (-1) with below | rfl | above
    · have negative : value * (1 + r) < 0 := mul_neg_of_pos_of_neg positive (by linarith)
      refine iff_of_false (fun nonneg => ?_) (fun covered => not_le.mpr below covered.1)
      exact not_le.mpr negative (nonneg _ starts)
    · have nothing : value * (1 + -1) = 0 := by ring
      rw [nothing]
      exact iff_of_true (worth_zero rest) ⟨le_rfl, .inl rfl⟩
    · rw [ih (mul_pos positive (by linarith)), and_iff_right above.le,
        or_iff_right above.ne']

/-! ## Drawdown -/

theorem fallFromPeak_finite {peak : ℝ} (positive : 0 < peak) (worst value : ℝ) :
    fallFromPeak (finite peak) (finite worst) (finite value) =
      (finite (max peak value),
        finite (max worst ((max peak value - value) / max peak value))) := by
  have raised : (if Scalar.lt (finite peak) (finite value) then finite value else finite peak) =
      finite (max peak value) := by
    rcases lt_or_ge peak value with higher | lower
    · simp [higher, max_eq_right higher.le]
    · simp [not_lt.mpr lower, max_eq_left lower]
  have top : 0 < max peak value := lt_max_of_lt_left positive
  rw [fallFromPeak]
  dsimp only
  rw [raised, zero_eq, lt_finite, decide_eq_true top, if_pos rfl, sub_finite,
    div_finite _ top.ne', lt_finite]
  rcases lt_or_ge worst ((max peak value - value) / max peak value) with worse | better
  · rw [decide_eq_true worse, if_pos rfl, max_eq_right worse.le]
  · rw [decide_eq_false (not_lt.mpr better), if_neg Bool.false_ne_true, max_eq_left better]

theorem loss_le_one_iff {peak : ℝ} (positive : 0 < peak) (value : ℝ) :
    (peak - value) / peak ≤ 1 ↔ 0 ≤ value := by
  rw [div_le_one positive, sub_le_self_iff]

theorem foldl_fallFromPeak {peak : ℝ} (positive : 0 < peak) (worst : ℝ) (curve : List ℝ) :
    ∃ top drawdown : ℝ,
      (curve.map finite).foldl (fun state value => fallFromPeak state.1 state.2 value)
          (finite peak, finite worst) = (finite top, finite drawdown) ∧
        worst ≤ drawdown ∧ (drawdown ≤ 1 ↔ worst ≤ 1 ∧ ∀ e ∈ curve, 0 ≤ e) := by
  induction curve generalizing peak worst with
  | nil => exact ⟨peak, worst, rfl, le_rfl, by simp⟩
  | cons value rest ih =>
    have top : 0 < max peak value := lt_max_of_lt_left positive
    obtain ⟨final, drawdown, folded, above, within⟩ :=
      ih top (max worst ((max peak value - value) / max peak value))
    refine ⟨final, drawdown, ?_, (le_max_left _ _).trans above, ?_⟩
    · rw [List.map_cons, List.foldl_cons, fallFromPeak_finite positive, folded]
    · rw [within, max_le_iff, loss_le_one_iff top, List.forall_mem_cons, and_assoc]

theorem maxDrawdown_finite (returns : List ℝ) :
    ∃ drawdown : ℝ, maxDrawdown ((worth 1 returns).map finite) = finite drawdown ∧
      0 ≤ drawdown ∧ (drawdown ≤ 1 ↔ ∀ e ∈ worth 1 returns, 0 ≤ e) := by
  obtain ⟨rest, starts⟩ : ∃ rest, worth 1 returns = 1 :: rest := by
    cases returns with
    | nil => exact ⟨[], rfl⟩
    | cons r rest => exact ⟨_, worth_cons 1 r rest⟩
  obtain ⟨top, drawdown, folded, above, within⟩ := foldl_fallFromPeak one_pos 0 (worth 1 returns)
  refine ⟨drawdown, ?_, above, by rw [within, and_iff_right zero_le_one]⟩
  rw [starts, List.map_cons] at folded ⊢
  rw [maxDrawdown, zero_eq]
  exact congrArg Prod.snd folded

end Statistics

namespace Backtest

variable {periods instruments : Nat}

/-! ## How much a period can lose -/

theorem position_le_one (settings : RewardSettings Extended)
    (factor : Panel Extended periods instruments) (t : Fin periods) (i : Fin instruments) :
    |((positions settings factor).cell t i).toReal| ≤ 1 := by
  rw [positions, Panel.map, Panel.cell_ofFn, positionOf]
  split
  · split <;> simp
  · simp

theorem holding_le_one (settings : RewardSettings Extended)
    (factor : Panel Extended periods instruments) (n : Nat) (i : Fin instruments) :
    |holding (positions settings factor) n i| ≤ 1 := by
  cases n with
  | zero => simp [holding]
  | succ n =>
    rw [holding]
    split
    · exact position_le_one settings factor _ i
    · simp

theorem change_le_add {before after : Fin instruments → ℝ} {bound : ℝ} (nonnegative : 0 ≤ bound)
    (sold : ∀ i, |before i| ≤ bound) (bought : ∀ i, |after i| ≤ bound) :
    change before after ≤ bound + bound := by
  have positive : (0 : ℝ) < (Nat.max instruments 1 : ℕ) :=
    Nat.cast_pos.mpr (Nat.le_max_right instruments 1)
  rw [change, div_le_iff₀ positive]
  calc ∑ i, |after i - before i|
      ≤ ∑ _i : Fin instruments, (bound + bound) :=
        Finset.sum_le_sum fun i _ => (abs_sub _ _).trans (add_le_add (bought i) (sold i))
    _ = (bound + bound) * instruments := by
        rw [Finset.sum_const, Finset.card_fin, nsmul_eq_mul, mul_comm]
    _ ≤ (bound + bound) * (Nat.max instruments 1 : ℕ) := by
        gcongr
        exact Nat.le_max_left instruments 1

theorem neg_le_gross {settings : RewardSettings Extended}
    {factor forward : Panel Extended periods instruments} {t : Fin periods} {bound : ℝ}
    (small : ∀ i r, forward.cell t i = finite r → |r| ≤ bound) (some : traded forward t ≠ []) :
    -bound ≤ gross (positions settings factor) forward t := by
  have positive : (0 : ℝ) < (traded forward t).length :=
    Nat.cast_pos.mpr (List.length_pos_iff.mpr some)
  rw [gross, le_div_iff₀ positive]
  have earned : ∀ earning ∈ (traded forward t).map fun i =>
      ((positions settings factor).cell t i).toReal * (forward.cell t i).toReal,
      -bound ≤ earning := by
    intro earning member
    obtain ⟨i, trades, rfl⟩ := List.mem_map.mp member
    obtain ⟨r, known⟩ := exists_real (List.mem_filter.mp trades).2
    have size := mul_le_mul (position_le_one settings factor t i) (small i r known)
      (abs_nonneg r) zero_le_one
    rw [known, toReal_finite]
    rw [← abs_mul, one_mul] at size
    exact (abs_le.mp size).1
  have summed := List.card_nsmul_le_sum _ _ earned
  rwa [List.length_map, nsmul_eq_mul, mul_comm] at summed

/-- Where forward returns and twice the cost rate add up to at most one, no period loses more than
everything. -/
theorem neg_one_le_net {settings : RewardSettings Extended} {rate : ℝ} (nonnegative : 0 ≤ rate)
    {factor forward : Panel Extended periods instruments} {t : Fin periods}
    (small : ∀ i r, forward.cell t i = finite r → |r| + (rate + rate) ≤ 1)
    (some : traded forward t ≠ []) :
    -1 ≤ gross (positions settings factor) forward t -
      cost rate (positions settings factor) t := by
  have earned : -(1 - (rate + rate)) ≤ gross (positions settings factor) forward t :=
    neg_le_gross (fun i r known => by linarith [small i r known]) some
  have paid : cost rate (positions settings factor) t ≤ rate * (1 + 1) :=
    mul_le_mul_of_nonneg_left (change_le_add zero_le_one (holding_le_one settings factor t)
      (holding_le_one settings factor (t + 1))) nonnegative
  linarith

/-! ## Solvency -/

/-- The equity of a backtest is the product of one plus each return.  It is nonnegative throughout
just if the drawdown, never below zero, is at most one, and just if every return below minus one
comes after the ruin of the account; small forward returns and costs ensure it. -/
theorem equity_nonneg_iff (settings : RewardSettings Extended) (rate : ℝ)
    (charged : settings.costRate = finite rate)
    (factor forward : Panel Extended periods instruments) :
    ∃ (returns : List ℝ) (drawdown : ℝ),
      (run settings factor forward).returns = returns.map finite ∧
      (run settings factor forward).equity = (Statistics.worth 1 returns).map finite ∧
      (run settings factor forward).metrics.maxDrawdown = finite drawdown ∧
      0 ≤ drawdown ∧
      (drawdown ≤ 1 ↔ ∀ e ∈ Statistics.worth 1 returns, 0 ≤ e) ∧
      ((∀ e ∈ Statistics.worth 1 returns, 0 ≤ e) ↔ Statistics.Covered returns) ∧
      (0 ≤ rate → (∀ t i r, forward.cell t i = finite r → |r| + (rate + rate) ≤ 1) →
        ∀ e ∈ Statistics.worth 1 returns, 0 ≤ e) := by
  let returns := ((List.finRange periods).filter fun t => traded forward t ≠ []).map fun t =>
    gross (positions settings factor) forward t - cost rate (positions settings factor) t
  have earned : (run settings factor forward).returns = returns.map finite := by
    rw [run_returns settings rate charged, List.map_map]
    rfl
  have grown : (run settings factor forward).equity =
      (Statistics.worth 1 returns).map finite := by
    change Statistics.equityCurve (run settings factor forward).returns = _
    rw [earned, Statistics.equityCurve, one_eq, Statistics.compound_finite]
  obtain ⟨drawdown, fell, nonnegative, within⟩ := Statistics.maxDrawdown_finite returns
  refine ⟨returns, drawdown, earned, grown, ?_, nonnegative, within,
    Statistics.worth_nonneg_iff one_pos returns, fun paid small => ?_⟩
  · change Statistics.maxDrawdown (run settings factor forward).equity = _
    rw [grown, fell]
  · refine (Statistics.worth_nonneg_iff one_pos returns).mpr fun before r after split below => ?_
    have member : r ∈ returns := by
      rw [split]
      exact List.mem_append_right _ List.mem_cons_self
    obtain ⟨t, trades, rfl⟩ := List.mem_map.mp member
    have some : traded forward t ≠ [] := of_decide_eq_true (List.mem_filter.mp trades).2
    exact absurd below (not_lt.mpr (neg_one_le_net paid (small t) some))

theorem gap_solvent :
    (RewardSettings.defaults : RewardSettings Extended).costRate = finite 0.001 ∧
    (0 : ℝ) ≤ 0.001 ∧
    (∀ t i r, gap.cell t i = finite r → |r| + (0.001 + 0.001) ≤ 1) ∧
    ∃ (curve : List ℝ) (drawdown : ℝ),
      (run .defaults parting gap).equity = curve.map finite ∧ (∀ e ∈ curve, 0 ≤ e) ∧
      (run .defaults parting gap).metrics.maxDrawdown = finite drawdown ∧
      0 ≤ drawdown ∧ drawdown ≤ 1 := by
  have charged : (RewardSettings.defaults : RewardSettings Extended).costRate =
      finite 0.001 := rfl
  have nonnegative : (0 : ℝ) ≤ 0.001 := by norm_num
  have small : ∀ t i r, gap.cell t i = finite r → |r| + (0.001 + 0.001) ≤ 1 := by
    intro t i r known
    have cells : r = 0 ∨ r = 0.01 ∨ r = 0.02 := by
      fin_cases t <;> fin_cases i <;> cases known <;> simp
    rcases cells with rfl | rfl | rfl <;> norm_num [abs_of_nonneg]
  obtain ⟨returns, drawdown, -, grown, fell, above, within, -, solvent⟩ :=
    equity_nonneg_iff .defaults 0.001 charged parting gap
  have kept := solvent nonnegative small
  exact ⟨charged, nonnegative, small, _, drawdown, grown, kept, fell, above, within.mpr kept⟩

/-! ## A loss of more than everything -/

noncomputable def opposed : Panel Extended 1 2 :=
  Panel.ofFn fun _ i => finite (if i.val = 0 then -1 else 1)

noncomputable def squeeze : Panel Extended 1 2 :=
  Panel.ofFn fun _ i => finite (if i.val = 0 then 3.0 else -3.0)

theorem positions_opposed (i : Fin 2) : (positions .defaults opposed).cell 0 i =
    finite (if i = 0 then -1 else 1) := by
  have row : (positions .defaults opposed).row 0 =
      List.ofFn fun i : Fin 2 => finite (if i = 0 then -1 else 1) := by
    rw [row_positions]
    exact opposed_positions
  exact Panel.cell_of_row row i

/-- The account owes twice what it started with after one period. -/
theorem squeeze_ruins :
    (RewardSettings.defaults : RewardSettings Extended).validate = .ok () ∧
    (run .defaults opposed squeeze).equity = [finite 1, finite (-2.001)] ∧
    (run .defaults opposed squeeze).metrics.maxDrawdown = finite 3.001 := by
  have valid : (RewardSettings.defaults : RewardSettings Extended).validate = .ok () := by
    simp only [RewardSettings.validate, RewardSettings.defaults, RewardSettings.isRatio,
      numeral_eq, neg_finite, ofScientific_eq, le_finite, lt_finite]
    norm_num
  have trades : traded squeeze 0 = [0, 1] := rfl
  have evaluated : (List.finRange 1).filter (fun t => traded squeeze t ≠ []) = [0] := rfl
  have sold : squeeze.cell 0 0 = finite 3.0 := rfl
  have bought : squeeze.cell 0 1 = finite (-3.0) := rfl
  have start : holding (positions .defaults opposed) 0 = fun _ => 0 := rfl
  have taken : holding (positions .defaults opposed) 1 = fun i => if i = 0 then -1 else 1 := by
    refine (holding_succ _ (0 : Fin 1)).trans ?_
    simp [positions_opposed]
  have lost : gross (positions .defaults opposed) squeeze 0 = -3.0 := by
    rw [gross, trades]
    norm_num [positions_opposed, sold, bought]
  have paid : cost 0.001 (positions .defaults opposed) 0 = 0.001 := by
    norm_num [cost, change, start, taken]
  have earned : (run .defaults opposed squeeze).returns = [-3.001].map finite := by
    rw [run_returns .defaults 0.001 rfl, evaluated, List.map_singleton, Fin.val_zero, lost, paid]
    norm_num
  have grown : (run .defaults opposed squeeze).equity = [1, -2.001].map finite := by
    change Statistics.equityCurve (run .defaults opposed squeeze).returns = _
    rw [earned, Statistics.equityCurve, one_eq, Statistics.compound_finite]
    norm_num
  refine ⟨valid, grown, ?_⟩
  change Statistics.maxDrawdown (run .defaults opposed squeeze).equity = _
  rw [grown, List.map_cons, List.map_cons, List.map_nil, Statistics.maxDrawdown.eq_def, zero_eq]
  norm_num [Statistics.fallFromPeak_finite]

end Backtest

end FactorSearch
