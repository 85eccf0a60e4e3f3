import FactorSearch.Kernel.Elementwise
import FactorSearch.Kernel.Window
import FactorSearch.Proofs.Double.Missing
import FactorSearch.Proofs.Exact.Maximum

/-!
# Windows over windows

A windowed kernel is missing exactly where its window reaches before the first period or holds a
cell that is not finite.  If its values are finite, a second window over them is full exactly where
the window of both lengths together is; so delays add up, a difference is taken from the delayed
panel, and the largest of largest values is the largest over both windows.
-/

set_option autoImplicit false

namespace FactorSearch

variable {α : Type} {periods instruments : Nat}

/-! ## Full windows -/

def stretch (series : Nat → α) (start count : Nat) : List α :=
  (List.range count).map fun j => series (start + j)

theorem stretch_ne_nil (series : Nat → α) (start : Nat) {count : Nat} (positive : 0 < count) :
    stretch series start count ≠ [] := by
  rw [stretch, Ne, List.map_eq_nil_iff, List.range_eq_nil]
  omega

theorem stretch_succ (series : Nat → α) (start count : Nat) :
    stretch series start (count + 1) = stretch series start count ++ [series (start + count)] := by
  rw [stretch, List.range_succ, List.map_append, List.map_singleton, stretch]

variable [Scalar α]

/-- The cells of an instrument by the number of the period, missing after the last one. -/
def Panel.series (x : Panel α periods instruments) (i : Fin instruments) (s : Nat) : α :=
  if h : s < periods then x.cell ⟨s, h⟩ i else Scalar.nan

theorem Panel.series_val (x : Panel α periods instruments) (i : Fin instruments)
    (t : Fin periods) : x.series i t = x.cell t i :=
  dif_pos t.isLt

/-- The last `w` periods up to `t` exist, and the series is finite in all of them. -/
structure Full (series : Nat → α) (w t : Nat) : Prop where
  positive : 0 < w
  reaches : w ≤ t + 1
  finite : ∀ s, s ≤ t → t < s + w → Scalar.isFinite (series s) = true

theorem Full.all_stretch {series : Nat → α} {w t : Nat} (full : Full series w t) :
    ∀ v ∈ stretch series (t + 1 - w) w, Scalar.isFinite v = true := by
  intro v member
  obtain ⟨j, inside, rfl⟩ := List.mem_map.mp member
  rw [List.mem_range] at inside
  have reaches := full.reaches
  exact full.finite _ (by omega) (by omega)

namespace Panel

variable {x : Panel α periods instruments} {w : Nat} {t : Fin periods} {i : Fin instruments}

theorem ofFn_window (x : Panel α periods instruments) (i : Fin instruments) (t : Fin periods)
    (reaches : w ≤ t.val + 1) :
    (List.ofFn fun j : Fin w => x.cell ⟨t.val + 1 - w + j.val, by omega⟩ i) =
      stretch (x.series i) (t.val + 1 - w) w := by
  apply List.ext_getElem
  · simp [stretch]
  · intro j inside _
    rw [List.length_ofFn] at inside
    simp only [List.getElem_ofFn, stretch, List.getElem_map, List.getElem_range]
    exact (x.series_val i ⟨t.val + 1 - w + j, by omega⟩).symm

theorem window?_eq_some (full : Full (x.series i) w t) :
    x.window? w t i = some (stretch (x.series i) (t.val + 1 - w) w) := by
  have finite := List.all_eq_true.mpr full.all_stretch
  simp only [window?]
  rw [dif_pos ⟨full.positive, full.reaches⟩, ofFn_window x i t full.reaches, if_pos finite]

theorem window?_eq_none (broken : ¬ Full (x.series i) w t) : x.window? w t i = none := by
  simp only [window?]
  split
  · rename_i inside
    rw [ofFn_window x i t inside.2, if_neg]
    intro finite
    rw [List.all_eq_true] at finite
    refine broken ⟨inside.1, inside.2, fun s early late => finite _ ?_⟩
    exact List.mem_map.mpr ⟨s - (t.val + 1 - w), List.mem_range.mpr (by omega),
      congrArg (x.series i) (by omega)⟩
  · rfl

end Panel

namespace Kernel

section Rolling

variable {x : Panel α periods instruments} {f : List α → α} {w : Nat} {i : Fin instruments}

theorem rolling_of_full {t : Fin periods} (full : Full (x.series i) w t) :
    (rolling w f x).cell t i = f (stretch (x.series i) (t.val + 1 - w) w) := by
  rw [rolling, Panel.cell_ofFn, Panel.window?_eq_some full]

theorem rolling_of_not_full {t : Fin periods} (broken : ¬ Full (x.series i) w t) :
    (rolling w f x).cell t i = Scalar.nan := by
  rw [rolling, Panel.cell_ofFn, Panel.window?_eq_none broken]

theorem series_rolling_of_full {s : Nat} (inside : s < periods) (full : Full (x.series i) w s) :
    (rolling w f x).series i s = f (stretch (x.series i) (s + 1 - w) w) :=
  ((rolling w f x).series_val i ⟨s, inside⟩).trans (rolling_of_full full)

theorem series_rolling_of_not_full {s : Nat} (inside : s < periods)
    (broken : ¬ Full (x.series i) w s) : (rolling w f x).series i s = Scalar.nan :=
  ((rolling w f x).series_val i ⟨s, inside⟩).trans (rolling_of_not_full broken)

/-- A window of `v` periods over finite values of windows of `w` is full where the window of all
the periods that these read is. -/
theorem full_rolling_iff (missing : Scalar.isFinite (Scalar.nan : α) = false)
    (keeps : ∀ cells, cells ≠ [] → (∀ c ∈ cells, Scalar.isFinite c = true) →
      Scalar.isFinite (f cells) = true)
    {v t : Nat} (inside : t < periods) (first : 0 < w) (second : 0 < v) :
    Full ((rolling w f x).series i) v t ↔ Full (x.series i) (w + v - 1) t := by
  constructor
  · intro full
    have under : ∀ s, s ≤ t → t < s + v → Full (x.series i) w s := by
      intro s early late
      by_contra broken
      have finite := full.finite s early late
      rw [series_rolling_of_not_full (by omega) broken, missing] at finite
      cases finite
    have reaches := full.reaches
    have oldest := under (t + 1 - v) (by omega) (by omega)
    have before := oldest.reaches
    refine ⟨by omega, by omega, fun s early late => ?_⟩
    by_cases recent : t < s + v
    · exact (under s early recent).finite s le_rfl (by omega)
    · exact oldest.finite s (by omega) (by omega)
  · intro full
    have reaches := full.reaches
    refine ⟨second, by omega, fun s early late => ?_⟩
    have under : Full (x.series i) w s :=
      ⟨first, by omega, fun r early' late' => full.finite r (by omega) (by omega)⟩
    rw [series_rolling_of_full (by omega) under]
    exact keeps _ (stretch_ne_nil _ _ first) under.all_stretch

end Rolling

/-! ## Delays and differences -/

theorem oldest_stretch (series : Nat → α) (start count : Nat) :
    oldest (stretch series start (count + 1)) = series start := by
  rw [oldest, stretch, List.range_succ_eq_map, List.map_cons, List.headD_cons, Nat.add_zero]

theorem latest_stretch (series : Nat → α) (start count : Nat) :
    latest (stretch series start (count + 1)) = series (start + count) := by
  rw [latest, stretch_succ, List.getLastD_concat]

theorem isFinite_oldest (cells : List α) (some : cells ≠ [])
    (finite : ∀ c ∈ cells, Scalar.isFinite c = true) : Scalar.isFinite (oldest cells) = true := by
  obtain ⟨first, rest, rfl⟩ := List.exists_cons_of_ne_nil some
  exact finite first List.mem_cons_self

section Delay

variable {x : Panel α periods instruments} {i : Fin instruments}

theorem series_delay {k t : Nat} (inside : t < periods) (full : Full (x.series i) (k + 1) t) :
    (delay k x).series i t = x.series i (t - k) := by
  rw [delay, series_rolling_of_full inside full, oldest_stretch]
  congr 1
  omega

theorem series_delay_of_not_full {k t : Nat} (inside : t < periods)
    (broken : ¬ Full (x.series i) (k + 1) t) : (delay k x).series i t = Scalar.nan :=
  series_rolling_of_not_full inside broken

theorem delay_delay (missing : Scalar.isFinite (Scalar.nan : α) = false)
    (x : Panel α periods instruments) (a b : Nat) :
    delay b (delay a x) = delay (a + b) x := by
  ext t i
  rw [← Panel.series_val, ← Panel.series_val]
  have windows : Full ((delay a x).series i) (b + 1) t ↔ Full (x.series i) (a + b + 1) t :=
    full_rolling_iff missing isFinite_oldest t.isLt a.succ_pos b.succ_pos |>.trans
      (by rw [show a + 1 + (b + 1) - 1 = a + b + 1 by omega])
  by_cases full : Full (x.series i) (a + b + 1) t
  · have reaches := full.reaches
    have first : Full (x.series i) (a + 1) (t - b) :=
      ⟨a.succ_pos, by omega, fun s early late => full.finite s (by omega) (by omega)⟩
    rw [series_delay t.isLt (windows.mpr full), series_delay (by omega) first,
      series_delay t.isLt full]
    congr 1
    omega
  · rw [series_delay_of_not_full t.isLt fun again => full (windows.mp again),
      series_delay_of_not_full t.isLt full]

/-- A change is the distance from the delayed panel, where nothing is left of a missing value. -/
theorem delta_eq_sub_delay (missing : ∀ v : α, v - Scalar.nan = Scalar.nan)
    (x : Panel α periods instruments) (k : Nat) : delta k x = sub x (delay k x) := by
  ext t i
  rw [sub, Panel.map₂, Panel.cell_ofFn]
  by_cases full : Full (x.series i) (k + 1) t
  · have reaches := full.reaches
    have before := series_delay t.isLt full
    rw [Panel.series_val] at before
    rw [delta, rolling_of_full full, latest_stretch, oldest_stretch, before, ← x.series_val i t]
    congr 2 <;> omega
  · rw [delta, delay, rolling_of_not_full full, rolling_of_not_full full, missing]

end Delay

/-! ## Largest values -/

section Highest

variable {x : Panel α periods instruments} {i : Fin instruments}

theorem series_highest {w t : Nat} (inside : t < periods) (full : Full (x.series i) w t) :
    (highest w x).series i t = Scalar.maximum (stretch (x.series i) (t + 1 - w) w) :=
  series_rolling_of_full inside full

theorem series_highest_of_not_full {w t : Nat} (inside : t < periods)
    (broken : ¬ Full (x.series i) w t) : (highest w x).series i t = Scalar.nan :=
  series_rolling_of_not_full inside broken

variable [Scalar.Ordered α] [Scalar.Bounded α]

/-- The largest values of windows that start one period after the other have as their largest
value that of all their periods.  A window adds only its last value to what those before it have. -/
theorem maximum_windows (series : Nat → α) (start k n : Nat)
    (finite : ∀ j, j ≤ k + n → Scalar.isFinite (series (start + j)) = true) :
    Scalar.maximum ((List.range (n + 1)).map fun j =>
        Scalar.maximum (stretch series (start + j) (k + 1))) =
      Scalar.maximum (stretch series start (k + 1 + n)) := by
  induction n with
  | zero =>
    have one : Scalar.isFinite (Scalar.maximum (stretch series start (k + 1))) = true := by
      refine Scalar.Bounded.isFinite_maximum _ (stretch_ne_nil _ _ k.succ_pos) fun c member => ?_
      obtain ⟨j, inside, rfl⟩ := List.mem_map.mp member
      exact finite j (by rw [List.mem_range] at inside; omega)
    exact Scalar.Ordered.max_eq_right ((Scalar.Bounded.isFinite_iff _).mp one).1
  | succ n ih =>
    have last : Scalar.isFinite (series (start + (k + 1 + n))) = true :=
      finite (k + 1 + n) (by omega)
    have earlier : Scalar.le (Scalar.maximum (stretch series (start + (n + 1)) k))
        (Scalar.maximum (stretch series start (k + 1 + n))) = true := by
      refine Scalar.Bounded.maximum_le_of_subset (fun c member => ?_)
        (stretch_ne_nil _ _ (by omega)) fun c member => ?_
      · obtain ⟨j, inside, rfl⟩ := List.mem_map.mp member
        rw [List.mem_range] at inside
        exact List.mem_map.mpr ⟨n + 1 + j, List.mem_range.mpr (by omega),
          congrArg series (by omega)⟩
      · obtain ⟨j, inside, rfl⟩ := List.mem_map.mp member
        exact finite j (by rw [List.mem_range] at inside; omega)
    rw [List.range_succ, List.map_append, List.map_singleton, Scalar.maximum_snoc,
      ih fun j small => finite j (by omega), stretch_succ, Scalar.maximum_snoc,
      show start + (n + 1) + k = start + (k + 1 + n) by omega,
      Scalar.Ordered.max_absorb earlier (Scalar.Ordered.present _ last), ← Nat.add_assoc (k + 1),
      stretch_succ, Scalar.maximum_snoc]

/-- The largest values over two windows, one over the other, are those over both together. -/
theorem highest_highest (missing : Scalar.isFinite (Scalar.nan : α) = false)
    (x : Panel α periods instruments) (k n : Nat) :
    highest (n + 1) (highest (k + 1) x) = highest (k + 1 + n) x := by
  ext t i
  rw [← Panel.series_val, ← Panel.series_val]
  have windows : Full ((highest (k + 1) x).series i) (n + 1) t ↔ Full (x.series i) (k + 1 + n) t :=
    full_rolling_iff missing Scalar.Bounded.isFinite_maximum t.isLt k.succ_pos n.succ_pos
  by_cases full : Full (x.series i) (k + 1 + n) t
  · have reaches := full.reaches
    have stretched : stretch ((highest (k + 1) x).series i) (t + 1 - (n + 1)) (n + 1) =
        (List.range (n + 1)).map fun j =>
          Scalar.maximum (stretch (x.series i) (t + 1 - (k + 1 + n) + j) (k + 1)) := by
      refine List.map_congr_left fun j inside => ?_
      rw [List.mem_range] at inside
      have under : Full (x.series i) (k + 1) (t + 1 - (n + 1) + j) :=
        ⟨k.succ_pos, by omega, fun s early late => full.finite s (by omega) (by omega)⟩
      rw [series_highest (by omega) under]
      congr 2
      omega
    rw [series_highest t.isLt (windows.mpr full), series_highest t.isLt full, stretched]
    exact maximum_windows _ _ k n fun j small => full.finite _ (by omega) (by omega)
  · rw [series_highest_of_not_full t.isLt fun again => full (windows.mp again),
      series_highest_of_not_full t.isLt full]

end Highest

/-! ## Windows over doubles -/

/-- Delays add up, a change is the distance from the delayed panel, and the largest of largest
values is the largest over both windows: cell by cell, the same double or missing in both. -/
theorem windows_compose (x : Panel Float periods instruments) (a b : Nat) :
    delay b (delay a x) = delay (a + b) x ∧
      delta a x = sub x (delay a x) ∧
      (1 ≤ a → 1 ≤ b → highest b (highest a x) = highest (a + b - 1) x) := by
  have missing : Scalar.isFinite (Scalar.nan : Float) = false := Double.missing_nan.not_finite
  refine ⟨delay_delay missing x a b, ?_, fun first second => ?_⟩
  · exact delta_eq_sub_delay (fun v => (Double.missing_nan.sub_right v).eq_nan) x a
  · obtain ⟨k, rfl⟩ := Nat.exists_eq_add_of_le' first
    obtain ⟨n, rfl⟩ := Nat.exists_eq_add_of_le' second
    exact highest_highest missing x k n

def lateListing : Panel Float 5 1 :=
  ⟨#v[#v[Scalar.nan], #v[2], #v[-1], #v[3], #v[1]]⟩

theorem lateListing_composed :
    1 ≤ 2 ∧ 1 ≤ 3 ∧ highest 3 (highest 2 lateListing) = highest 4 lateListing ∧
      Scalar.isNaN ((highest 4 lateListing).cell 3 0) = true ∧
      (highest 4 lateListing).cell 4 0 = 3 :=
  ⟨by decide, by decide, (windows_compose lateListing 2 3).2.2 (by decide) (by decide),
    by decide +kernel, by decide +kernel⟩

end Kernel

end FactorSearch
