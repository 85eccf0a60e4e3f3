import FactorSearch.Market.LongTable
import FactorSearch.Proofs.Evaluation.Agreement
import Mathlib.Data.List.Sort
import Mathlib.Data.String.Basic

/-!
# Rows without a key

A row of a long table that lacks its date or its instrument fills no cell.  The axes are built from
each column alone, so such a row still adds a period for its date, or an instrument, when no row
with both names it.  Without those rows a table is read as before exactly when every date and every
instrument also occurs in a row that has both.
-/

set_option autoImplicit false

namespace FactorSearch

/-! ## Labels of an axis -/

namespace LongTable

@[simp] theorem mem_dropRepeats (text : String) (sorted : List String) :
    text ∈ dropRepeats sorted ↔ text ∈ sorted := by
  induction sorted using dropRepeats.induct with
  | case1 => simp [dropRepeats]
  | case2 => simp [dropRepeats]
  | case3 second rest ih => simp [dropRepeats, ih]
  | case4 first second rest different ih => rw [dropRepeats, if_neg different]; simp [ih]

theorem dropRepeats_pairwise {sorted : List String} (ascending : sorted.Pairwise (· ≤ ·)) :
    (dropRepeats sorted).Pairwise (· < ·) := by
  induction sorted using dropRepeats.induct with
  | case1 => simp [dropRepeats]
  | case2 => simp [dropRepeats]
  | case3 second rest ih =>
    rw [dropRepeats, if_pos rfl]
    exact ih ascending.of_cons
  | case4 first second rest different ih =>
    rw [dropRepeats, if_neg different]
    refine List.pairwise_cons.mpr ⟨fun text member => ?_, ih ascending.of_cons⟩
    have least := (List.pairwise_cons.mp ascending).1
    have above := least second List.mem_cons_self
    rcases List.mem_cons.mp ((mem_dropRepeats text _).mp member) with rfl | later
    · exact lt_of_le_of_ne above different
    · exact lt_of_lt_of_le (lt_of_le_of_ne above different)
        ((List.pairwise_cons.mp ascending.of_cons).1 text later)

theorem mem_labels (text : String) (texts : List (Option String)) :
    text ∈ (labels texts).toList ↔ some text ∈ texts := by
  simp [labels]

theorem labels_pairwise (texts : List (Option String)) :
    (labels texts).toList.Pairwise (· < ·) := by
  refine dropRepeats_pairwise ?_
  have sorted : ((texts.filterMap id).mergeSort fun a b => decide (a ≤ b)).Pairwise
      fun a b => decide (a ≤ b) = true := by
    apply List.pairwise_mergeSort
    · intro a b c ab bc
      rw [decide_eq_true_iff] at *
      exact le_trans ab bc
    · intro a b
      simpa using le_total a b
  simpa using sorted

theorem nodup_labels (texts : List (Option String)) : (labels texts).toList.Nodup :=
  (labels_pairwise texts).imp ne_of_lt

theorem labels_eq {texts others : List (Option String)}
    (same : ∀ text, some text ∈ texts ↔ some text ∈ others) : labels texts = labels others := by
  refine Array.toList_inj.mp ?_
  refine List.Perm.eq_of_pairwise' (labels_pairwise texts) (labels_pairwise others) ?_
  refine (List.perm_ext_iff_of_nodup (nodup_labels texts) (nodup_labels others)).mpr fun text => ?_
  rw [mem_labels, mem_labels]
  exact same text

/-- A part of the texts with as many labels has all of them. -/
theorem mem_of_size_labels {part texts : List (Option String)} (among : part ⊆ texts)
    (size : (labels part).size = (labels texts).size) {text : String}
    (member : some text ∈ texts) : some text ∈ part := by
  have subperm : (labels part).toList.Subperm (labels texts).toList :=
    List.subperm_of_subset (nodup_labels part) fun text member =>
      (mem_labels text texts).mpr (among ((mem_labels text part).mp member))
  have whole := subperm.perm_of_length_le (by simpa using size.ge)
  exact (mem_labels text part).mp (whole.mem_iff.mpr ((mem_labels text texts).mpr member))

/-! ## Keeping some rows -/

def keep {α : Type} (mask : List Bool) (elements : List α) : List α :=
  ((elements.zip mask).filter Prod.snd).map Prod.fst

section Keep

variable {α β : Type}

@[simp] theorem keep_nil (mask : List Bool) : keep mask ([] : List α) = [] := by
  simp [keep]

@[simp] theorem nil_keep (elements : List α) : keep [] elements = [] := by
  simp [keep]

@[simp] theorem keep_cons (kept : Bool) (mask : List Bool) (first : α) (rest : List α) :
    keep (kept :: mask) (first :: rest) =
      if kept then first :: keep mask rest else keep mask rest := by
  cases kept <;> simp [keep]

theorem keep_map (f : α → β) (mask : List Bool) (elements : List α) :
    keep mask (elements.map f) = (keep mask elements).map f := by
  induction elements generalizing mask with
  | nil => simp
  | cons first rest ih =>
    cases mask with
    | nil => simp
    | cons kept mask => cases kept <;> simp [ih]

theorem keep_zip (mask : List Bool) (elements : List α) (others : List β) :
    (keep mask elements).zip (keep mask others) = keep mask (elements.zip others) := by
  induction mask generalizing elements others with
  | nil => simp
  | cons kept mask ih =>
    cases elements with
    | nil => simp
    | cons first rest =>
      cases others with
      | nil => simp
      | cons other others => cases kept <;> simp [ih]

theorem keep_map_filter (p : α → Bool) (elements : List α) :
    keep (elements.map p) elements = elements.filter p := by
  induction elements with
  | nil => simp
  | cons first rest ih => cases holds : p first <;> simp [ih, holds]

theorem keep_subset (mask : List Bool) (elements : List α) : keep mask elements ⊆ elements := by
  intro element member
  obtain ⟨⟨_, kept⟩, found, rfl⟩ := List.mem_map.mp member
  exact (List.of_mem_zip (List.mem_of_mem_filter found)).1

end Keep

def keys (casts : Casts) (table : LongTable) : List (Option String × Option String) :=
  ((table.column? "date").elim [] casts.texts).zip
    ((table.column? "instrument").elim [] casts.texts)

theorem keys_eq (casts : Casts) {table : LongTable} {dates instruments : Column}
    (dated : table.column? "date" = some dates)
    (named : table.column? "instrument" = some instruments) :
    table.keys casts = (casts.texts dates).zip (casts.texts instruments) := by
  rw [keys, dated, named]
  rfl

def hasKey (key : Option String × Option String) : Bool := key.1.isSome && key.2.isSome

/-- The table without the rows that lack their date or their instrument. -/
def keyed (casts : Casts) (table : LongTable) : LongTable :=
  ⟨table.columns.map fun column => ⟨column.name, keep ((table.keys casts).map hasKey) column.cells⟩⟩

/-- Every date and every instrument occurs in a row that has both. -/
def Paired (casts : Casts) (table : LongTable) : Prop :=
  (∀ column, table.column? "date" = some column → ∀ date, some date ∈ casts.texts column →
    ∃ instrument, (some date, some instrument) ∈ table.keys casts) ∧
  ∀ column, table.column? "instrument" = some column → ∀ instrument,
    some instrument ∈ casts.texts column → ∃ date, (some date, some instrument) ∈ table.keys casts

theorem column?_keyed (casts : Casts) (table : LongTable) (name : String) :
    (table.keyed casts).column? name = (table.column? name).map fun column =>
      ⟨column.name, keep ((table.keys casts).map hasKey) column.cells⟩ := by
  rw [column?, keyed, List.find?_map]
  rfl

theorem texts_keep (casts : Casts) (name : String) (mask : List Bool) (cells : List (Option Cell)) :
    casts.texts ⟨name, keep mask cells⟩ = keep mask (casts.texts ⟨name, cells⟩) :=
  (keep_map _ mask cells).symm

theorem keys_keyed (casts : Casts) (table : LongTable) :
    (table.keyed casts).keys casts = (table.keys casts).filter hasKey := by
  have kept (name : String) : ((table.keyed casts).column? name).elim [] casts.texts =
      keep ((table.keys casts).map hasKey) ((table.column? name).elim [] casts.texts) := by
    rw [column?_keyed]
    cases table.column? name with
    | none => simp
    | some column => exact texts_keep casts column.name _ column.cells
  rw [keys, kept, kept, keep_zip, ← keep_map_filter]
  rfl

theorem mem_keep_fst {dates instruments : List (Option String)} {date : String} :
    some date ∈ keep ((dates.zip instruments).map hasKey) dates ↔
      ∃ instrument, (some date, some instrument) ∈ dates.zip instruments := by
  induction dates generalizing instruments with
  | nil => simp
  | cons first dates ih =>
    cases instruments with
    | nil => simp
    | cons instrument instruments =>
      cases first <;> cases instrument <;> simp [hasKey, ih, exists_or]

theorem mem_keep_snd {dates instruments : List (Option String)} {instrument : String} :
    some instrument ∈ keep ((dates.zip instruments).map hasKey) instruments ↔
      ∃ date, (some date, some instrument) ∈ dates.zip instruments := by
  induction dates generalizing instruments with
  | nil => simp
  | cons date dates ih =>
    cases instruments with
    | nil => simp
    | cons first instruments =>
      cases date <;> cases first <;> simp [hasKey, ih, exists_or]

theorem place?_of_not_hasKey (dates instruments : Array String)
    {key : Option String × Option String} (lacks : hasKey key = false) :
    place? dates instruments key = none := by
  obtain ⟨date, instrument⟩ := key
  cases date <;> cases instrument <;> simp_all [hasKey, place?]

theorem fill_keep (dates instruments : Array String) (width : Nat)
    (keys : List (Option String × Option String)) (values : List (Option Float))
    (cells : Array Float) :
    fill width cells (((keys.filter hasKey).map (place? dates instruments)).zip
        (keep (keys.map hasKey) values)) =
      fill width cells ((keys.map (place? dates instruments)).zip values) := by
  induction keys generalizing values cells with
  | nil => simp
  | cons key keys ih =>
    cases values with
    | nil => simp
    | cons value values =>
      simp only [fill] at ih
      cases holds : hasKey key with
      | true => simp [fill, holds, ih]
      | false => simp [fill, holds, ih, place?_of_not_hasKey dates instruments holds]

theorem pivot_keep (casts : Casts) (dates instruments : Array String) (periods width : Nat)
    (keys : List (Option String × Option String)) (column : Column) :
    pivot casts periods width ((keys.filter hasKey).map (place? dates instruments))
        ⟨column.name, keep (keys.map hasKey) column.cells⟩ =
      pivot casts periods width (keys.map (place? dates instruments)) column := by
  simp only [pivot, Casts.numbers, ← keep_map, fill_keep]

/-! ## Reading the columns -/

section Collect

variable {periods instruments otherPeriods otherInstruments : Nat}

def insertAll (panelOf : String → Option (Grid Float))
    (set : FeatureSet Float periods instruments) (names : List String) :
    Result (FeatureSet Float periods instruments) :=
  names.foldlM (fun (set : FeatureSet Float periods instruments) name =>
    match panelOf name with
    | some grid => set.insert name grid
    | none => pure set) set

def insertForward (panelOf : String → Option (Grid Float))
    (set : FeatureSet Float periods instruments) : Result (FeatureSet Float periods instruments) :=
  match panelOf "fwd_ret" with
  | some grid => set.setForward grid
  | none => pure set

def complete (set : FeatureSet Float periods instruments) : Result (Observations Float) :=
  match requiredFeatures.find? fun name => !set.contains name with
  | some missing => throw (.dataLoading (.incomplete missing))
  | none => return ⟨periods, instruments, set⟩

/-- The features whose panels are found under their names, with the required ones among them. -/
def collect (periods instruments : Nat) (panelOf : String → Option (Grid Float)) :
    Result (Observations Float) := do
  let named ← insertAll panelOf (FeatureSet.empty : FeatureSet Float periods instruments)
    (requiredFeatures ++ sentimentFeatures)
  complete (← insertForward panelOf named)

def panelOf (casts : Casts) (table : LongTable) (dates instruments : Array String) (name : String) :
    Option (Grid Float) :=
  (table.column? name).map
    (pivot casts dates.size instruments.size ((table.keys casts).map (place? dates instruments)))

theorem panelOf_shape {casts : Casts} {table : LongTable} {dates instruments : Array String}
    {name : String} {grid : Grid Float}
    (found : table.panelOf casts dates instruments name = some grid) :
    grid.shape = (dates.size, instruments.size) := by
  obtain ⟨column, -, rfl⟩ := Option.map_eq_some_iff.mp found
  rfl

theorem panelOf_keyed (casts : Casts) (table : LongTable) (dates instruments : Array String) :
    (table.keyed casts).panelOf casts dates instruments =
      table.panelOf casts dates instruments := by
  funext name
  rw [panelOf, panelOf, column?_keyed, keys_keyed, Option.map_map]
  refine congrArg (Option.map · _) (funext fun column => ?_)
  exact pivot_keep casts dates instruments _ _ (table.keys casts) column

/-- The axes come from the columns of dates and instruments, each on its own. -/
theorem toObservations_eq (casts : Casts) {table : LongTable} {dates instruments : Column}
    (dated : table.column? "date" = some dates)
    (named : table.column? "instrument" = some instruments) :
    table.toObservations casts =
      collect (labels (casts.texts dates)).size (labels (casts.texts instruments)).size
        (table.panelOf casts (labels (casts.texts dates)) (labels (casts.texts instruments))) := by
  have keys := keys_eq casts dated named
  rw [toObservations, collect, dated, named]
  simp only [pure_bind]
  congr 1
  · rw [insertAll]
    congr 1
    funext set name
    rw [panelOf, keys]
    cases table.column? name <;> rfl
  · funext set
    rw [insertForward, panelOf, keys]
    cases table.column? "fwd_ret" <;> rfl

theorem insertAll_cons (panelOf : String → Option (Grid Float))
    (set : FeatureSet Float periods instruments) (name : String) (names : List String) :
    insertAll panelOf set (name :: names) =
      (match panelOf name with
        | some grid => set.insert name grid
        | none => pure set) >>= fun set => insertAll panelOf set names :=
  rfl

theorem checkShape_eq_ok {α : Type} {grid : Grid α}
    (fits : grid.shape = (periods, instruments)) (name : String) :
    ∃ panel : Panel α periods instruments, FeatureSet.checkShape name grid = .ok panel := by
  obtain ⟨gridPeriods, gridInstruments, panel⟩ := grid
  obtain ⟨rfl, rfl⟩ := Prod.mk.inj fits
  exact ⟨panel, by simp [FeatureSet.checkShape, Grid.fit?]⟩

theorem insert_eq_ok {set final : FeatureSet Float periods instruments} {name : String}
    {grid : Grid Float} (inserted : set.insert name grid = .ok final) :
    ∃ panel, final = { set with
      panels := FeatureSet.insertSorted (upperName name) panel set.panels } := by
  obtain ⟨panel, -, given⟩ := (Result.bind_eq_ok_iff _ _ _).mp inserted
  cases given
  exact ⟨panel, rfl⟩

theorem insertSorted_names {β γ : Type} (name : String) (value : β) (other : γ)
    {entries : List (String × β)} {others : List (String × γ)}
    (same : entries.map Prod.fst = others.map Prod.fst) :
    (FeatureSet.insertSorted name value entries).map Prod.fst =
      (FeatureSet.insertSorted name other others).map Prod.fst := by
  induction entries generalizing others with
  | nil =>
    rw [List.map_nil] at same
    rw [List.map_eq_nil_iff.mp same.symm]
    rfl
  | cons head entries ih =>
    cases others with
    | nil => cases same
    | cons otherHead others =>
      obtain ⟨first, rest⟩ := List.cons.inj same
      simp only [FeatureSet.insertSorted, first]
      by_cases here : name = otherHead.1
      · simpa [here] using rest
      · by_cases before : name < otherHead.1
        · simpa [here, before, first] using rest
        · simpa [here, before, first] using ih rest

/-- The same names go into the sets of two grids, if the panels of the second one have its
counts. -/
theorem insertAll_names {panelOf others : String → Option (Grid Float)}
    (sameNames : ∀ name, (panelOf name).isSome = (others name).isSome)
    (fits : ∀ name grid, others name = some grid →
      grid.shape = (otherPeriods, otherInstruments)) (names : List String)
    {set final : FeatureSet Float periods instruments}
    {other : FeatureSet Float otherPeriods otherInstruments} (same : set.names = other.names)
    (inserted : insertAll panelOf set names = .ok final) :
    ∃ otherFinal, insertAll others other names = .ok otherFinal ∧
      final.names = otherFinal.names := by
  induction names generalizing set other with
  | nil =>
    cases inserted
    exact ⟨other, rfl, same⟩
  | cons name names ih =>
    rw [insertAll_cons] at inserted ⊢
    have present := sameNames name
    cases grid? : panelOf name with
    | none =>
      have absent : others name = none := by simpa [grid?] using present
      rw [grid?] at inserted
      rw [absent]
      exact ih same inserted
    | some grid =>
      obtain ⟨otherGrid, other?⟩ : ∃ otherGrid, others name = some otherGrid :=
        Option.isSome_iff_exists.mp (by rw [← present, grid?]; rfl)
      obtain ⟨otherPanel, checked⟩ := checkShape_eq_ok (fits name otherGrid other?) name
      rw [grid?] at inserted
      obtain ⟨next, first, rest⟩ := (Result.bind_eq_ok_iff _ _ _).mp inserted
      obtain ⟨panel, rfl⟩ := insert_eq_ok first
      rw [other?]
      simp only [FeatureSet.insert, checked]
      have names : FeatureSet.names { set with
            panels := FeatureSet.insertSorted (upperName name) panel set.panels } =
          FeatureSet.names { other with
            panels := FeatureSet.insertSorted (upperName name) otherPanel other.panels } :=
        insertSorted_names (upperName name) panel otherPanel same
      exact ih names rest

theorem insertForward_names {panelOf others : String → Option (Grid Float)}
    (fits : ∀ name grid, others name = some grid →
      grid.shape = (otherPeriods, otherInstruments))
    {set final : FeatureSet Float periods instruments}
    {other : FeatureSet Float otherPeriods otherInstruments} (same : set.names = other.names)
    (inserted : insertForward panelOf set = .ok final) :
    ∃ otherFinal, insertForward others other = .ok otherFinal ∧
      final.names = otherFinal.names := by
  have kept : final.names = set.names := by
    rw [insertForward] at inserted
    split at inserted
    · obtain ⟨panel, -, given⟩ := (Result.bind_eq_ok_iff _ _ _).mp inserted
      cases given
      rfl
    · cases inserted
      rfl
  cases other? : others "fwd_ret" with
  | none => exact ⟨other, by rw [insertForward, other?]; rfl, kept.trans same⟩
  | some grid =>
    obtain ⟨panel, checked⟩ := checkShape_eq_ok (fits _ grid other?) "forward_returns"
    refine ⟨{ other with explicitForward := some panel }, ?_, kept.trans same⟩
    rw [insertForward, other?]
    simp only [FeatureSet.setForward, checked]
    rfl

theorem complete_eq_ok_iff (set : FeatureSet Float periods instruments)
    (features : Observations Float) :
    complete set = .ok features ↔
      requiredFeatures.find? (fun name => !set.contains name) = none ∧
        ⟨periods, instruments, set⟩ = features := by
  rw [complete]
  split <;> simp_all [throw, throwThe, MonadExceptOf.throw, pure, Except.pure]

theorem collect_shape {panelOf : String → Option (Grid Float)} {features : Observations Float}
    (collected : collect periods instruments panelOf = .ok features) :
    features.periods = periods ∧ features.instruments = instruments := by
  obtain ⟨named, -, collected⟩ := (Result.bind_eq_ok_iff _ _ _).mp collected
  obtain ⟨set, -, completed⟩ := (Result.bind_eq_ok_iff _ _ _).mp collected
  obtain ⟨-, rfl⟩ := (complete_eq_ok_iff set features).mp completed
  exact ⟨rfl, rfl⟩

theorem exists_collect {panelOf others : String → Option (Grid Float)}
    {features : Observations Float}
    (sameNames : ∀ name, (panelOf name).isSome = (others name).isSome)
    (fits : ∀ name grid, others name = some grid →
      grid.shape = (otherPeriods, otherInstruments))
    (collected : collect periods instruments panelOf = .ok features) :
    ∃ otherFeatures, collect otherPeriods otherInstruments others = .ok otherFeatures := by
  obtain ⟨named, inserted, collected⟩ := (Result.bind_eq_ok_iff _ _ _).mp collected
  obtain ⟨set, forward, completed⟩ := (Result.bind_eq_ok_iff _ _ _).mp collected
  obtain ⟨required, -⟩ := (complete_eq_ok_iff set features).mp completed
  have empty : (FeatureSet.empty : FeatureSet Float periods instruments).names =
      (FeatureSet.empty : FeatureSet Float otherPeriods otherInstruments).names := rfl
  obtain ⟨otherNamed, otherInserted, same⟩ := insertAll_names sameNames fits _ empty inserted
  obtain ⟨otherSet, otherForward, names⟩ := insertForward_names fits same forward
  refine ⟨⟨otherPeriods, otherInstruments, otherSet⟩, ?_⟩
  refine (Result.bind_eq_ok_iff _ _ _).mpr ⟨otherNamed, otherInserted, ?_⟩
  refine (Result.bind_eq_ok_iff _ _ _).mpr ⟨otherSet, otherForward, ?_⟩
  refine (complete_eq_ok_iff otherSet _).mpr ⟨?_, rfl⟩
  rw [← required]
  simp only [FeatureSet.contains, names]

end Collect

theorem exists_columns {casts : Casts} {table : LongTable} {features : Observations Float}
    (accepted : table.toObservations casts = .ok features) :
    ∃ dates instruments, table.column? "date" = some dates ∧
      table.column? "instrument" = some instruments := by
  rw [toObservations] at accepted
  cases dated : table.column? "date" with
  | none => rw [dated] at accepted; cases accepted
  | some dates =>
    cases named : table.column? "instrument" with
    | none => rw [dated, named] at accepted; cases accepted
    | some instruments => exact ⟨dates, instruments, rfl, rfl⟩

theorem exists_collect_panelOf {casts : Casts} {table : LongTable}
    {dates instruments : Array String} {features : Observations Float}
    (collected : collect dates.size instruments.size (table.panelOf casts dates instruments) =
      .ok features) (otherDates otherInstruments : Array String) :
    ∃ otherFeatures, collect otherDates.size otherInstruments.size
      (table.panelOf casts otherDates otherInstruments) = .ok otherFeatures :=
  exists_collect (fun name => by simp [panelOf]) (fun _ _ => panelOf_shape) collected

theorem keyed_toObservations_eq (casts : Casts) {table : LongTable} {dates instruments : Column}
    (dated : table.column? "date" = some dates)
    (named : table.column? "instrument" = some instruments) :
    let keptDates := labels (keep ((table.keys casts).map hasKey) (casts.texts dates))
    let keptInstruments := labels (keep ((table.keys casts).map hasKey) (casts.texts instruments))
    (table.keyed casts).toObservations casts =
      collect keptDates.size keptInstruments.size
        (table.panelOf casts keptDates keptInstruments) := by
  have keptDates := (column?_keyed casts table "date").trans (congrArg _ dated)
  have keptInstruments := (column?_keyed casts table "instrument").trans (congrArg _ named)
  have read := toObservations_eq casts keptDates keptInstruments
  rwa [texts_keep, texts_keep, panelOf_keyed] at read

/-- A table that is read is also read without its rows that lack a key, and the same way exactly
when no date and no instrument occurs in such rows alone. -/
theorem keyed_eq_iff_paired {casts : Casts} {table : LongTable} {features : Observations Float}
    (accepted : table.toObservations casts = .ok features) :
    ∃ kept, (table.keyed casts).toObservations casts = .ok kept ∧
      (kept = features ↔ table.Paired casts) := by
  obtain ⟨dates, instruments, dated, named⟩ := exists_columns accepted
  have keys := keys_eq casts dated named
  have collected := (toObservations_eq casts dated named).symm.trans accepted
  have recollected := keyed_toObservations_eq casts dated named
  obtain ⟨kept, reread⟩ := exists_collect_panelOf collected
    (labels (keep ((table.keys casts).map hasKey) (casts.texts dates)))
    (labels (keep ((table.keys casts).map hasKey) (casts.texts instruments)))
  refine ⟨kept, recollected.trans reread, ?_⟩
  constructor
  · rintro rfl
    have size := collect_shape collected
    have resize := collect_shape reread
    refine ⟨fun column same date member => ?_, fun column same instrument member => ?_⟩
    · cases dated.symm.trans same
      have kept := mem_of_size_labels (keep_subset _ _) (resize.1.symm.trans size.1) member
      rw [keys] at kept ⊢
      exact mem_keep_fst.mp kept
    · cases named.symm.trans same
      have kept := mem_of_size_labels (keep_subset _ _) (resize.2.symm.trans size.2) member
      rw [keys] at kept ⊢
      exact mem_keep_snd.mp kept
  · rintro ⟨everyDate, everyInstrument⟩
    rw [keys] at everyDate everyInstrument reread
    have sameDates := labels_eq fun date => ⟨fun member => keep_subset _ _ member, fun member =>
      mem_keep_fst.mpr (everyDate dates dated date member)⟩
    have sameInstruments := labels_eq fun instrument => ⟨fun member => keep_subset _ _ member,
      fun member => mem_keep_snd.mpr (everyInstrument instruments named instrument member)⟩
    rw [sameDates, sameInstruments, collected] at reread
    exact (Except.ok.inj reread).symm

/-- A table whose second date names no instrument. -/
def orphan : LongTable :=
  ⟨[⟨"date", [some (.text "d1"), some (.text "d2")]⟩,
    ⟨"instrument", [some (.text "A"), none]⟩,
    ⟨"RET", [some (.real 1), some (.real 1)]⟩,
    ⟨"VOL", [some (.real 1), some (.real 1)]⟩,
    ⟨"VOLUME_CHG", [some (.real 1), some (.real 1)]⟩,
    ⟨"TURNOVER", [some (.real 1), some (.real 1)]⟩]⟩

theorem orphan_dates :
    orphan.column? "date" = some ⟨"date", [some (.text "d1"), some (.text "d2")]⟩ := by
  rfl

theorem orphan_instruments :
    orphan.column? "instrument" = some ⟨"instrument", [some (.text "A"), none]⟩ := by
  rfl

theorem exists_collect_orphan (dates instruments : Array String) :
    ∃ features, collect dates.size instruments.size (orphan.panelOf {} dates instruments) =
      .ok features := by
  have bare : ∃ features, collect (#[] : Array String).size (#[] : Array String).size
      (orphan.panelOf {} #[] #[]) = .ok features := ⟨_, rfl⟩
  obtain ⟨_, collected⟩ := bare
  exact exists_collect_panelOf collected dates instruments

theorem orphan_read : ∃ features, orphan.toObservations = .ok features ∧
    ∃ kept, (orphan.keyed {}).toObservations = .ok kept ∧ (kept = features ↔ orphan.Paired {}) := by
  obtain ⟨features, collected⟩ := exists_collect_orphan _ _
  have accepted := (toObservations_eq {} orphan_dates orphan_instruments).trans collected
  exact ⟨features, accepted, keyed_eq_iff_paired accepted⟩

/-- The second date is a period of the table, and is none without its row. -/
theorem orphan_loses_period : ∃ features kept, orphan.toObservations = .ok features ∧
    (orphan.keyed {}).toObservations = .ok kept ∧ features.periods = 2 ∧ kept.periods = 1 := by
  obtain ⟨features, collected⟩ := exists_collect_orphan _ _
  obtain ⟨kept, recollected⟩ := exists_collect_orphan _ _
  refine ⟨features, kept, (toObservations_eq {} orphan_dates orphan_instruments).trans collected,
    (keyed_toObservations_eq {} orphan_dates orphan_instruments).trans recollected, ?_, ?_⟩
  · rw [(collect_shape collected).1]
    simp [Casts.texts, Cell.asText, labels, List.mergeSort, dropRepeats]
  · have one : keep ((orphan.keys {}).map hasKey) (Casts.texts {} ⟨"date", [some (.text "d1"),
        some (.text "d2")]⟩) = [some "d1"] := by rfl
    rw [(collect_shape recollected).1, one]
    simp [labels, dropRepeats]

end LongTable

end FactorSearch
