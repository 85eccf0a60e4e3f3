import FactorSearch.Proofs.Market.Keys
import FactorSearch.Proofs.Text.ByteOrder

/-!
# Cells of a long table

The cell of a date and an instrument is the last value that rows with both of them bring.  When no
two rows have the same date and instrument there is one such value at most, so the order of the rows
does not show.
-/

set_option autoImplicit false

namespace FactorSearch

/-! ## Entries under their names -/

namespace FeatureSet

variable {periods instruments : Nat}

theorem lookup_cons_ite {β : Type} (wanted first : String) (held : β) (rest : List (String × β)) :
    ((first, held) :: rest).lookup wanted =
      if wanted = first then some held else rest.lookup wanted := by
  rw [List.lookup_cons]
  by_cases here : wanted = first
  · rw [if_pos here, beq_iff_eq.mpr here]
  · rw [if_neg here, beq_eq_false_iff_ne.mpr here]

theorem lookup_insertSorted {β : Type} (name wanted : String) (value : β)
    (entries : List (String × β)) :
    (insertSorted name value entries).lookup wanted =
      if wanted = name then some value else entries.lookup wanted := by
  induction entries with
  | nil => exact lookup_cons_ite wanted name value []
  | cons head entries ih =>
    obtain ⟨first, held⟩ := head
    rw [insertSorted, lookup_cons_ite]
    by_cases same : name = first
    · subst same
      rw [if_pos rfl, lookup_cons_ite]
      by_cases here : wanted = name
      · rw [if_pos here, if_pos here]
      · rw [if_neg here, if_neg here, if_neg here]
    · rw [if_neg same]
      by_cases before : name < first
      · rw [if_pos before, lookup_cons_ite, lookup_cons_ite]
      · rw [if_neg before, lookup_cons_ite, ih]
        by_cases there : wanted = first
        · subst there
          rw [if_pos rfl, if_neg (Ne.symm same), if_pos rfl]
        · rw [if_neg there, if_neg there]

theorem insert_own (set : FeatureSet Float periods instruments) (name : String)
    (panel : Panel Float periods instruments) :
    set.insert name ⟨periods, instruments, panel⟩ =
      .ok { set with panels := insertSorted (upperName name) panel set.panels } := by
  simp [insert, checkShape, Grid.fit?, bind, Except.bind, pure, Except.pure]

end FeatureSet

namespace LongTable

/-! ## Last values -/

section Latest

variable {κ β : Type} [DecidableEq κ]

def latest? (wanted : κ) (rows : List (κ × Option β)) : Option β :=
  (rows.filterMap fun row => if row.1 = wanted then row.2 else none).getLast?

theorem latest?_singleton (wanted key : κ) (value : Option β) :
    latest? wanted [(key, value)] = if key = wanted then value else none := by
  by_cases here : key = wanted
  · cases value <;> simp [latest?, here]
  · simp [latest?, here]

theorem latest?_concat (wanted : κ) (rows : List (κ × Option β)) (row : κ × Option β) :
    latest? wanted (rows ++ [row]) = (latest? wanted [row]).or (latest? wanted rows) := by
  rw [latest?, List.filterMap_append, List.getLast?_append, ← latest?, ← latest?]

/-- Keys may be renamed, if none becomes the one that is wanted. -/
theorem latest?_map_key {ι : Type} [DecidableEq ι] (f : κ → ι) (wanted : κ) (name : ι)
    (faithful : ∀ key, f key = name ↔ key = wanted) (keys : List κ) (values : List (Option β)) :
    latest? name ((keys.map f).zip values) = latest? wanted (keys.zip values) := by
  rw [latest?, latest?, List.zip_map_left, List.filterMap_map]
  congr 2
  funext row
  simp only [Function.comp_apply, Prod.map_fst, Prod.map_snd, id, faithful]

theorem length_values_le [BEq κ] [LawfulBEq κ] (wanted : κ) (rows : List (κ × Option β)) :
    (rows.filterMap fun row => if row.1 = wanted then row.2 else none).length ≤
      (rows.map Prod.fst).count wanted := by
  induction rows with
  | nil => exact Nat.le_refl 0
  | cons row rows ih =>
    obtain ⟨key, value⟩ := row
    rw [List.map_cons, List.count_cons]
    by_cases here : key = wanted
    · cases value <;> simp [here] <;> omega
    · simp [here, ih]

theorem latest?_perm [BEq κ] [LawfulBEq κ] {wanted : κ} {rows others : List (κ × Option β)}
    (perm : rows.Perm others) (once : (rows.map Prod.fst).count wanted ≤ 1) :
    latest? wanted rows = latest? wanted others := by
  have values := perm.filterMap fun row => if row.1 = wanted then row.2 else none
  have single := (length_values_le wanted rows).trans once
  rw [latest?, latest?]
  generalize rows.filterMap _ = before at values single
  match before with
  | [] => rw [List.nil_perm.mp values]
  | [value] => rw [List.singleton_perm.mp values]
  | _ :: _ :: _ => simp at single

end Latest

/-! ## Filling -/

theorem fill_concat (width : Nat) (cells : Array Float)
    (rows : List (Option (Nat × Nat) × Option Float)) (row : Option (Nat × Nat) × Option Float) :
    fill width cells (rows ++ [row]) = fill width (fill width cells rows) [row] := by
  rw [fill, List.foldl_append]
  rfl

theorem size_fill (width : Nat) (cells : Array Float)
    (rows : List (Option (Nat × Nat) × Option Float)) :
    (fill width cells rows).size = cells.size := by
  induction rows generalizing cells with
  | nil => rfl
  | cons row rows ih =>
    rw [fill, List.foldl_cons]
    refine (ih _).trans ?_
    obtain ⟨_ | ⟨t, i⟩, _ | value⟩ := row
    · rfl
    · rfl
    · rfl
    · exact Array.size_setIfInBounds

theorem flat_inj {width t i s j : Nat} (inside : i < width) (within : j < width) :
    t * width + i = s * width + j ↔ t = s ∧ i = j := by
  constructor
  · intro same
    have column := congrArg (· % width) same
    simp only [Nat.mul_add_mod', Nat.mod_eq_of_lt inside, Nat.mod_eq_of_lt within] at column
    refine ⟨Nat.eq_of_mul_eq_mul_right (Nat.zero_lt_of_lt inside) ?_, column⟩
    omega
  · rintro ⟨rfl, rfl⟩
    rfl

/-- A row with a value writes it into the cell of its place, and into no other. -/
theorem getElem?_fill_row {width t i : Nat} (cells : Array Float) (inside : i < width)
    (within : t * width + i < cells.size) (row : Option (Nat × Nat) × Option Float)
    (place : ∀ s j, row.1 = some (s, j) → j < width) :
    (fill width cells [row])[t * width + i]? =
      (latest? (some (t, i)) [row]).or cells[t * width + i]? := by
  obtain ⟨_ | ⟨s, j⟩, _ | value⟩ := row
  · rfl
  · rfl
  · rw [latest?_singleton, ite_self]
    rfl
  · have column := place s j rfl
    have written : fill width cells [(some (s, j), some value)] =
      cells.setIfInBounds (s * width + j) value := rfl
    rw [written, Array.getElem?_setIfInBounds, latest?_singleton]
    by_cases here : s = t ∧ j = i
    · obtain ⟨rfl, rfl⟩ := here
      rw [if_pos rfl, if_pos within, if_pos rfl, Option.some_or]
    · have elsewhere : ¬ s * width + j = t * width + i := by
        intro same
        exact here ((flat_inj column inside).mp same)
      have other : ¬ some (s, j) = some (t, i) := by
        intro same
        cases same
        exact here ⟨rfl, rfl⟩
      rw [if_neg elsewhere, if_neg other, Option.none_or]

/-- The last value for a place is in its cell, and a place without value keeps its cell.  The
induction takes the rows from the end, where the last one wins. -/
theorem getElem?_fill {width t i : Nat} (cells : Array Float) (inside : i < width)
    (within : t * width + i < cells.size) (rows : List (Option (Nat × Nat) × Option Float))
    (places : ∀ row ∈ rows, ∀ s j, row.1 = some (s, j) → j < width) :
    (fill width cells rows)[t * width + i]? =
      (latest? (some (t, i)) rows).or cells[t * width + i]? := by
  induction rows using List.reverseRecOn with
  | nil => rfl
  | append_singleton rows row ih =>
    have before := ih fun row member => places row (List.mem_append_left _ member)
    have last := places row (List.mem_append_right _ (List.mem_singleton_self row))
    have still : t * width + i < (fill width cells rows).size := by rwa [size_fill]
    rw [fill_concat, getElem?_fill_row _ inside still row last, before, latest?_concat,
      Option.or_assoc]

/-! ## Places -/

theorem idxOf?_eq_some_iff {labels : Array String} (distinct : labels.toList.Nodup) (text : String)
    (t : Nat) : labels.idxOf? text = some t ↔ labels[t]? = some text := by
  rw [← Array.idxOf?_toList, List.idxOf?_eq_some_iff, ← Array.getElem?_toList,
    List.getElem?_eq_some_iff]
  constructor
  · rintro ⟨inside, here, _⟩
    exact ⟨inside, here⟩
  · rintro ⟨inside, here⟩
    refine ⟨inside, here, fun s before same => ?_⟩
    have := (distinct.getElem_inj_iff).mp (same.trans here.symm)
    omega

theorem place?_eq_some_iff {dates instruments : Array String} (dated : dates.toList.Nodup)
    (named : instruments.toList.Nodup) (key : Option String × Option String) (t i : Nat) :
    place? dates instruments key = some (t, i) ↔
      ∃ date instrument, dates[t]? = some date ∧ instruments[i]? = some instrument ∧
        key = (some date, some instrument) := by
  obtain ⟨_ | date, _ | instrument⟩ := key
  · simp [place?]
  · simp [place?]
  · simp [place?]
  · simp only [place?, Prod.mk.injEq, Option.some.injEq, ← idxOf?_eq_some_iff dated,
      ← idxOf?_eq_some_iff named]
    constructor
    · intro found
      split at found
      · rename_i period column here there
        cases found
        exact ⟨date, instrument, here, there, rfl, rfl⟩
      · cases found
    · rintro ⟨_, _, here, there, rfl, rfl⟩
      rw [here, there]

/-- The last value of a column for a date and an instrument; missing without any. -/
def pivoted (casts : Casts) (keys : List (Option String × Option String)) (column : Column)
    (date instrument : String) : Float :=
  (latest? (some date, some instrument) (keys.zip (casts.numbers column))).getD Scalar.nan

theorem pivot_eq (casts : Casts) {dates instruments : Array String} (dated : dates.toList.Nodup)
    (named : instruments.toList.Nodup) (keys : List (Option String × Option String))
    (column : Column) :
    pivot casts dates.size instruments.size (keys.map (place? dates instruments)) column =
      ⟨dates.size, instruments.size,
        Panel.ofFn fun t i => pivoted casts keys column dates[t] instruments[i]⟩ := by
  rw [pivot]
  congr 2
  funext t i
  have within : t.val * instruments.size + i.val < dates.size * instruments.size :=
    calc t.val * instruments.size + i.val
      _ < (t.val + 1) * instruments.size := by rw [Nat.succ_mul]; omega
      _ ≤ dates.size * instruments.size := Nat.mul_le_mul_right _ t.isLt
  have places : ∀ row ∈ (keys.map (place? dates instruments)).zip (casts.numbers column), ∀ s j,
      row.1 = some (s, j) → j < instruments.size := by
    intro row member s j place
    obtain ⟨key, _, same⟩ := List.mem_map.mp (List.of_mem_zip member).1
    obtain ⟨_, _, _, there, _⟩ := (place?_eq_some_iff dated named key s j).mp (same.trans place)
    exact (Array.getElem?_eq_some_iff.mp there).1
  have renamed := latest?_map_key (place? dates instruments)
    (some dates[t], some instruments[i]) (some (t.val, i.val))
    (fun key => (place?_eq_some_iff dated named key t i).trans (by simp)) keys
    (casts.numbers column)
  rw [getElem?_fill _ i.isLt (by simpa using within) _ places, renamed, pivoted,
    Array.getElem?_replicate, if_pos within, Option.getD_or, Option.getD_some]

/-! ## Panels under their names -/

section Panels

variable {periods instruments : Nat} {panelOf : String → Option (Grid Float)}

theorem insertAll_lookup {wanted : String} {panel : Panel Float periods instruments}
    (names : List String)
    (agree : ∀ name ∈ names, upperName name = wanted →
      panelOf name = some ⟨periods, instruments, panel⟩)
    {set final : FeatureSet Float periods instruments}
    (inserted : insertAll panelOf set names = .ok final)
    (there : (∃ name ∈ names, upperName name = wanted) ∨
      set.panels.lookup wanted = some panel) :
    final.panels.lookup wanted = some panel := by
  induction names generalizing set with
  | nil =>
    cases inserted
    rcases there with ⟨name, member, _⟩ | found
    · exact absurd member List.not_mem_nil
    · exact found
  | cons name names ih =>
    rw [insertAll_cons] at inserted
    have later := fun name member => agree name (List.mem_cons_of_mem _ member)
    by_cases here : upperName name = wanted
    · rw [agree name List.mem_cons_self here] at inserted
      simp only [FeatureSet.insert_own] at inserted
      refine ih later inserted (Or.inr ?_)
      rw [FeatureSet.lookup_insertSorted, if_pos here.symm]
    · have kept : ∀ next : FeatureSet Float periods instruments,
          next.panels.lookup wanted = set.panels.lookup wanted →
            (∃ name ∈ names, upperName name = wanted) ∨
              next.panels.lookup wanted = some panel := by
        intro next same
        rw [same]
        refine there.imp_left ?_
        rintro ⟨other, member, named⟩
        rcases List.mem_cons.mp member with rfl | member
        · exact absurd named here
        · exact ⟨other, member, named⟩
      cases grid? : panelOf name with
      | none =>
        rw [grid?] at inserted
        exact ih later inserted (kept set rfl)
      | some grid =>
        rw [grid?] at inserted
        obtain ⟨next, first, rest⟩ := (Result.bind_eq_ok_iff _ _ _).mp inserted
        obtain ⟨other, rfl⟩ := insert_eq_ok first
        refine ih later rest (kept _ ?_)
        rw [FeatureSet.lookup_insertSorted, if_neg (Ne.symm here)]

theorem upperName_feature :
    ∀ name ∈ requiredFeatures ++ sentimentFeatures, upperName name = name := by
  decide

theorem collect_panels {features : Observations Float}
    (collected : collect periods instruments panelOf = .ok features) :
    ∃ set : FeatureSet Float periods instruments, features = ⟨periods, instruments, set⟩ ∧
      (∀ name ∈ requiredFeatures ++ sentimentFeatures, ∀ panel,
        panelOf name = some ⟨periods, instruments, panel⟩ → set.panel name = .ok panel) ∧
      ∀ panel, panelOf "fwd_ret" = some ⟨periods, instruments, panel⟩ →
        set.explicitForward = some panel := by
  obtain ⟨named, inserted, collected⟩ := (Result.bind_eq_ok_iff _ _ _).mp collected
  obtain ⟨set, forward, completed⟩ := (Result.bind_eq_ok_iff _ _ _).mp collected
  obtain ⟨-, rfl⟩ := (complete_eq_ok_iff set features).mp completed
  have lookups : set.panels = named.panels := by
    rw [insertForward] at forward
    split at forward
    · obtain ⟨panel, -, given⟩ := (Result.bind_eq_ok_iff _ _ _).mp forward
      cases given
      rfl
    · cases forward
      rfl
  refine ⟨set, rfl, ?features, ?forward⟩
  case features =>
    intro name member panel found
    have here : named.panels.lookup (upperName name) = some panel := by
      refine insertAll_lookup _ ?_ inserted (Or.inl ⟨name, member, rfl⟩)
      intro other among same
      rw [upperName_feature other among, upperName_feature name member] at same
      rw [same, found]
    rw [FeatureSet.panel, lookups, here]
  case forward =>
    intro panel found
    rw [insertForward, found] at forward
    simp only [FeatureSet.setForward, FeatureSet.checkShape, Grid.fit?] at forward
    cases forward
    rfl

end Panels

/-! ## Reordered rows -/

def reordered (table : LongTable) {height : Nat} (order : Equiv.Perm (Fin height)) : LongTable :=
  ⟨table.columns.map fun column =>
    ⟨column.name, List.ofFn fun r => (column.cells[(order r).val]?).join⟩⟩

/-- Two lists hold the same elements, the second one in the given order. -/
def Reorders {α : Type} {height : Nat} (order : Equiv.Perm (Fin height)) (first second : List α) :
    Prop :=
  ∃ element : Fin height → α, first = List.ofFn element ∧ second = List.ofFn (element ∘ order)

namespace Reorders

variable {α β : Type} {height : Nat} {order : Equiv.Perm (Fin height)}

theorem cells (cells : List (Option α)) (size : cells.length = height) :
    Reorders order cells (List.ofFn fun r => (cells[(order r).val]?).join) := by
  subst size
  refine ⟨cells.get, (List.ofFn_get cells).symm, ?_⟩
  congr 1
  funext r
  simp

theorem map (f : α → β) {first second : List α} (same : Reorders order first second) :
    Reorders order (first.map f) (second.map f) := by
  obtain ⟨element, rfl, rfl⟩ := same
  exact ⟨f ∘ element, List.map_ofFn .., List.map_ofFn ..⟩

theorem zip_ofFn (f : Fin height → α) (g : Fin height → β) :
    (List.ofFn f).zip (List.ofFn g) = List.ofFn fun r => (f r, g r) := by
  apply List.ext_getElem
  · simp
  · intro r _ _
    simp

theorem zip {first second : List α} {others elsewhere : List β}
    (same : Reorders order first second) (also_same : Reorders order others elsewhere) :
    Reorders order (first.zip others) (second.zip elsewhere) := by
  obtain ⟨element, rfl, rfl⟩ := same
  obtain ⟨other, rfl, rfl⟩ := also_same
  exact ⟨fun r => (element r, other r), zip_ofFn .., zip_ofFn ..⟩

theorem perm {first second : List α} (same : Reorders order first second) :
    second.Perm first := by
  obtain ⟨element, rfl, rfl⟩ := same
  exact Equiv.Perm.ofFn_comp_perm order element

theorem length {first second : List α} (same : Reorders order first second) :
    first.length = height := by
  obtain ⟨element, rfl, _⟩ := same
  exact List.length_ofFn

end Reorders

section Reordered

variable {casts : Casts} {table : LongTable} {height : Nat} {order : Equiv.Perm (Fin height)}

theorem column?_reordered (table : LongTable) (order : Equiv.Perm (Fin height)) (name : String) :
    (table.reordered order).column? name = (table.column? name).map fun column =>
      ⟨column.name, List.ofFn fun r => (column.cells[(order r).val]?).join⟩ := by
  rw [column?, reordered, List.find?_map]
  rfl

theorem exists_reordered (order : Equiv.Perm (Fin height))
    (level : ∀ column ∈ table.columns, column.cells.length = height)
    {name : String} {column : Column} (found : table.column? name = some column) :
    ∃ other, (table.reordered order).column? name = some other ∧
      Reorders order column.cells other.cells := by
  refine ⟨_, (column?_reordered table order name).trans (congrArg _ found), ?_⟩
  exact Reorders.cells column.cells (level column (List.mem_of_find?_eq_some found))

/-- A column has the same cells after the rows are reordered, if each key is that of one row. -/
theorem pivoted_reordered {keys others : List (Option String × Option String)}
    (keyed : Reorders order keys others) (distinct : (keys.filter hasKey).Nodup)
    {column other : Column} (valued : Reorders order column.cells other.cells)
    (date instrument : String) :
    pivoted casts others other date instrument = pivoted casts keys column date instrument := by
  have rows : Reorders order (keys.zip (casts.numbers column)) (others.zip (casts.numbers other)) :=
    keyed.zip (valued.map fun cell : Option Cell => cell.bind casts.real?)
  have fits : keys.length ≤ (casts.numbers column).length := by
    rw [Casts.numbers, List.length_map, keyed.length, valued.length]
  have once :
      ((keys.zip (casts.numbers column)).map Prod.fst).count (some date, some instrument) ≤ 1 := by
    rw [List.map_fst_zip fits, ← List.count_filter (p := hasKey) rfl]
    exact List.nodup_iff_count_le_one.mp distinct _
  rw [pivoted, pivoted, latest?_perm rows.perm.symm once]

theorem panelOf_reordered {dates instruments : Array String} (dated : dates.toList.Nodup)
    (named : instruments.toList.Nodup)
    (level : ∀ column ∈ table.columns, column.cells.length = height)
    (keyed : Reorders order (table.keys casts) ((table.reordered order).keys casts))
    (distinct : ((table.keys casts).filter hasKey).Nodup) :
    (table.reordered order).panelOf casts dates instruments =
      table.panelOf casts dates instruments := by
  funext name
  cases found : table.column? name with
  | none =>
    rw [panelOf, panelOf, column?_reordered, found, Option.map_none, Option.map_none,
      Option.map_none]
  | some column =>
    obtain ⟨other, found', valued⟩ := exists_reordered order level found
    rw [panelOf, panelOf, found, found', Option.map_some, Option.map_some,
      pivot_eq casts dated named, pivot_eq casts dated named]
    congr 3
    funext t i
    exact pivoted_reordered keyed distinct valued _ _

end Reordered

/-! ## Reading a table -/

theorem toObservations_reordered {casts : Casts} {table : LongTable} {height : Nat}
    {features : Observations Float} (accepted : table.toObservations casts = .ok features)
    (order : Equiv.Perm (Fin height))
    (level : ∀ column ∈ table.columns, column.cells.length = height)
    (distinct : ((table.keys casts).filter hasKey).Nodup) :
    (table.reordered order).toObservations casts = .ok features := by
  obtain ⟨dates, instruments, dated, named⟩ := exists_columns accepted
  obtain ⟨dates', dated', dateCells⟩ := exists_reordered order level dated
  obtain ⟨instruments', named', instrumentCells⟩ := exists_reordered order level named
  have dateTexts := dateCells.map fun cell => cell.bind casts.text?
  have instrumentTexts := instrumentCells.map fun cell => cell.bind casts.text?
  have keyed : Reorders order (table.keys casts) ((table.reordered order).keys casts) := by
    rw [keys_eq casts dated named, keys_eq casts dated' named']
    exact dateTexts.zip instrumentTexts
  have sameDates : labels (casts.texts dates') = labels (casts.texts dates) :=
    labels_eq fun _ => dateTexts.perm.mem_iff
  have sameInstruments : labels (casts.texts instruments') = labels (casts.texts instruments) :=
    labels_eq fun _ => instrumentTexts.perm.mem_iff
  rw [toObservations_eq casts dated' named', sameDates, sameInstruments,
    panelOf_reordered (nodup_labels _) (nodup_labels _) level keyed distinct,
    ← toObservations_eq casts dated named, accepted]

/-- The texts of a column along an axis: each of them once, in ascending order of their bytes. -/
structure IsAxis (texts : List (Option String)) {count : Nat} (labels : Fin count → String) :
    Prop where
  ascending : ∀ s t, s < t → utf8 (labels s) < utf8 (labels t)
  mem_iff : ∀ text, (∃ t, labels t = text) ↔ some text ∈ texts

theorem isAxis_labels (texts : List (Option String)) :
    IsAxis texts fun t : Fin (labels texts).size => (labels texts)[t] where
  ascending := by
    intro s t before
    have sorted := List.pairwise_iff_getElem.mp (labels_pairwise texts)
    exact utf8_lt (sorted s t (by simp) (by simp) before)
  mem_iff := by
    intro text
    rw [← mem_labels, List.mem_iff_getElem]
    constructor
    · rintro ⟨t, rfl⟩
      exact ⟨t, by simp, by simp⟩
    · rintro ⟨t, inside, rfl⟩
      exact ⟨⟨t, by simpa using inside⟩, by simp⟩

/-- What a table that is read is turned into.  The axes hold the dates and the instruments, each of
them once and in ascending order of their bytes.  The cell of a date and an instrument is the last
value that its column has in a row of both, and missing without any.  If no two rows have the same
date and instrument, the order of the rows does not matter. -/
theorem cells_of_toObservations (casts : Casts) (table : LongTable)
    (features : Observations Float) (accepted : table.toObservations casts = .ok features) :
    ∃ (dateColumn instrumentColumn : Column) (dates : Fin features.periods → String)
      (instruments : Fin features.instruments → String),
      table.column? "date" = some dateColumn ∧ table.column? "instrument" = some instrumentColumn ∧
      IsAxis (casts.texts dateColumn) dates ∧ IsAxis (casts.texts instrumentColumn) instruments ∧
      (∀ name ∈ requiredFeatures ++ sentimentFeatures, ∀ column,
        table.column? name = some column → ∃ panel, features.features.panel name = .ok panel ∧
          ∀ t i, panel.cell t i =
            pivoted casts (table.keys casts) column (dates t) (instruments i)) ∧
      (∀ column, table.column? "fwd_ret" = some column →
        ∃ panel, features.features.explicitForward = some panel ∧
          ∀ t i, panel.cell t i =
            pivoted casts (table.keys casts) column (dates t) (instruments i)) ∧
      ∀ (height : Nat) (order : Equiv.Perm (Fin height)),
        (∀ column ∈ table.columns, column.cells.length = height) →
        ((table.keys casts).filter hasKey).Nodup →
        (table.reordered order).toObservations casts = .ok features := by
  obtain ⟨dateColumn, instrumentColumn, dated, named⟩ := exists_columns accepted
  have collected := (toObservations_eq casts dated named).symm.trans accepted
  obtain ⟨set, rfl, panels, forward⟩ := collect_panels collected
  have found : ∀ name column, table.column? name = some column →
      table.panelOf casts (labels (casts.texts dateColumn))
          (labels (casts.texts instrumentColumn)) name =
        some ⟨_, _, Panel.ofFn fun t i => pivoted casts (table.keys casts) column
          (labels (casts.texts dateColumn))[t] (labels (casts.texts instrumentColumn))[i]⟩ := by
    intro name column here
    rw [panelOf, here, Option.map_some, pivot_eq casts (nodup_labels _) (nodup_labels _)]
  refine ⟨dateColumn, instrumentColumn, _, _, dated, named, isAxis_labels _, isAxis_labels _,
    ?features, ?forward, ?order⟩
  case features =>
    intro name member column here
    exact ⟨_, panels name member _ (found name column here), fun t i => Panel.cell_ofFn ..⟩
  case forward =>
    intro column here
    exact ⟨_, forward _ (found "fwd_ret" column here), fun t i => Panel.cell_ofFn ..⟩
  case order =>
    intro height order level distinct
    exact toObservations_reordered accepted order level distinct

def restated : LongTable :=
  ⟨[⟨"date", [some (.text "d2"), some (.text "d1"), some (.text "d1"), some (.text "d1")]⟩,
    ⟨"instrument", List.replicate 4 (some (.text "A"))⟩,
    ⟨"ret", [some (.real 1), some (.real 2), some (.integer 3), none]⟩,
    ⟨"VOL", List.replicate 4 none⟩,
    ⟨"VOLUME_CHG", List.replicate 4 none⟩,
    ⟨"TURNOVER", List.replicate 4 none⟩]⟩

theorem exists_restated : ∃ features, restated.toObservations = .ok features := by
  have dated : restated.column? "date" = some restated.columns[0] := rfl
  have named : restated.column? "instrument" = some restated.columns[1] := rfl
  have bare : ∃ features, collect (#[] : Array String).size (#[] : Array String).size
      (restated.panelOf {} #[] #[]) = .ok features := ⟨_, rfl⟩
  obtain ⟨_, collected⟩ := bare
  rw [toObservations_eq {} dated named]
  exact exists_collect_panelOf collected _ _

theorem restated_cells :
    (∃ features, restated.toObservations = .ok features ∧
      ∃ (dates : Fin features.periods → String) (instruments : Fin features.instruments → String),
        IsAxis [some "d2", some "d1", some "d1", some "d1"] dates ∧
        ∃ panel, features.features.panel "RET" = .ok panel ∧
          ∀ t i, dates t = "d1" → instruments i = "A" → panel.cell t i = 3) ∧
    ∃ features, orphan.toObservations = .ok features ∧
      (orphan.reordered (Equiv.swap (0 : Fin 2) 1)).toObservations = .ok features := by
  constructor
  · obtain ⟨features, accepted⟩ := exists_restated
    obtain ⟨dateColumn, _, dates, instruments, dated, _, axis, _, panels, _⟩ :=
      cells_of_toObservations {} restated features accepted
    obtain ⟨panel, found, cells⟩ := panels "RET" (by decide) restated.columns[2] rfl
    cases dated
    refine ⟨features, accepted, dates, instruments, axis, panel, found, fun t i here there => ?_⟩
    rw [cells, here, there]
    decide +kernel
  · obtain ⟨features, collected⟩ := exists_collect_orphan _ _
    have accepted := (toObservations_eq {} orphan_dates orphan_instruments).trans collected
    obtain ⟨_, _, _, _, _, _, _, _, _, _, order⟩ :=
      cells_of_toObservations {} orphan features accepted
    exact ⟨features, accepted, order 2 _ (by decide) (by decide)⟩

end LongTable

end FactorSearch
