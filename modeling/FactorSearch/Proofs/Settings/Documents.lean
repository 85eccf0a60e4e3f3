import FactorSearch.Proofs.Settings.Codecs
import FactorSearch.Proofs.Text.Toml

/-!
# Written documents

A document is written as sections with a line for each field.  It is read as the object of its
sections, put over nothing as a layer it stays as it is, and its values mean what was written.  So
the notation that settings are kept in is lawful.
-/

set_option autoImplicit false

namespace FactorSearch

open Toml Document

theorem notMem_of_distinct {key : String} {before rest : List String}
    (distinct : (before ++ key :: rest).Nodup) : key ∉ before := by
  intro inside
  rw [List.nodup_middle, List.nodup_cons] at distinct
  exact distinct.1 (List.mem_append_left rest inside)

theorem Document.IsWord.nonempty {s : String} (word : IsWord s) : s.toList ≠ [] :=
  List.isEmpty_eq_false_iff.mp word.1

theorem Document.IsWord.letters {s : String} (word : IsWord s) :
    ∀ c ∈ s.toList, c.isLower = true ∨ c = '_' := by
  intro c member
  have letter := List.all_eq_true.mp word.2 c member
  rwa [Bool.or_eq_true, decide_eq_true_eq] at letter

theorem Document.IsWord.bare {s : String} (word : IsWord s) : IsBare s :=
  isBare_of_letters word.nonempty word.letters

namespace Layers

/-! ## Single values -/

theorem integer?_nat {n : Nat} (small : n < 2 ^ 63) : integer? (toString n) = some (n : Int) := by
  have fits : -Int.pow 2 63 ≤ (n : Int) ∧ (n : Int) < Int.pow 2 63 := by
    have limit : Int.pow 2 63 = 2 ^ 63 := rfl
    omega
  have spelled : (toString n).toList = Nat.toDigits 10 n := Nat.toList_repr
  rw [integer?, spelled, Numeral.int?_toDigits]
  exact if_pos fits

theorem count?_nat {n : Nat} (small : n < 2 ^ 63) : count? (.nat n) = some n := by
  have positive : ¬ (n : Int) < 0 := by omega
  rw [Json.nat, count?]
  simp only [integer?_nat small, if_neg positive, Int.toNat_natCast]

theorem nameIn?_of_mem {names : List String} {s : String} (member : s ∈ names)
    (distinct : (names.map String.toLower).Nodup) : nameIn? names s = some s := by
  induction names with
  | nil => cases member
  | cons first rest ih =>
    rw [List.map_cons, List.nodup_cons] at distinct
    rw [nameIn?]
    rcases List.mem_cons.mp member with rfl | later
    · exact List.find?_cons_of_pos (decide_eq_true rfl)
    · have other : first.toLower ≠ s.toLower := by
        intro same
        rw [same] at distinct
        exact distinct.1 (List.mem_map_of_mem later)
      rw [List.find?_cons_of_neg (by simpa using other)]
      exact ih later distinct.2

/-- A value that the notation keeps and that fits is read as what was written. -/
theorem means_plainJson {plain : Plain} (kept : codec.Keeps plain) (fits : plain.fits = true) :
    codec.Means (plainJson plain) plain := by
  refine ⟨?_, ?_⟩
  · cases plain <;> rfl
  · cases plain with
    | count n => exact count?_nat (of_decide_eq_true fits)
    | real x => exact kept
    | flag b => rfl
    | name s => exact fun names member distinct => nameIn?_of_mem member distinct

theorem spelled_plainJson {plain : Plain} (kept : codec.Keeps plain) (fits : plain.fits = true) :
    Spelled (plainJson plain) := by
  cases plain with
  | count n => exact spelled_nat (of_decide_eq_true fits)
  | real x => exact spelled_real fun _ => kept
  | flag b => exact spelled_bool b
  | name s => exact spelled_word kept.nonempty kept.letters

/-! ## Reading lines -/

def nodes (fields : List (String × Plain)) : List (String × Node) :=
  fields.map fun field => (field.1, .value (plainJson field.2))

def tableOf (part : String × List (String × Plain)) : String × Node :=
  (part.1, .table .header (nodes part.2))

/-- A part of a document that is read line by line. -/
structure Legible (part : String × List (String × Plain)) : Prop where
  keys : ProperNames (part.2.map Prod.fst)
  values : ∀ field ∈ part.2, Spelled (plainJson field.2)

variable {name : String} {before result : List (String × Node)} {s : List Char}

theorem reads_fields (table : name ∉ before.map Prod.fst) (inner : List (String × Node))
    {fields : List (String × Plain)} (words : ∀ key ∈ fields.map Prod.fst, IsWord key)
    (values : ∀ field ∈ fields, Spelled (plainJson field.2))
    (distinct : (inner.map Prod.fst ++ fields.map Prod.fst).Nodup)
    (later :
      ReadsTo [name] (before ++ [(name, .table .header (inner ++ nodes fields))]) s result) :
    ReadsTo [name] (before ++ [(name, .table .header inner)])
      ((String.join (fields.map fun field => line field ++ "\n")).toList ++ s) result := by
  induction fields generalizing inner with
  | nil => simpa [nodes] using later
  | cons field rest ih =>
    rw [nodes, List.map_cons, List.append_cons inner] at later
    have after := ih (inner ++ [(field.1, .value (plainJson field.2))])
      (fun key member => words key (List.mem_cons_of_mem _ member))
      (fun other member => values other (List.mem_cons_of_mem _ member))
      (by simpa using distinct) later
    have line := ReadsTo.key (words field.1 List.mem_cons_self).bare
      (values field List.mem_cons_self)
      (assignIn_last (plainJson field.2) table (notMem_of_distinct distinct)) after
    convert line using 1
    simp [Layers.line, String.toList_append, String.toList_join]

theorem reads_section {part : String × List (String × Plain)} (word : IsWord part.1)
    (table : part.1 ∉ before.map Prod.fst) (legible : Legible part)
    (later : ReadsTo [part.1] (before ++ [tableOf part]) s result) (current : List String) :
    ReadsTo current before ((sectionText part).toList ++ s) result := by
  have lines := reads_fields table [] legible.keys.word legible.values legible.keys.distinct later
  convert ReadsTo.header word.bare (open?_new table) lines using 1
  simp [sectionText]

/-- Sections with blank lines between them open a table each. -/
theorem reads_sections (current : List String) (before : List (String × Node))
    {sections : Sections} (words : ∀ name ∈ sections.map Prod.fst, IsWord name)
    (legible : ∀ part ∈ sections, Legible part)
    (distinct : (before.map Prod.fst ++ sections.map Prod.fst).Nodup) :
    ReadsTo current before ("\n".intercalate (sections.map sectionText)).toList
      (before ++ sections.map tableOf) := by
  induction sections generalizing current before with
  | nil => simpa using ReadsTo.done
  | cons part rest ih =>
    have later := ih [part.1] (before ++ [tableOf part])
      (fun name member => words name (List.mem_cons_of_mem _ member))
      (fun other member => legible other (List.mem_cons_of_mem _ member))
      (by simpa [tableOf] using distinct)
    rw [List.append_assoc, List.singleton_append, ← List.map_cons] at later
    have first {s : List Char} (reads : ReadsTo [part.1] (before ++ [tableOf part]) s
        (before ++ (part :: rest).map tableOf)) :=
      reads_section (words part.1 List.mem_cons_self) (notMem_of_distinct distinct)
        (legible part List.mem_cons_self) reads current
    cases rest with
    | nil =>
      have text := first later
      rwa [List.map_nil, String.intercalate_nil, String.toList_empty, List.append_nil] at text
    | cons next rest =>
      have text := first later.blank
      rwa [List.map_cons, List.map_cons, String.intercalate_cons_cons, String.toList_append,
        String.toList_append, ← List.map_cons, List.append_assoc]

def fieldsJson (fields : List (String × Plain)) : Json :=
  .object (fields.map fun field => (field.1, plainJson field.2))

def partJson (part : String × List (String × Plain)) : String × Json :=
  (part.1, fieldsJson part.2)

theorem membersToJson_nodes (fields : List (String × Plain)) :
    Node.toJson.membersToJson (nodes fields) =
      fields.map fun field => (field.1, plainJson field.2) := by
  induction fields with
  | nil => rfl
  | cons field rest ih =>
    rw [nodes, List.map_cons, Node.toJson.membersToJson, Node.toJson, ← nodes, ih, List.map_cons]

theorem membersToJson_tables (sections : Sections) :
    Node.toJson.membersToJson (sections.map tableOf) = sections.map partJson := by
  induction sections with
  | nil => rfl
  | cons part rest ih =>
    rw [List.map_cons, tableOf, Node.toJson.membersToJson, Node.toJson, membersToJson_nodes, ih]
    rfl

/-- A written document is read as its sections. -/
theorem read?_sections {sections : Sections} (names : ProperNames (sections.map Prod.fst))
    (legible : ∀ part ∈ sections, Legible part) :
    Toml.read? ("\n".intercalate (sections.map sectionText)) =
      some (.object (sections.map partJson)) := by
  have reads : ReadsTo [] [] ("\n".intercalate (sections.map sectionText)).toList
      (sections.map tableOf) :=
    reads_sections [] [] names.word legible names.distinct
  rw [Toml.read?]
  simp only [reads _ (Nat.lt_succ_self _), Option.map_some]
  rw [Node.toJson, membersToJson_tables]

/-! ## Layers of new keys -/

theorem overlayMembers_new {before members : List (String × Json)}
    (whole : ∀ m ∈ members, overlay .null m.2 = m.2)
    (distinct : (before.map Prod.fst ++ members.map Prod.fst).Nodup) :
    overlayMembers before members = before ++ members := by
  induction members generalizing before with
  | nil => rw [overlayMembers, List.append_nil]
  | cons m rest ih =>
    obtain ⟨key, value⟩ := m
    have absent : ∀ member ∈ before, member.1 ≠ key := by
      rintro member inside rfl
      exact notMem_of_distinct distinct (List.mem_map.mpr ⟨member, inside, rfl⟩)
    have missing : before.lookup key = none := by
      rw [List.lookup_eq_none_iff]
      intro member inside
      rw [bne_iff_ne]
      exact (absent member inside).symm
    have kept : before.filter (fun member => member.1 ≠ key) = before := by
      rw [List.filter_eq_self]
      intro member inside
      exact decide_eq_true (absent member inside)
    have inner : overlay .null value = value := whole (key, value) List.mem_cons_self
    rw [overlayMembers, missing, Option.getD_none, inner, kept,
      ih (fun n member => whole n (List.mem_cons_of_mem _ member)) (by simpa using distinct),
      List.append_assoc, List.singleton_append]

theorem overlay_object {members : List (String × Json)}
    (whole : ∀ m ∈ members, overlay .null m.2 = m.2) (distinct : (members.map Prod.fst).Nodup) :
    overlay .null (.object members) = .object members :=
  congrArg Json.object (overlayMembers_new whole distinct)

theorem pathOf_bare {key : String} (bare : IsBare key) : pathOf key = [key] := by
  have whole : key.toList.splitOn '.' = [key.toList] := by
    refine List.splitOn_eq_singleton fun dot => ?_
    exact absurd (bare.parts '.' dot) (by decide)
  rw [pathOf, whole, List.map_singleton, String.ofList_toList]
  exact ite_self _

theorem addLayer_new (before : List (String × Json)) {members : List (String × Json)}
    (bare : ∀ m ∈ members, IsBare m.1) (whole : ∀ m ∈ members, overlay .null m.2 = m.2)
    (distinct : (before.map Prod.fst ++ members.map Prod.fst).Nodup) :
    addLayer (.object before) members = .object (before ++ members) := by
  induction members generalizing before with
  | nil => rw [addLayer, List.foldl_nil, List.append_nil]
  | cons m rest ih =>
    have only : (before.map Prod.fst ++ [m].map Prod.fst).Nodup := by
      rw [List.map_cons, List.append_cons] at distinct
      exact (List.nodup_append.mp distinct).1
    have first : overlay (.object before) (nest (pathOf m.1) m.2) = .object (before ++ [m]) := by
      rw [pathOf_bare (bare m List.mem_cons_self)]
      refine congrArg Json.object (overlayMembers_new ?_ only)
      exact List.forall_mem_singleton.mpr (whole m List.mem_cons_self)
    have later := ih (before ++ [m]) (fun n member => bare n (List.mem_cons_of_mem _ member))
      (fun n member => whole n (List.mem_cons_of_mem _ member)) (by simpa using distinct)
    rw [addLayer] at later ⊢
    rw [List.foldl_cons, first, later, List.append_assoc, List.singleton_append]

theorem overlay_plainJson (plain : Plain) : overlay .null (plainJson plain) = plainJson plain := by
  cases plain <;> simp [plainJson, Plain.toJson, overlay, Json.nat]

theorem addLayer_sections {sections : Sections} (named : Named sections) :
    addLayer (.object []) (sections.map partJson) = .object (sections.map partJson) := by
  have same : (sections.map partJson).map Prod.fst = sections.map Prod.fst := by
    rw [List.map_map]
    rfl
  refine addLayer_new [] ?bare ?whole (same ▸ named.names.distinct)
  case bare =>
    intro m member
    obtain ⟨part, inside, rfl⟩ := List.mem_map.mp member
    exact (named.names.word part.1 (List.mem_map_of_mem inside)).bare
  case whole =>
    intro m member
    obtain ⟨part, inside, rfl⟩ := List.mem_map.mp member
    refine overlay_object (fun field member => ?_) ?_
    · obtain ⟨field, -, rfl⟩ := List.mem_map.mp member
      exact overlay_plainJson field.2
    · rw [List.map_map]
      exact (named.fields part inside).distinct

/-! ## The notation of settings -/

theorem lookup_of_mem {β : Type} {members : List (String × β)} {name : String} {value : β}
    (distinct : (members.map Prod.fst).Nodup) (member : (name, value) ∈ members) :
    members.lookup name = some value := by
  induction members with
  | nil => cases member
  | cons first rest ih =>
    rw [List.map_cons, List.nodup_cons] at distinct
    rcases List.mem_cons.mp member with rfl | later
    · exact List.lookup_cons_self
    · have other : (name == first.1) = false := by
        rw [beq_eq_false_iff_ne]
        rintro rfl
        exact distinct.1 (List.mem_map.mpr ⟨_, later, rfl⟩)
      rw [List.lookup_cons, other]
      exact ih distinct.2 later

section Objects

variable {β : Type} {means : Json → β → Prop} {members : List (String × β)} {value : β → Json}
  (distinct : (members.map Prod.fst).Nodup) (meant : ∀ m ∈ members, means (value m.2) m.2)

include distinct meant

theorem holds_members : Holds means
    (fun name => (members.map fun m => (m.1, value m.2)).reverse.lookup name) members := by
  refine ⟨fun m member => ⟨value m.2, lookup_of_mem ?_ ?_, meant m member⟩, fun name absent => ?_⟩
  · rw [List.map_reverse, List.nodup_reverse, List.map_map]
    exact distinct
  · exact List.mem_reverse.mpr (List.mem_map_of_mem member)
  · rw [List.lookup_eq_none_iff]
    intro other inside
    obtain ⟨m, member, rfl⟩ := List.mem_map.mp (List.mem_reverse.mp inside)
    rw [bne_iff_ne]
    rintro rfl
    exact absent (List.mem_map_of_mem member)

theorem states_object :
    codec.States means (.object (members.map fun m => (m.1, value m.2))) members :=
  ⟨_, fun _ => rfl, holds_members distinct meant⟩

end Objects

theorem print_eq_some_iff {sections : Sections} {text : String} :
    print sections = some text ↔
      (∀ part ∈ sections, ∀ field ∈ part.2, field.2.fits = true) ∧
        "\n".intercalate (sections.map sectionText) = text := by
  simp only [print, List.all_eq_true, Option.ite_none_right_eq_some, Option.some.injEq]

/-- A document with no variable over it is read as its sections. -/
theorem gather_sections {sections : Sections} (named : Named sections)
    (legible : ∀ part ∈ sections, Legible part) {start separator : String}
    {environment : List (String × String)}
    (unset : ∀ v ∈ environment, isOwn start separator v = false) :
    gather start separator (some (.toml, "\n".intercalate (sections.map sectionText)))
      environment = some (.object (sections.map partJson)) := by
  have none : environment.filterMap (ofVariable? start separator) = [] :=
    List.filterMap_eq_nil_iff.mpr fun v member => if_neg (by rw [unset v member]; decide)
  have nothing : ∀ base, addLayer base [] = base := fun _ => rfl
  simp only [gather, members?, read?_sections named.names legible, none, nothing,
    addLayer_sections named, Option.bind_eq_bind, Option.bind_some]
  rfl

theorem codec_lawful : codec.Lawful where
  print sections _ := by
    constructor
    · rintro ⟨text, printed⟩
      exact (print_eq_some_iff.mp printed).1
    · exact fun fits => ⟨_, print_eq_some_iff.mpr ⟨fits, rfl⟩⟩
  read sections text named kept printed start separator environment unset := by
    obtain ⟨fits, rfl⟩ := print_eq_some_iff.mp printed
    refine ⟨_, gather_sections named (fun part inside => ?_) unset, ?_⟩
    · exact ⟨named.fields part inside, fun field member =>
        spelled_plainJson (kept part inside field member) (fits part inside field member)⟩
    · refine states_object named.names.distinct fun part inside => ?_
      exact states_object (named.fields part inside).distinct fun field member =>
        means_plainJson (kept part inside field member) (fits part inside field member)
  special _ := Notation.readsBack_special

end Layers

end FactorSearch
