import FactorSearch.Settings.Layers

/-!
# Lawful notations

What settings rely on in the notation of their documents.  There is room for every value but counts
of sixty-four bits, and a printed document is read with its sections, fields and values, as long as
the numbers in it are read as they were written and no variable goes over it.
-/

set_option autoImplicit false

namespace FactorSearch

namespace Document

/-- A word of small letters and underscores. -/
def IsWord (s : String) : Prop :=
  s.toList.isEmpty = false ∧ s.toList.all (fun c => c.isLower || c = '_') = true

instance (s : String) : Decidable (IsWord s) := inferInstanceAs (Decidable (_ ∧ _))

structure ProperNames (names : List String) : Prop where
  word : ∀ name ∈ names, IsWord name
  distinct : names.Nodup

instance (names : List String) : Decidable (ProperNames names) :=
  decidable_of_iff ((∀ name ∈ names, IsWord name) ∧ names.Nodup)
    ⟨fun proper => ⟨proper.1, proper.2⟩, fun proper => ⟨proper.word, proper.distinct⟩⟩

structure Named (sections : Sections) : Prop where
  names : ProperNames (sections.map Prod.fst)
  fields : ∀ part ∈ sections, ProperNames (part.2.map Prod.fst)

/-- Fields by name are those of a list, each with a value that means what is listed. -/
structure Holds {β γ : Type} (means : γ → β → Prop) (fields : String → Option γ)
    (members : List (String × β)) : Prop where
  known : ∀ m ∈ members, ∃ value, fields m.1 = some value ∧ means value m.2
  absent : ∀ name ∉ members.map Prod.fst, fields name = none

namespace Codec

variable (codec : Codec)

def ReadsBack (x : Float) : Prop := codec.number? (codec.numeral x) = some x

/-- The values that a document keeps: numbers that read back, and names that are words. -/
def Keeps : Plain → Prop
  | .real x => codec.ReadsBack x
  | .name s => IsWord s
  | .count _ | .flag _ => True

/-- A value is read as a plain one.  A name is found among names that differ by more than the case
of their letters. -/
def Means (value : codec.Value) (plain : Plain) : Prop :=
  codec.isNull value = false ∧
    match plain with
    | .count n => codec.count? value = some n
    | .real x => codec.real? value = some x
    | .flag b => codec.flag? value = some b
    | .name s => ∀ names, s ∈ names → (names.map String.toLower).Nodup →
      codec.variant? names value = some s

def States {β : Type} (means : codec.Value → β → Prop) (value : codec.Value)
    (members : List (String × β)) : Prop :=
  ∃ fields, (∀ names, codec.fields? names value = some fields) ∧ Holds means fields members

/-- The obligations of a notation: those of its printer, of its reader, and of its spelling of the
numbers that are not finite. -/
structure Lawful : Prop where
  print : ∀ sections, Named sections → ((∃ text, codec.print sections = some text) ↔
    ∀ part ∈ sections, ∀ field ∈ part.2, field.2.fits = true)
  read : ∀ sections text, Named sections →
    (∀ part ∈ sections, ∀ field ∈ part.2, codec.Keeps field.2) →
    codec.print sections = some text → ∀ start separator environment,
      (∀ v ∈ environment, Layers.isOwn start separator v = false) →
        ∃ value, codec.gather start separator (some (.toml, text)) environment = some value ∧
          codec.States (codec.States codec.Means) value sections
  special : ∀ x, Scalar.isFinite x = false → codec.ReadsBack x

end Codec

end Document

end FactorSearch
