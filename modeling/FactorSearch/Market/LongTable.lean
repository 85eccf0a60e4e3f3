import FactorSearch.Decimal.Notation
import FactorSearch.Decimal.Numeral
import FactorSearch.Features

/-!
# Long tables

A table with a row for every observation: its date, its instrument, and a column for every feature.
It is turned into panels whose periods and instruments are the dates and instruments that occur, in
ascending order of their text.  Rows without date or instrument fill no cell, though the one they
name keeps its place on its axis; of several values for one cell the last one counts.
-/

set_option autoImplicit false

namespace FactorSearch

inductive Cell where
  | text (value : String)
  | real (value : Float)
  | integer (value : Int)
  | truth (value : Bool)

namespace Cell

def asText : Cell → String
  | text value => value
  | real value => Notation.report.write value
  | integer value => toString value
  | truth value => if value then "true" else "false"

/-- The value as a number; a text that spells none has none. -/
def asReal? : Cell → Option Float
  | text value => Numeral.float? value.toList
  | real value => some value
  | integer value => some (Float.ofInt value)
  | truth value => some (if value then 1 else 0)

end Cell

structure Column where
  name : String
  cells : List (Option Cell)

/-- How cells are cast to the texts of dates and instruments, and to numbers. -/
structure Casts where
  text? : Cell → Option String := fun cell => some cell.asText
  real? : Cell → Option Float := Cell.asReal?

namespace Casts

def texts (casts : Casts) (column : Column) : List (Option String) :=
  column.cells.map fun cell => cell.bind casts.text?

def numbers (casts : Casts) (column : Column) : List (Option Float) :=
  column.cells.map fun cell => cell.bind casts.real?

end Casts

structure LongTable where
  columns : List Column

namespace LongTable

def column? (table : LongTable) (name : String) : Option Column :=
  table.columns.find? fun column => upperName column.name = upperName name

def dropRepeats : List String → List String
  | [] => []
  | [last] => [last]
  | first :: second :: rest =>
    if first = second then dropRepeats (second :: rest)
    else first :: dropRepeats (second :: rest)

def labels (texts : List (Option String)) : Array String :=
  (dropRepeats ((texts.filterMap id).mergeSort fun a b => a ≤ b)).toArray

def place? (dates instruments : Array String) : Option String × Option String → Option (Nat × Nat)
  | (some date, some instrument) =>
    match dates.idxOf? date, instruments.idxOf? instrument with
    | some t, some i => some (t, i)
    | _, _ => none
  | _ => none

def fill (instruments : Nat) (cells : Array Float)
    (rows : List (Option (Nat × Nat) × Option Float)) : Array Float :=
  rows.foldl (fun cells row =>
    match row with
    | (some (t, i), some value) => cells.setIfInBounds (t * instruments + i) value
    | _ => cells) cells

/-- The panel of a column; cells without value are missing. -/
def pivot (casts : Casts) (periods instruments : Nat) (places : List (Option (Nat × Nat)))
    (column : Column) : Grid Float :=
  let cells := fill instruments (Array.replicate (periods * instruments) Scalar.nan)
    (places.zip (casts.numbers column))
  ⟨periods, instruments,
    Panel.ofFn fun t i => cells[t.val * instruments + i.val]?.getD Scalar.nan⟩

def toObservations (table : LongTable) (casts : Casts := {}) : Result (Observations Float) := do
  let dateColumn ← match table.column? "date" with
    | some column => pure column
    | none => throw (.dataLoading .noDates)
  let instrumentColumn ← match table.column? "instrument" with
    | some column => pure column
    | none => throw (.dataLoading .noInstruments)
  let dates := labels (casts.texts dateColumn)
  let instruments := labels (casts.texts instrumentColumn)
  let keys := (casts.texts dateColumn).zip (casts.texts instrumentColumn)
  let places := keys.map (place? dates instruments)
  let panelOf := pivot casts dates.size instruments.size places
  let set ← (requiredFeatures ++ sentimentFeatures).foldlM
    (fun (set : FeatureSet Float dates.size instruments.size) name =>
      match table.column? name with
      | some column => set.insert name (panelOf column)
      | none => pure set)
    FeatureSet.empty
  let set ← match table.column? "fwd_ret" with
    | some column => set.setForward (panelOf column)
    | none => pure set
  match requiredFeatures.find? fun name => !set.contains name with
  | some missing => throw (.dataLoading (.incomplete missing))
  | none => return ⟨dates.size, instruments.size, set⟩

end LongTable

end FactorSearch
