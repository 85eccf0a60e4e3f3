import FactorSearch.Market.LongTable

/-!
# Comma-separated tables

A table as text: a line of names, then a line for every row.  Fields are separated by commas; a
field that starts with a quote runs to the closing one and may hold commas, line breaks and doubled
quotes.  Blanks at the start of a row and rows of nothing else do not count.  Empty fields and
fields that a line lacks are missing; a line with too many fields is not readable.  The kind of a
column follows from its fields in the first hundred rows, and every later field has to be of that
kind.
-/

set_option autoImplicit false

namespace FactorSearch

namespace Csv

/-- A field as it stands, quotes included. -/
abbrev Field : Type := List Char

def plainField (s : List Char) : Field × List Char :=
  let inside (c : Char) : Bool := c ≠ ',' && c ≠ '\n'
  (s.takeWhile inside, s.dropWhile inside)

def quotedField (inQuotes : Bool) : List Char → Field × List Char
  | [] => ([], [])
  | c :: rest =>
    if !inQuotes && (c = ',' || c = '\n') then ([], c :: rest)
    else
      let (field, after) := quotedField (if c = '"' then !inQuotes else inQuotes) rest
      (c :: field, after)

def field (s : List Char) : Field × List Char :=
  match s with
  | '"' :: _ => quotedField false s
  | _ => plainField s

theorem plainField_length_le (s : List Char) : (plainField s).2.length ≤ s.length :=
  (List.dropWhile_suffix _).length_le

theorem quotedField_length_le (inQuotes : Bool) (s : List Char) :
    (quotedField inQuotes s).2.length ≤ s.length := by
  induction s generalizing inQuotes with
  | nil => simp [quotedField]
  | cons c rest ih =>
    rw [quotedField]
    split
    · simp
    · exact Nat.le_succ_of_le (ih _)

theorem field_length_le (s : List Char) : (field s).2.length ≤ s.length := by
  unfold field
  split
  · exact quotedField_length_le _ _
  · exact plainField_length_le _

/-- The lines of a text as lists of fields; a comma at the very end opens no field. -/
def lines (s : List Char) : List (List Field) :=
  if s.isEmpty then []
  else
    match h : field s with
    | (first, ',' :: rest) =>
      have : rest.length < s.length := by
        have := field_length_le s
        simp only [h, List.length_cons] at this
        omega
      match lines rest with
      | [] => [[first]]
      | line :: below => (first :: line) :: below
    | (last, _ :: rest) =>
      have : rest.length < s.length := by
        have := field_length_le s
        simp only [h, List.length_cons] at this
        omega
      [last] :: lines rest
    | (last, []) => [[last]]
  termination_by s.length

def withoutReturn (f : Field) : Field :=
  if f.getLast? = some '\r' then f.dropLast else f

def isBlank (line : List Field) : Bool :=
  match line with
  | [only] => (withoutReturn only).isEmpty
  | _ => false

def withoutIndent : List Field → List Field
  | [] => []
  | first :: rest => first.dropWhile (fun c => c = ' ' || c = '\t') :: rest

def isQuoted (f : Field) : Bool := 2 ≤ f.length && f.head? = some '"' && f.getLast? = some '"'

/-- Text with one quote for every two; a quote that stands alone is dropped. -/
def singleQuotes : List Char → List Char
  | '"' :: '"' :: rest => '"' :: singleQuotes rest
  | '"' :: rest => singleQuotes rest
  | c :: rest => c :: singleQuotes rest
  | [] => []

/-- The text of a field.  Quotes that open a field have to be closed at its end. -/
def content? (f : Field) : Option (List Char) :=
  if isQuoted f then some (singleQuotes (f.drop 1).dropLast)
  else if f.head? = some '"' then none
  else some f

inductive Kind where
  | text
  | real
  | integer
  | truth
  deriving DecidableEq, Repr

def isDigits (s : List Char) : Bool := !s.isEmpty && s.all Char.isDigit

def isInteger : List Char → Bool
  | '-' :: rest => isDigits rest
  | s => isDigits s

def isExponent : List Char → Bool
  | c :: rest => (c = 'e' || c = 'E') && isDigits (Numeral.splitSign rest).2
  | [] => false

def isReal (s : List Char) : Bool :=
  let body := (Numeral.splitSign s).2
  let whole := body.takeWhile Char.isDigit
  let rest := body.dropWhile Char.isDigit
  if body = "inf".toList || body = "NaN".toList then true
  else
    match rest with
    | '.' :: rest =>
      let fraction := rest.takeWhile Char.isDigit
      let power := rest.dropWhile Char.isDigit
      if fraction.isEmpty then !whole.isEmpty && power.isEmpty
      else power.isEmpty || isExponent power
    | _ => !whole.isEmpty && isExponent rest

def truth? (s : List Char) : Option Bool :=
  let word := s.map Char.toLower
  if word = "true".toList then some true
  else if word = "false".toList then some false
  else none

def kindOf (f : Field) : Kind :=
  let s := if isQuoted f then (f.drop 1).dropLast else f
  if (truth? s).isSome then .truth
  else if isReal s then .real
  else if isInteger s then .integer
  else .text

/-- The kind of a column: the common one of its fields, integers giving way to real numbers, and
text for every other mixture. -/
def columnKind (fields : List Field) : Kind :=
  let kinds := fields.map kindOf
  match kinds with
  | [] => .text
  | first :: rest =>
    if rest.all (· = first) then first
    else if kinds.all fun kind => kind = .real || kind = .integer then .real
    else .text

def value? (kind : Kind) (s : List Char) : Option Cell :=
  match kind with
  | .text => some (.text (String.ofList s))
  | .real => (Numeral.float? s).map Cell.real
  | .truth => (truth? s).map Cell.truth
  | .integer =>
    match Numeral.int? s with
    | some n => if -Int.pow 2 63 ≤ n ∧ n < Int.pow 2 63 then some (.integer n) else none
    | none => none

/-- The value of a field, which may be missing.  Quotes around nothing are an empty text, but no
value of another kind. -/
def cell? (kind : Kind) (f : Field) : Option (Option Cell) :=
  match content? f with
  | none => none
  | some s =>
    if f.isEmpty || (s.isEmpty && kind ≠ .text) then some none else (value? kind s).map some

def sampleSize : Nat := 100

def column? (name : Field) (fields : List Field) : Option Column :=
  let kind := columnKind ((fields.take sampleSize).filter fun f => !f.isEmpty)
  (fields.mapM (cell? kind)).map fun cells =>
    ⟨String.ofList ((content? name).getD name), cells⟩

def columns? (rows : Array (Array Field)) : Nat → List Field → Option (List Column)
  | _, [] => some []
  | index, name :: names =>
    match column? name (rows.toList.map fun row => row[index]?.getD []) with
    | none => none
    | some column => (columns? rows (index + 1) names).map (column :: ·)

def withoutMark : List Char → List Char
  | c :: rest => if c.toNat = 0xFEFF then rest else c :: rest
  | [] => []

def read? (source : String) : Option LongTable :=
  match (lines (withoutMark source.toList)).dropWhile isBlank with
  | [] => none
  | header :: below =>
    let names := header.map withoutReturn
    let rows := (below.map withoutIndent).filter fun row => !isBlank row
    if rows.any fun row => names.length < row.length then none
    else
      let table := (rows.map fun row => (row.map withoutReturn).toArray).toArray
      (columns? table 0 names).map LongTable.mk

def load (source : Option String) : Result (Observations Float) :=
  match source with
  | none => .error .table
  | some text =>
    match read? text with
    | none => .error (.dataLoading .unreadable)
    | some table => table.toObservations

end Csv

end FactorSearch
