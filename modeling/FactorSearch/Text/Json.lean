import FactorSearch.Decimal.Notation
import FactorSearch.Decimal.Numeral

/-!
# JSON

Values with numbers kept as they are written, a compact and an indented writer, and a reader of
whole texts.
-/

set_option autoImplicit false

namespace FactorSearch

/-- A JSON value; the members of an object are in the order in which they are written. -/
inductive Json where
  | null
  | bool (value : Bool)
  | number (literal : String)
  | text (value : String)
  | list (items : List Json)
  | object (members : List (String × Json))

namespace Json

def nat (n : Nat) : Json := .number (toString n)

/-- A double; one that is not finite has no number and becomes null. -/
def float (x : Float) : Json := if x.isFinite then .number (Notation.report.write x) else .null

def optional {β : Type} (f : β → Json) : Option β → Json
  | none => .null
  | some x => f x

/-! ## Writing -/

def hexDigit (n : Nat) : Char :=
  if n < 10 then Char.ofNat ('0'.toNat + n) else Char.ofNat ('a'.toNat + (n - 10))

def escape (c : Char) : List Char :=
  if c = '"' then ['\\', '"']
  else if c = '\\' then ['\\', '\\']
  else if c = '\n' then ['\\', 'n']
  else if c = '\r' then ['\\', 'r']
  else if c = '\t' then ['\\', 't']
  else if c.toNat = 8 then ['\\', 'b']
  else if c.toNat = 12 then ['\\', 'f']
  else if c.toNat < 32 then
    ['\\', 'u', '0', '0', hexDigit (c.toNat / 16), hexDigit (c.toNat % 16)]
  else [c]

def quote (s : String) : String :=
  "\"" ++ String.ofList (s.toList.flatMap escape) ++ "\""

mutual

def compact : Json → String
  | null => "null"
  | bool true => "true"
  | bool false => "false"
  | number literal => literal
  | text value => quote value
  | list items => "[" ++ ",".intercalate (compactItems items) ++ "]"
  | object members => "\x7b" ++ ",".intercalate (compactMembers members) ++ "\x7d"

def compactItems : List Json → List String
  | [] => []
  | item :: rest => item.compact :: compactItems rest

def compactMembers : List (String × Json) → List String
  | [] => []
  | (key, value) :: rest => (quote key ++ ":" ++ value.compact) :: compactMembers rest

end

def lineBreak (depth : Nat) : String := "\n" ++ "".pushn ' ' (2 * depth)

def block (opening closing : String) (depth : Nat) (parts : List String) : String :=
  if parts.isEmpty then opening ++ closing
  else
    opening ++ lineBreak (depth + 1) ++ ("," ++ lineBreak (depth + 1)).intercalate parts ++
      lineBreak depth ++ closing

mutual

def pretty (depth : Nat) : Json → String
  | list items => block "[" "]" depth (prettyItems (depth + 1) items)
  | object members => block "\x7b" "\x7d" depth (prettyMembers (depth + 1) members)
  | null => "null"
  | bool true => "true"
  | bool false => "false"
  | number literal => literal
  | text value => quote value

def prettyItems (depth : Nat) : List Json → List String
  | [] => []
  | item :: rest => item.pretty depth :: prettyItems depth rest

def prettyMembers (depth : Nat) : List (String × Json) → List String
  | [] => []
  | (key, value) :: rest =>
    (quote key ++ ": " ++ value.pretty depth) :: prettyMembers depth rest

end

/-! ## Reading -/

def isBlank (c : Char) : Bool := c = ' ' || c = '\n' || c = '\t' || c = '\r'

def skipBlanks (s : List Char) : List Char := s.dropWhile isBlank

def hexValue? (c : Char) : Option Nat :=
  if c.isDigit then some (c.toNat - '0'.toNat)
  else if 'a' ≤ c ∧ c ≤ 'f' then some (c.toNat - 'a'.toNat + 10)
  else if 'A' ≤ c ∧ c ≤ 'F' then some (c.toNat - 'A'.toNat + 10)
  else none

def hexUnit? : List Char → Option (Nat × List Char)
  | a :: b :: c :: d :: rest => do
    let a ← hexValue? a
    let b ← hexValue? b
    let c ← hexValue? c
    let d ← hexValue? d
    return (((a * 16 + b) * 16 + c) * 16 + d, rest)
  | _ => none

/-- The character of an escape that starts with `u`: one unit, or a pair of surrogates. -/
def unicodeEscape? (s : List Char) : Option (Char × List Char) :=
  match hexUnit? s with
  | none => none
  | some (high, rest) =>
    if 0xD800 ≤ high ∧ high < 0xDC00 then
      match rest with
      | '\\' :: 'u' :: rest =>
        match hexUnit? rest with
        | some (low, rest) =>
          if 0xDC00 ≤ low ∧ low < 0xE000 then
            some (Char.ofNat (0x10000 + (high - 0xD800) * 0x400 + (low - 0xDC00)), rest)
          else none
        | none => none
      | _ => none
    else if 0xDC00 ≤ high ∧ high < 0xE000 then none
    else some (Char.ofNat high, rest)

/-- The characters up to the closing quote, after the opening one, the latest first. -/
def stringFrom? : Nat → List Char → List Char → Option (String × List Char)
  | 0, _, _ => none
  | fuel + 1, done, s =>
    match s with
    | '"' :: rest => some (String.ofList done.reverse, rest)
    | '\\' :: c :: rest =>
      match c with
      | '"' => stringFrom? fuel ('"' :: done) rest
      | '\\' => stringFrom? fuel ('\\' :: done) rest
      | '/' => stringFrom? fuel ('/' :: done) rest
      | 'b' => stringFrom? fuel (Char.ofNat 8 :: done) rest
      | 'f' => stringFrom? fuel (Char.ofNat 12 :: done) rest
      | 'n' => stringFrom? fuel ('\n' :: done) rest
      | 'r' => stringFrom? fuel ('\r' :: done) rest
      | 't' => stringFrom? fuel ('\t' :: done) rest
      | 'u' =>
        match unicodeEscape? rest with
        | some (c, rest) => stringFrom? fuel (c :: done) rest
        | none => none
      | _ => none
    | c :: rest => if c.toNat < 32 then none else stringFrom? fuel (c :: done) rest
    | [] => none

def digits? (s : List Char) : Option (List Char × List Char) :=
  let digits := s.takeWhile Char.isDigit
  if digits.isEmpty then none else some (digits, s.dropWhile Char.isDigit)

/-- The whole part of a number: a zero stands alone. -/
def whole? (s : List Char) : Option (List Char × List Char) :=
  match s with
  | '0' :: rest => some (['0'], rest)
  | _ => digits? s

def fraction? (s : List Char) : Option (List Char × List Char) :=
  match s with
  | '.' :: rest => (digits? rest).map fun (digits, rest) => ('.' :: digits, rest)
  | _ => some ([], s)

def exponent? (s : List Char) : Option (List Char × List Char) :=
  match s with
  | c :: rest =>
    if c = 'e' ∨ c = 'E' then
      match rest with
      | '-' :: rest => (digits? rest).map fun (digits, rest) => (c :: '-' :: digits, rest)
      | '+' :: rest => (digits? rest).map fun (digits, rest) => (c :: '+' :: digits, rest)
      | _ => (digits? rest).map fun (digits, rest) => (c :: digits, rest)
    else some ([], s)
  | [] => some ([], s)

/-- A number at the front of a text; one beyond every double is refused. -/
def number? (s : List Char) : Option (Json × List Char) :=
  let (sign, body) := match s with
    | '-' :: rest => (['-'], rest)
    | _ => ([], s)
  match whole? body with
  | none => none
  | some (whole, rest) =>
    match fraction? rest with
    | none => none
    | some (fraction, rest) =>
      match exponent? rest with
      | none => none
      | some (exponent, rest) =>
        let literal := sign ++ whole ++ fraction ++ exponent
        if (Numeral.float? literal).any Float.isFinite then
          some (.number (String.ofList literal), rest)
        else none

mutual

def value? : Nat → Nat → List Char → Option (Json × List Char)
  | 0, _, _ => none
  | fuel + 1, depth, s =>
    match s with
    | 'n' :: 'u' :: 'l' :: 'l' :: rest => some (.null, rest)
    | 't' :: 'r' :: 'u' :: 'e' :: rest => some (.bool true, rest)
    | 'f' :: 'a' :: 'l' :: 's' :: 'e' :: rest => some (.bool false, rest)
    | '"' :: rest => (stringFrom? (rest.length + 1) [] rest).map fun (s, rest) => (.text s, rest)
    | '[' :: rest =>
      match depth, skipBlanks rest with
      | 0, _ => none
      | _, ']' :: rest => some (.list [], rest)
      | depth + 1, rest => (items? fuel depth rest).map fun (items, rest) => (.list items, rest)
    | '\x7b' :: rest =>
      match depth, skipBlanks rest with
      | 0, _ => none
      | _, '\x7d' :: rest => some (.object [], rest)
      | depth + 1, rest =>
        (members? fuel depth rest).map fun (members, rest) => (.object members, rest)
    | _ => number? s

def items? : Nat → Nat → List Char → Option (List Json × List Char)
  | 0, _, _ => none
  | fuel + 1, depth, s =>
    match value? fuel depth s with
    | none => none
    | some (item, rest) =>
      match skipBlanks rest with
      | ']' :: rest => some ([item], rest)
      | ',' :: rest =>
        (items? fuel depth (skipBlanks rest)).map fun (items, rest) => (item :: items, rest)
      | _ => none

def members? : Nat → Nat → List Char → Option (List (String × Json) × List Char)
  | 0, _, _ => none
  | fuel + 1, depth, s =>
    match s with
    | '"' :: rest =>
      match stringFrom? (rest.length + 1) [] rest with
      | none => none
      | some (key, rest) =>
        match skipBlanks rest with
        | ':' :: rest =>
          match value? fuel depth (skipBlanks rest) with
          | none => none
          | some (value, rest) =>
            match skipBlanks rest with
            | '\x7d' :: rest => some ([(key, value)], rest)
            | ',' :: rest =>
              (members? fuel depth (skipBlanks rest)).map fun (members, rest) =>
                ((key, value) :: members, rest)
            | _ => none
        | _ => none
    | _ => none

end

/-- The value that a whole text spells; nesting beyond 127 levels is refused. -/
def read? (source : String) : Option Json :=
  let s := skipBlanks source.toList
  match value? (2 * s.length + 2) 127 s with
  | some (value, rest) => if (skipBlanks rest).isEmpty then some value else none
  | none => none

end Json

end FactorSearch
