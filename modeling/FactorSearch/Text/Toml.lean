import FactorSearch.Decimal.Numeral
import FactorSearch.Text.Json

/-!
# TOML

A reader of whole TOML documents.  The result is an object value; integers are given in decimal
notation and dates as texts.  While a document is read its tables remember how they came about,
because that decides how they may be extended: a table made on the way to another one may still be
given a header, one made by a dotted key may only get further keys and sub-tables, and an inline
table is complete.
-/

set_option autoImplicit false

namespace FactorSearch

namespace Toml

inductive Origin where
  | passage
  | header
  | dotted
  deriving DecidableEq

inductive Node where
  | value (json : Json)
  | table (origin : Origin) (members : List (String × Node))
  | tables (items : List (List (String × Node)))

/-! ## Blanks and keys -/

def isBlank (c : Char) : Bool := c = ' ' || c = '\t'

def skipBlanks (s : List Char) : List Char := s.dropWhile isBlank

def isCommentPart (c : Char) : Bool := c = '\t' || (32 ≤ c.toNat && c.toNat ≠ 127)

def lineBreak? : List Char → Option (List Char)
  | '\n' :: rest => some rest
  | '\r' :: '\n' :: rest => some rest
  | _ => none

def skipComment (s : List Char) : List Char :=
  match skipBlanks s with
  | '#' :: rest => rest.dropWhile isCommentPart
  | rest => rest

def endOfLine? (s : List Char) : Option (List Char) :=
  match skipComment s with
  | [] => some []
  | rest => lineBreak? rest

def skipLines : Nat → List Char → List Char
  | 0, s => s
  | fuel + 1, s =>
    let rest := skipComment s
    match lineBreak? rest with
    | some rest => skipLines fuel rest
    | none => rest

def isBareKeyPart (c : Char) : Bool := c.isAlphanum || c = '_' || c = '-'

def codePoint? (digits : List Char) : Option Char :=
  let value : Option Nat := digits.foldl
    (fun value c => value.bind fun v => (Json.hexValue? c).map fun d => v * 16 + d) (some 0)
  value.bind fun v => if v.isValidChar then some (Char.ofNat v) else none

def escape? : List Char → Option (Char × List Char)
  | 'b' :: rest => some (Char.ofNat 8, rest)
  | 't' :: rest => some ('\t', rest)
  | 'n' :: rest => some ('\n', rest)
  | 'f' :: rest => some (Char.ofNat 12, rest)
  | 'r' :: rest => some ('\r', rest)
  | '"' :: rest => some ('"', rest)
  | '\\' :: rest => some ('\\', rest)
  | 'u' :: rest =>
    if rest.length < 4 then none
    else (codePoint? (rest.take 4)).map fun c => (c, rest.drop 4)
  | 'U' :: rest =>
    if rest.length < 8 then none
    else (codePoint? (rest.take 8)).map fun c => (c, rest.drop 8)
  | _ => none

/-- A one-line string with escapes, after its opening quote. -/
def basic? : Nat → List Char → List Char → Option (String × List Char)
  | 0, _, _ => none
  | fuel + 1, done, s =>
    match s with
    | '"' :: rest => some (String.ofList done.reverse, rest)
    | '\\' :: rest =>
      match escape? rest with
      | some (c, rest) => basic? fuel (c :: done) rest
      | none => none
    | c :: rest => if isCommentPart c then basic? fuel (c :: done) rest else none
    | [] => none

def literal? (s : List Char) : Option (String × List Char) :=
  let body := s.takeWhile fun c => isCommentPart c && c ≠ '\''
  match s.dropWhile fun c => isCommentPart c && c ≠ '\'' with
  | '\'' :: rest => some (String.ofList body, rest)
  | _ => none

def skipContinuation : Nat → List Char → List Char
  | 0, s => s
  | fuel + 1, s =>
    match lineBreak? (skipBlanks s) with
    | some rest => skipContinuation fuel rest
    | none => skipBlanks s

/-- The end of a string of several lines: up to two of its quotes may stand before the closing
three. -/
def closing? (quote : Char) (done s : List Char) : Option (String × List Char) :=
  let run := (s.takeWhile (· = quote)).length
  if run < 3 then none
  else
    let kept := Nat.min (run - 3) 2
    some (String.ofList (List.replicate kept quote ++ done).reverse, s.drop (kept + 3))

def multiline? (quote : Char) : Nat → List Char → List Char → Option (String × List Char)
  | 0, _, _ => none
  | fuel + 1, done, s =>
    match closing? quote done s with
    | some result => some result
    | none =>
      match s with
      | [] => none
      | c :: rest =>
        if c = '\\' ∧ quote = '"' then
          match lineBreak? (skipBlanks rest) with
          | some after => multiline? quote fuel done (skipContinuation after.length after)
          | none =>
            match escape? rest with
            | some (c, rest) => multiline? quote fuel (c :: done) rest
            | none => none
        else
          match lineBreak? s with
          | some rest => multiline? quote fuel ('\n' :: done) rest
          | none => if isCommentPart c then multiline? quote fuel (c :: done) rest else none

def simpleKey? (s : List Char) : Option (String × List Char) :=
  match s with
  | '"' :: rest => basic? (rest.length + 1) [] rest
  | '\'' :: rest => literal? rest
  | _ =>
    let bare := s.takeWhile isBareKeyPart
    if bare.isEmpty then none else some (String.ofList bare, s.dropWhile isBareKeyPart)

def key? : Nat → List Char → Option (List String × List Char)
  | 0, _ => none
  | fuel + 1, s =>
    match simpleKey? (skipBlanks s) with
    | none => none
    | some (part, rest) =>
      match skipBlanks rest with
      | '.' :: rest => (key? fuel rest).map fun (parts, rest) => (part :: parts, rest)
      | rest => some ([part], rest)

/-! ## Numbers and dates -/

/-- Digits of a base with single underscores between them, underscores removed. -/
def grouped? (isDigit : Char → Bool) : List Char → Option (List Char)
  | [] => none
  | [c] => if isDigit c then some [c] else none
  | c :: '_' :: rest =>
    if isDigit c then (grouped? isDigit rest).map (c :: ·) else none
  | c :: rest => if isDigit c then (grouped? isDigit rest).map (c :: ·) else none

def isDigitOrGap (c : Char) : Bool := c.isDigit || c = '_'

def decimal? (s : List Char) : Option (List Char) :=
  match grouped? Char.isDigit s with
  | some ('0' :: _ :: _) => none
  | other => other

/-- An integer, if it fits sixty-four bits with sign. -/
def ranged? (n : Int) : Option Json :=
  if -Int.pow 2 63 ≤ n ∧ n < Int.pow 2 63 then some (.number (toString n)) else none

def based? (base : Nat) (isDigit : Char → Bool) (s : List Char) : Option Json :=
  match grouped? isDigit s with
  | none => none
  | some digits =>
    ranged? (digits.foldl (fun v c => v * base + (Json.hexValue? c).getD 0) 0 : Nat)

def number? (s : List Char) : Option Json :=
  let (minus, body) := Numeral.splitSign s
  let sign := if minus then ['-'] else []
  if body = "inf".toList ∨ body = "nan".toList then some (.number (String.ofList (sign ++ body)))
  else
    let whole := body.takeWhile isDigitOrGap
    let rest := body.dropWhile isDigitOrGap
    match decimal? whole, rest with
    | none, _ => none
    | some digits, [] =>
      let value : Int := Numeral.ofDigits 0 digits
      ranged? (if minus then -value else value)
    | some digits, rest =>
      let (fraction, power) := match rest with
        | '.' :: after =>
          (grouped? Char.isDigit (after.takeWhile isDigitOrGap), after.dropWhile isDigitOrGap)
        | _ => (some [], rest)
      let exponent : Option (List Char) := match power with
        | [] => some []
        | c :: after =>
          if c = 'e' ∨ c = 'E' then
            let (down, digits) := Numeral.splitSign after
            (grouped? Char.isDigit digits).map fun digits =>
              ('e' :: if down then ['-'] else []) ++ digits
          else none
      match fraction, exponent with
      | some fraction, some exponent =>
        let point := if fraction.isEmpty then [] else '.' :: fraction
        let literal := sign ++ digits ++ point ++ exponent
        match Numeral.float? literal with
        | some x => if x.isFinite then some (.number (String.ofList literal)) else none
        | none => none
      | _, _ => none

def startsDate (s : List Char) : Bool :=
  match s with
  | a :: b :: ':' :: _ => a.isDigit && b.isDigit
  | a :: b :: c :: d :: '-' :: _ => a.isDigit && b.isDigit && c.isDigit && d.isDigit
  | _ => false

def isScalarPart (c : Char) : Bool :=
  c.isAlphanum || c = '_' || c = '-' || c = '+' || c = '.' || c = ':'

def scalar? (s : List Char) : Option (Json × List Char) :=
  let word := s.takeWhile isScalarPart
  let rest := s.dropWhile isScalarPart
  if word = "true".toList then some (.bool true, rest)
  else if word = "false".toList then some (.bool false, rest)
  else if startsDate word then
    match rest with
    | ' ' :: a :: b :: ':' :: _ =>
      if a.isDigit && b.isDigit then
        let time := rest.tail.takeWhile isScalarPart
        some (.text (String.ofList (word ++ 'T' :: time)), rest.tail.dropWhile isScalarPart)
      else some (.text (String.ofList word), rest)
    | _ => some (.text (String.ofList word), rest)
  else
    let value := match word with
      | '0' :: 'x' :: digits => based? 16 (fun c => (Json.hexValue? c).isSome) digits
      | '0' :: 'o' :: digits => based? 8 (fun c => '0' ≤ c && c ≤ '7') digits
      | '0' :: 'b' :: digits => based? 2 (fun c => c = '0' || c = '1') digits
      | _ => number? word
    value.map fun value => (value, rest)

/-! ## Tables -/

def Node.toJson : Node → Json
  | .value json => json
  | .table _ members => .object (membersToJson members)
  | .tables items => .list (itemsToJson items)
where
  membersToJson : List (String × Node) → List (String × Json)
    | [] => []
    | (key, node) :: rest => (key, node.toJson) :: membersToJson rest
  itemsToJson : List (List (String × Node)) → List Json
    | [] => []
    | members :: rest => .object (membersToJson members) :: itemsToJson rest

/-- The members with the node of a key replaced, or added at the end. -/
def put (key : String) (node : Node) : List (String × Node) → List (String × Node)
  | [] => [(key, node)]
  | head :: rest => if head.1 = key then (key, node) :: rest else head :: put key node rest

def changeLast {β : Type} (f : β → Option β) : List β → Option (List β)
  | [] => none
  | [last] => (f last).map fun last => [last]
  | head :: rest => (changeLast f rest).map (head :: ·)

/-- The members after a change at the end of a path of keys.  Tables that do not exist yet are made
with the origin `made`; `enters` tells through which tables the path may lead. -/
def changeAt (made : Origin) (enters : Origin → Bool)
    (change : String → List (String × Node) → Option (List (String × Node))) :
    List String → List (String × Node) → Option (List (String × Node))
  | [], _ => none
  | [key], members => change key members
  | key :: path, members =>
    match members.lookup key with
    | none =>
      (changeAt made enters change path []).map fun inner => put key (.table made inner) members
    | some (.table origin inner) =>
      if enters origin then
        (changeAt made enters change path inner).map fun inner =>
          put key (.table origin inner) members
      else none
    | some (.tables items) =>
      if made = .dotted then none
      else
        (changeLast (changeAt made enters change path) items).map fun items =>
          put key (.tables items) members
    | some (.value _) => none

/-- A key gets a value, once. -/
def define (value : Json) (key : String) (members : List (String × Node)) :
    Option (List (String × Node)) :=
  match members.lookup key with
  | none => some (put key (.value value) members)
  | some _ => none

/-- A key becomes a table with a header, once. -/
def open? (key : String) (members : List (String × Node)) : Option (List (String × Node)) :=
  match members.lookup key with
  | none => some (put key (.table .header []) members)
  | some (.table .passage inner) => some (put key (.table .header inner) members)
  | some _ => none

/-- A key gets one more item in its list of tables. -/
def append? (key : String) (members : List (String × Node)) : Option (List (String × Node)) :=
  match members.lookup key with
  | none => some (put key (.tables [[]]) members)
  | some (.tables items) => some (put key (.tables (items ++ [[]])) members)
  | some _ => none

def assign (path : List String) (value : Json) (members : List (String × Node)) :
    Option (List (String × Node)) :=
  changeAt .dotted (fun origin => origin ≠ .header) (define value) path members

def assignIn (current path : List String) (value : Json) (members : List (String × Node)) :
    Option (List (String × Node)) :=
  match current with
  | [] => assign path value members
  | _ =>
    changeAt .passage (fun _ => true)
      (fun key members =>
        match members.lookup key with
        | some (.table origin inner) =>
          (assign path value inner).map fun inner => put key (.table origin inner) members
        | some (.tables items) =>
          (changeLast (assign path value) items).map fun items => put key (.tables items) members
        | _ => none)
      current members

/-! ## Values and documents -/

mutual

def value? : Nat → List Char → Option (Json × List Char)
  | 0, _ => none
  | fuel + 1, s =>
    match s with
    | '"' :: '"' :: '"' :: rest =>
      let rest := (lineBreak? rest).getD rest
      (multiline? '"' (rest.length + 1) [] rest).map fun (s, rest) => (.text s, rest)
    | '\'' :: '\'' :: '\'' :: rest =>
      let rest := (lineBreak? rest).getD rest
      (multiline? '\'' (rest.length + 1) [] rest).map fun (s, rest) => (.text s, rest)
    | '"' :: rest => (basic? (rest.length + 1) [] rest).map fun (s, rest) => (.text s, rest)
    | '\'' :: rest => (literal? rest).map fun (s, rest) => (.text s, rest)
    | '[' :: rest => (items? fuel rest).map fun (items, rest) => (.list items, rest)
    | '\x7b' :: rest =>
      match skipBlanks rest with
      | '\x7d' :: rest => some (.object [], rest)
      | rest =>
        (inlineMembers? fuel [] rest).map fun (members, rest) =>
          ((Node.table .header members).toJson, rest)
    | _ => scalar? s

def items? : Nat → List Char → Option (List Json × List Char)
  | 0, _ => none
  | fuel + 1, s =>
    match skipLines s.length s with
    | ']' :: rest => some ([], rest)
    | s =>
      match value? fuel s with
      | none => none
      | some (item, rest) =>
        match skipLines rest.length rest with
        | ']' :: rest => some ([item], rest)
        | ',' :: rest => (items? fuel rest).map fun (items, rest) => (item :: items, rest)
        | _ => none

def inlineMembers? : Nat → List (String × Node) → List Char →
    Option (List (String × Node) × List Char)
  | 0, _, _ => none
  | fuel + 1, members, s =>
    match key? (s.length + 1) s with
    | some (path, '=' :: rest) =>
      match value? fuel (skipBlanks rest) with
      | none => none
      | some (value, rest) =>
        match assign path value members with
        | none => none
        | some members =>
          match skipBlanks rest with
          | '\x7d' :: rest => some (members, rest)
          | ',' :: rest => inlineMembers? fuel members rest
          | _ => none
    | _ => none

end

/-- The members of a document after the rest of its lines; `current` is the path of the table that
the latest header has opened. -/
def lines? : Nat → List String → List (String × Node) → List Char → Option (List (String × Node))
  | 0, _, _, _ => none
  | fuel + 1, current, members, s =>
    match skipLines s.length s with
    | [] => some members
    | '[' :: '[' :: rest =>
      match key? (rest.length + 1) rest with
      | some (path, ']' :: ']' :: rest) =>
        match changeAt .passage (fun _ => true) append? path members, endOfLine? rest with
        | some members, some rest => lines? fuel path members rest
        | _, _ => none
      | _ => none
    | '[' :: rest =>
      match key? (rest.length + 1) rest with
      | some (path, ']' :: rest) =>
        match changeAt .passage (fun _ => true) open? path members, endOfLine? rest with
        | some members, some rest => lines? fuel path members rest
        | _, _ => none
      | _ => none
    | s =>
      match key? (s.length + 1) s with
      | some (path, '=' :: rest) =>
        match value? (rest.length + 1) (skipBlanks rest) with
        | none => none
        | some (value, rest) =>
          match assignIn current path value members, endOfLine? rest with
          | some members, some rest => lines? fuel current members rest
          | _, _ => none
      | _ => none

def read? (source : String) : Option Json :=
  let s := source.toList
  (lines? (s.length + 1) [] [] s).map fun members => (Node.table .header members).toJson

end Toml

end FactorSearch
