import FactorSearch.Formula.Program

/-!
# Formulas as text

A formula is a name, or a name followed by a parenthesised list of formulas separated by commas.
Blanks (space, tab, carriage return, line feed) may stand between the parts.  Reading goes from
characters to lexemes, from lexemes to a `Call`, and from there to a program; names are resolved
only once the whole text has been read.
-/

set_option autoImplicit false

namespace FactorSearch

namespace Formula

/-- The most names or opening parentheses that a text may hold. -/
def sizeLimit : Nat := 128

def isLetter (c : Char) : Bool := c.isAlpha

def isNamePart (c : Char) : Bool := c.isAlphanum || c = '_'

def isBlank (c : Char) : Bool := c = ' ' || c = '\t' || c = '\r' || c = '\n'

/-- The number of names that start in a text; `inName` tells whether the text continues one. -/
def countNamesFrom (inName : Bool) : List Char → Nat
  | [] => 0
  | c :: rest =>
    if inName then countNamesFrom (isNamePart c) rest
    else if isLetter c then countNamesFrom true rest + 1
    else countNamesFrom false rest

def countNames (text : String) : Nat := countNamesFrom false text.toList

inductive Lexeme where
  | name (letters : List Char)
  | opening
  | comma
  | closing
  deriving DecidableEq, Repr

def lexemes? : List Char → Option (List Lexeme)
  | [] => some []
  | c :: rest =>
    if isBlank c then lexemes? rest
    else if c = '(' then (lexemes? rest).map (Lexeme.opening :: ·)
    else if c = ',' then (lexemes? rest).map (Lexeme.comma :: ·)
    else if c = ')' then (lexemes? rest).map (Lexeme.closing :: ·)
    else if isLetter c then
      (lexemes? (rest.dropWhile isNamePart)).map
        (Lexeme.name (c :: rest.takeWhile isNamePart) :: ·)
    else none
  termination_by text => text.length
  decreasing_by
    all_goals simp only [List.length_cons]
    all_goals first
      | omega
      | exact Nat.lt_succ_of_le (List.dropWhile_suffix isNamePart).length_le

inductive Call where
  | mk (name : List Char) (arguments : List Call)

mutual

def call? : Nat → List Lexeme → Option (Call × List Lexeme)
  | 0, _ => none
  | fuel + 1, .name letters :: .opening :: rest =>
    match arguments? fuel rest with
    | some (arguments, rest) => some (⟨letters, arguments⟩, rest)
    | none => none
  | _ + 1, .name letters :: rest => some (⟨letters, []⟩, rest)
  | _ + 1, _ => none

def arguments? : Nat → List Lexeme → Option (List Call × List Lexeme)
  | 0, _ => none
  | fuel + 1, text =>
    match call? fuel text with
    | some (first, .comma :: rest) =>
      match arguments? fuel rest with
      | some (others, rest) => some (first :: others, rest)
      | none => none
    | some (last, .closing :: rest) => some ([last], rest)
    | _ => none

end

def read? (text : String) : Option Call :=
  match lexemes? text.toList with
  | none => none
  | some parts =>
    match call? (2 * parts.length) parts with
    | some (call, []) => some call
    | _ => none

mutual

/-- The program of a call: its name is looked up before its arguments are resolved, and their
number is checked after. -/
def Call.resolve (v : Vocabulary) : Call → Except FormulaFault Program
  | ⟨letters, arguments⟩ =>
    let name := String.ofList letters
    match v.token? name with
    | none => .error (.unknownName name)
    | some token =>
      match v.entry? token with
      | none => .error (.unknownName name)
      | some entry =>
        match Call.resolveAll v arguments with
        | .error fault => .error fault
        | .ok operands =>
          if arguments.length = entry.arity then .ok (operands ++ [token])
          else .error (.argumentCount entry.name entry.arity arguments.length)

def Call.resolveAll (v : Vocabulary) : List Call → Except FormulaFault Program
  | [] => .ok []
  | call :: rest =>
    match call.resolve v with
    | .error fault => .error fault
    | .ok program =>
      match Call.resolveAll v rest with
      | .error fault => .error fault
      | .ok programs => .ok (program ++ programs)

end

def parse (v : Vocabulary) (text : String) : Except FormulaFault Program :=
  let names := countNames text
  let calls := text.toList.countP (· = '(')
  if sizeLimit < names || sizeLimit < calls then .error (.tooLarge names calls sizeLimit)
  else
    match read? text with
    | none => .error .noFormula
    | some call => call.resolve v

end Formula

end FactorSearch
