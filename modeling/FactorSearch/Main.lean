import FactorSearch.CommandLine.Program

/-!
# Entry point

Reads the files and variables that the command line asks for, and does what the program says.
-/

set_option autoImplicit false

namespace FactorSearch

namespace CommandLine

def readFile? (path : String) : IO (Option String) := do
  try
    return some (← IO.FS.readFile path)
  catch _ =>
    return none

def environment : IO (List (String × String)) := do
  let text ← readFile? "/proc/self/environ"
  return ((text.getD "").splitOn (String.singleton (Char.ofNat 0))).filterMap fun line =>
    match line.splitOn "=" with
    | name :: first :: rest => some (name, "=".intercalate (first :: rest))
    | _ => none

def freshSeed : IO UInt64 := do
  let bytes ← IO.getRandomBytes 8
  return bytes.toList.foldl (fun word byte => word * 256 + byte.toUInt64) 0

def readFiles : List String → IO (List (String × Option String))
  | [] => return []
  | path :: rest => do
    let text ← readFile? path
    let others ← readFiles rest
    return (path, text) :: others

def perform (e : Effect) : IO UInt32 := do
  IO.print e.output
  IO.eprint e.notes
  match e.file with
  | none => return UInt32.ofNat e.exitCode
  | some (path, text) =>
    try
      IO.FS.writeFile path text
      return UInt32.ofNat e.exitCode
    catch failure =>
      IO.eprintln failure.toString
      return UInt32.ofNat failureCode

end CommandLine

end FactorSearch

open FactorSearch.CommandLine in
def main (arguments : List String) : IO UInt32 := do
  let paths := match read arguments with
    | .ok invocation => invocation.files
    | .error _ => []
  let files ← readFiles paths
  let surroundings : Surroundings :=
    { file := fun path => (files.lookup path).join
      environment := ← environment
      seed := ← freshSeed }
  perform (FactorSearch.CommandLine.run surroundings arguments)
