import GrowthFlow.Analysis.Options
import GrowthFlow.Text.Decimal

/-!
# The arguments of the command

The source file and the options, in any order; behind `--` nothing is an option. An option that takes no
value may be given once, but for the one that asks for more to be told.
-/

namespace GrowthFlow

/-- What to analyze, and how. -/
structure Command where
  file : String
  out : Option String := none
  noSave : Bool := false
  loops : Bool := false
  silent : Bool := false
  verbose : Bool := false
  options : Options := {}
deriving DecidableEq, Repr

/-- What the arguments ask for. -/
inductive Request where
  | help
  | version
  /-- The arguments are not understood. -/
  | refused
  | analyze (c : Command)
deriving DecidableEq, Repr

namespace Request

/-- An option without a value. -/
inductive Flag where
  | noSave
  | complete
  | strict
  | loops
  | boundedFor
  | silent
deriving DecidableEq, Repr

/-- The arguments read so far. -/
structure Collected where
  file : Option String := none
  out : Option String := none
  limit : Option Nat := none
  flags : List Flag := []
  verbose : Bool := false
deriving DecidableEq, Repr

/-- A step over the arguments; what it throws ends the reading. -/
abbrev Reading := Except Request

/-- Sets an option that may be given once. -/
def addFlag (f : Flag) (st : Collected) : Reading Collected :=
  if st.flags.contains f then throw .refused else return { st with flags := f :: st.flags }

/-- The name of a file. -/
def addFile (path : String) (st : Collected) : Reading Collected :=
  if st.file.isSome || path == "" then throw .refused else return { st with file := some path }

/-- The value of `--out`. -/
def addOut (path : String) (st : Collected) : Reading Collected :=
  if st.out.isSome || path == "" then throw .refused else return { st with out := some path }

/-- A number of 64 bits, with or without a plus. -/
def readLimit? (s : String) : Option Nat :=
  let digits := match s.toList with
    | '+' :: ds => ds
    | ds => ds
  let n := Text.decimalValue digits
  if !digits.isEmpty && digits.all Char.isDigit && n < Nat.pow 2 64 then some n else none

/-- The value of `--fixpoint-limit`. -/
def addLimit (s : String) (st : Collected) : Reading Collected :=
  match readLimit? s with
  | some n => if st.limit.isSome then throw .refused else return { st with limit := some n }
  | none => throw .refused

/-- A long option without a value. -/
def addLong (name : String) (st : Collected) : Reading Collected :=
  match name with
  | "no-save" => addFlag .noSave st
  | "fin" => addFlag .complete st
  | "strict" => addFlag .strict st
  | "loops" => addFlag .loops st
  | "bounded-for" => addFlag .boundedFor st
  | "silent" => addFlag .silent st
  | "verbose" => return { st with verbose := true }
  | "help" => throw .help
  | "version" => throw .version
  | _ => throw .refused

/-- A long option with a value. -/
def addValue (name value : String) (st : Collected) : Reading Collected :=
  match name with
  | "out" => addOut value st
  | "fixpoint-limit" => addLimit value st
  | _ => throw .refused

/-- One letter of short options. -/
def addShort (st : Collected) (c : Char) : Reading Collected :=
  match c with
  | 's' => addFlag .silent st
  | 'v' => return { st with verbose := true }
  | 'h' => throw .help
  | 'V' => throw .version
  | _ => throw .refused

/-- What an argument is. -/
inductive Argument where
  /-- `--`. -/
  | divider
  /-- A long option that takes the next argument. -/
  | taking (name : String)
  | long (name : String)
  | longValue (name value : String)
  | short (letters : List Char)
  | plain (text : String)
deriving DecidableEq, Repr

/-- The options that take a value. -/
def takingNames : List String := ["out", "fixpoint-limit"]

/-- Reads one argument. -/
def Argument.ofText (arg : String) : Argument :=
  match arg.toList with
  | ['-', '-'] => divider
  | '-' :: '-' :: cs =>
    match cs.dropWhile (· != '=') with
    | _ :: value => longValue (String.ofList (cs.takeWhile (· != '='))) (String.ofList value)
    | [] => if takingNames.contains (String.ofList cs) then taking (String.ofList cs)
      else long (String.ofList cs)
  | '-' :: c :: cs => short (c :: cs)
  | _ => plain arg

/-- Reads the arguments one after another. -/
def readAll : List String → Collected → Reading Collected
  | [], st => return st
  | arg :: rest, st =>
    match Argument.ofText arg with
    | .divider => rest.foldlM (fun st path => addFile path st) st
    | .taking name =>
      match rest with
      | [] => throw .refused
      | next :: rest =>
        match Argument.ofText next with
        | .plain value => do readAll rest (← addValue name value st)
        | _ => throw .refused
    | .long name => do readAll rest (← addLong name st)
    | .longValue name value => do readAll rest (← addValue name value st)
    | .short letters => do readAll rest (← letters.foldlM addShort st)
    | .plain path => do readAll rest (← addFile path st)

/-- The command, if there is a file to analyze. -/
def Collected.request (st : Collected) : Request :=
  match st.file with
  | none => .refused
  | some file =>
    let has (f : Flag) : Bool := st.flags.contains f
    let defaults : Options := {}
    .analyze
      { file
        out := st.out
        noSave := has .noSave
        loops := has .loops
        silent := has .silent
        verbose := st.verbose
        options :=
          { complete := has .complete
            strict := has .strict
            boundedFor := has .boundedFor
            limit := st.limit.getD defaults.limit } }

/-- What the arguments ask for. -/
def ofArguments (args : List String) : Request :=
  match readAll args {} with
  | .ok st => st.request
  | .error r => r

end Request

end GrowthFlow
