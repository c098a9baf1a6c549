import GrowthFlow.Command.Run

/-!
# The command line
-/

namespace GrowthFlow

/-- The number of an error. Some actions report it with a minus sign. -/
def errorNumber (code : UInt32) : Nat := min code.toNat (4294967296 - code.toNat)

/-- The error that the system reports. -/
def FileError.ofSystem : IO.Error → FileError
  | .noFileOrDirectory _ code _ => .ofCode (errorNumber code)
  | .permissionDenied _ code _ => .ofCode (errorNumber code)
  | .alreadyExists _ code _ => .ofCode (errorNumber code)
  | .inappropriateType _ code _ => .ofCode (errorNumber code)
  | .resourceBusy code _ => .ofCode (errorNumber code)
  | .resourceExhausted _ code _ => .ofCode (errorNumber code)
  | .invalidArgument _ code _ => .ofCode (errorNumber code)
  | .otherError code _ => .ofCode (errorNumber code)
  | _ => .other 0

/-- Runs an action on files. -/
def attempt {α : Type} (act : IO α) : IO (Except FileError α) := do
  match ← act.toBaseIO with
  | .ok a => return .ok a
  | .error e => return .error (.ofSystem e)

/-- Makes a directory. One that is there already will do. -/
def makeDirectoryOnce (path : String) : IO (Except FileError Unit) := do
  match ← attempt (IO.FS.createDir path) with
  | .error .alreadyExists =>
    return if ← (← IO.FS.realPath path).isDir then .ok () else .error .alreadyExists
  | result => return result

instance : Storage IO where
  read path := attempt (IO.FS.readBinFile path)
  makeDirectory path := makeDirectoryOnce path
  write path text := attempt (IO.FS.writeFile path text)
  rename old new := attempt (IO.FS.rename old new)

end GrowthFlow

/-- Runs the command with the given arguments. -/
def main (args : List String) : IO UInt32 := do
  let response ← (GrowthFlow.Request.ofArguments args).run
  IO.print response.output
  IO.eprint response.errors
  return response.code.toUInt32
