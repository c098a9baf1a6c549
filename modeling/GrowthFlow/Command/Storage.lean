import GrowthFlow.Command.Path

/-!
# Files

`Storage` is what the command needs of a file system, and `FileError` why it may refuse. Saving a text and
making the directories for it are written once, for every file system.
-/

namespace GrowthFlow

/-- Why a file could not be read or written. -/
inductive FileError where
  | notFound
  | denied
  | busy
  | alreadyExists
  | notDirectory
  | isDirectory
  /-- A name, or a whole path, is longer than the system takes. -/
  | nameTooLong
  /-- The bytes are no text. -/
  | notText
  /-- Anything else, by its number. -/
  | other (code : Nat)
deriving DecidableEq, Repr

namespace FileError

/-- The error in words, with the number that the system gives it. -/
def message : FileError → String
  | notFound => "No such file or directory (os error 2)"
  | denied => "Permission denied (os error 13)"
  | busy => "Device or resource busy (os error 16)"
  | alreadyExists => "File exists (os error 17)"
  | notDirectory => "Not a directory (os error 20)"
  | isDirectory => "Is a directory (os error 21)"
  | nameTooLong => "File name too long (os error 36)"
  | notText => "stream did not contain valid UTF-8"
  | other code => "os error " ++ code.repr

/-- The error of a number. -/
def ofCode (code : Nat) : FileError :=
  match code with
  | 2 => notFound
  | 13 => denied
  | 16 => busy
  | 17 => alreadyExists
  | 20 => notDirectory
  | 21 => isDirectory
  | 36 => nameTooLong
  | code => other code

end FileError

/-- What the command needs of a file system. -/
class Storage (m : Type → Type) where
  /-- The bytes of a file. -/
  read : String → m (Except FileError ByteArray)
  /-- Makes a directory inside one that is there. A directory that is there already will do. -/
  makeDirectory : String → m (Except FileError Unit)
  /-- Writes a file in a directory that is there. -/
  write : String → String → m (Except FileError Unit)
  /-- Gives a file another name. -/
  rename : (old new : String) → m (Except FileError Unit)

namespace Storage

variable {m : Type → Type} [Monad m] [Storage m]

/-- The text of a file. -/
def readText (path : String) : ExceptT FileError m String := do
  let bytes ← ExceptT.mk (Storage.read path)
  match String.fromUTF8? bytes with
  | some text => return text
  | none => throw .notText

/-- Makes the first of some directories; if the one around it is missing, the others are made before. -/
def makeFirst : List String → ExceptT FileError m Unit
  | [] => return ()
  | path :: above =>
    let make : ExceptT FileError m Unit := ExceptT.mk (Storage.makeDirectory path)
    tryCatch make fun e =>
      if e = .notFound then makeFirst above *> make else throw e

/-- Makes a directory and those above it, as far as they are not there. -/
def makeDirectories (path : String) : ExceptT FileError m Unit := makeFirst (Path.ancestors path)

/-- Saves a text. It is written beside its place first, so that what is there is never half written. -/
def save (path text : String) : ExceptT FileError m Unit := do
  makeDirectories (Path.parent path)
  let draft := Path.withExtension "tmp" path
  ExceptT.mk (Storage.write draft text)
  ExceptT.mk (Storage.rename draft path)

end Storage

end GrowthFlow
