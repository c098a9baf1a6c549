import GrowthFlow.Text.Split

/-!
# Paths

A path is a text; its segments are separated by `/`. Empty segments say nothing, and `.` only says that
what stands before it is a directory. A segment other than `.` and `..` names a file or a directory.
-/

namespace GrowthFlow.Path

/-- What stands between the separators of a path, where that is not empty. -/
def segments (path : String) : List String :=
  ((Text.splitAt '/' path.toList).map String.ofList).filter (· != "")

/-- The segments that lead somewhere else. -/
def parts (path : String) : List String := (segments path).filter (· != ".")

/-- Whether the path starts at the root. -/
def isAbsolute (path : String) : Bool := path.toList.head? == some '/'

/-- Whether a separator stands behind the last segment. -/
def endsInSeparator (path : String) : Bool := path.toList.getLast? == some '/'

/-- Whether the last segment is a name. -/
def endsInName (path : String) : Bool :=
  match (segments path).getLast? with
  | none => false
  | some last => last != "." && last != ".."

/-- The name of the file, if the path names one. -/
def fileName? (path : String) : Option String :=
  (parts path).getLast?.filter (· != "..")

/-- The stem of a name, and its extension: what is before the last point, and what is behind it. A point
at the beginning starts no extension. -/
def splitName (name : String) : String × Option String :=
  let cs := name.toList.reverse
  match cs.dropWhile (· != '.') with
  | [] => (name, none)
  | _ :: before =>
    if before.isEmpty then (name, none)
    else (String.ofList before.reverse, some (String.ofList (cs.takeWhile (· != '.')).reverse))

/-- The name of the file without its extension. -/
def stem? (path : String) : Option String := (fileName? path).map fun name => (splitName name).1

/-- The extension of the file. -/
def extension? (path : String) : Option String := (fileName? path).bind fun name => (splitName name).2

/-- Drops the separators and the segments `.` that a path ends in. The path is given backwards, so that
they come first. -/
def dropTail : List Char → List Char
  | '/' :: cs => dropTail cs
  | '.' :: '/' :: cs => dropTail cs
  | cs => cs

/-- The directory that a path is in. -/
def parent (path : String) : String :=
  let above := dropTail ((dropTail path.toList.reverse).dropWhile (· != '/'))
  if above.isEmpty && isAbsolute path then "/" else String.ofList above.reverse

/-- The path, and the `n - 1` directories above it, from the inside out. -/
def ancestorsUpTo : Nat → String → List String
  | 0, _ => []
  | n + 1, path => path :: ancestorsUpTo n (parent path)

/-- The path and all the directories above it, from the inside out. -/
def ancestors (path : String) : List String := ancestorsUpTo (parts path).length path

/-- The path without the letters of its extension. They are taken from the end of the text, whatever
stands there. -/
def dropExtension (path : String) : String :=
  match extension? path with
  | some e => String.ofList (path.toList.take (path.length - e.length))
  | none => path

/-- The path with another extension. A path that names no file without its extension stays without. -/
def withExtension (extension path : String) : String :=
  let bare := dropExtension path
  match fileName? bare with
  | some name =>
    String.ofList ((dropTail bare.toList.reverse).drop name.length).reverse ++ (splitName name).1 ++
      "." ++ extension
  | none => bare

/-- Where a report goes if nothing else is said. -/
def defaultOutput (source : String) : String :=
  "output/" ++ (stem? source).getD "result" ++ ".json"

end GrowthFlow.Path
