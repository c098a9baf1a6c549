import GrowthFlow.Command.Storage
import GrowthFlow.Assoc

/-!
# Files in memory

`FileTree` is a file system in memory, so that a whole run is a function of the files it starts with.

A path is walked segment by segment. The walk keeps the directories it came through, so that `..` finds the
one around it, and so that the tree can be put together again with something else at its end. Nothing is
known of what is around the directory of the run, and a run may still go there: the directory above is the
child `..`, and the root is the child `/`. No segment is a name like that.
-/

namespace GrowthFlow

/-- A file, or a directory with what is in it. -/
inductive FileTree where
  | file (bytes : ByteArray)
  | directory (children : List (String × FileTree))
deriving Inhabited

namespace FileTree

/-- A directory with nothing in it. -/
def empty : FileTree := directory []

/-- What is in a directory. -/
def children : FileTree → Assoc FileTree
  | file _ => []
  | directory cs => cs

/-- The tree with something at a name in it. -/
def setChild (t : FileTree) (name : String) (child : FileTree) : FileTree :=
  directory (Assoc.set name child t.children)

/-- The tree with nothing at a name in it. -/
def eraseChild (t : FileTree) (name : String) : FileTree :=
  directory (t.children.filter (·.1 != name))

/-- The most bytes of a name. -/
def maxNameBytes : Nat := 255

/-- The most bytes of a path. -/
def maxPathBytes : Nat := 4095

/-- Where a walk has come to. -/
structure Position where
  /-- What is there, if anything is. -/
  here : Option FileTree
  /-- The directories that it is in, each with the name that leads on, from the inside out. -/
  around : List (String × FileTree)

namespace Position

/-- Where a walk starts. -/
def start (t : FileTree) (absolute : Bool) : Position :=
  if absolute then ⟨some ((t.children.get? "/").getD empty), [("/", t)]⟩ else ⟨some t, []⟩

/-- The position above. The directories above that of the run are entered, and the root is above
itself. -/
def leave (p : Position) (here : FileTree) : Position :=
  match p.around with
  | [] => ⟨some ((here.children.get? "..").getD empty), [("..", here)]⟩
  | (name, outer) :: rest =>
    if name = "/" then p
    else if name = ".." then ⟨some ((here.children.get? "..").getD empty), ("..", here) :: p.around⟩
    else ⟨some outer, rest⟩

/-- The position that a segment leads to. One can only go on from a directory. -/
def step (p : Position) (segment : String) : Except FileError Position :=
  match p.here with
  | none => .error .notFound
  | some (file _) => .error .notDirectory
  | some (directory cs) =>
    if maxNameBytes < segment.utf8ByteSize then .error .nameTooLong
    else if segment = "." then .ok p
    else if segment = ".." then .ok (p.leave (directory cs))
    else .ok ⟨Assoc.get? cs segment, (segment, directory cs) :: p.around⟩

/-- The whole tree with something at the position. -/
def fill (p : Position) (t : FileTree) : FileTree :=
  p.around.foldl (fun t (name, outer) => outer.setChild name t) t

/-- The whole tree with nothing at the position. -/
def clear (p : Position) : FileTree :=
  match p.around with
  | [] => empty
  | (name, outer) :: rest => fill ⟨none, rest⟩ (outer.eraseChild name)

end Position

/-- Walks along a path. -/
def walk (t : FileTree) (path : String) : Except FileError Position :=
  if path = "" then .error .notFound
  else if maxPathBytes < path.utf8ByteSize then .error .nameTooLong
  else (Path.segments path).foldlM Position.step (Position.start t (Path.isAbsolute path))

/-- The bytes of a file. -/
def read (t : FileTree) (path : String) : Except FileError ByteArray := do
  match (← t.walk path).here with
  | none => throw .notFound
  | some (directory _) => throw .isDirectory
  | some (file bytes) => if Path.endsInSeparator path then throw .notDirectory else return bytes

/-- Makes a directory, unless there is one. -/
def makeDirectory (t : FileTree) (path : String) : Except FileError FileTree := do
  let p ← t.walk path
  match p.here with
  | none => return p.fill empty
  | some (directory _) => return t
  | some (file _) => throw .alreadyExists

/-- Writes a file. -/
def write (t : FileTree) (path text : String) : Except FileError FileTree := do
  let p ← t.walk path
  match p.here with
  | some (directory _) => throw .isDirectory
  | _ => if Path.endsInSeparator path then throw .isDirectory else return p.fill (file text.toUTF8)

/-- Gives a file another name. What has the new name is replaced, unless it is a directory, and a path that
does not end in a name has nothing to be replaced. -/
def rename (t : FileTree) (old new : String) : Except FileError FileTree := do
  let source ← t.walk old
  let target ← t.walk new
  if !Path.endsInName new then throw .busy
  match source.here, target.here with
  | none, _ => throw .notFound
  | some moved, found =>
    if Path.endsInSeparator new then throw .notDirectory
    match found with
    | some (directory _) => throw .isDirectory
    | _ => return (← source.clear.walk new).fill moved

/-- Changes the files, if that is possible. -/
def change (f : FileTree → Except FileError FileTree) : StateM FileTree (Except FileError Unit) := do
  match f (← get) with
  | .ok t =>
    set t
    return .ok ()
  | .error e => return .error e

instance : Storage (StateM FileTree) where
  read path := return (← get).read path
  makeDirectory path := change (·.makeDirectory path)
  write path text := change (·.write path text)
  rename old new := change (·.rename old new)

/-- The tree with something at the end of some names, and with the directories on the way there. -/
def insert (t child : FileTree) : List String → FileTree
  | [] => child
  | name :: names => t.setChild name (insert ((t.children.get? name).getD empty) child names)

/-- The tree that holds the given files, with their directories. -/
def ofFiles (files : List (String × ByteArray)) : FileTree :=
  files.foldl (fun t (path, bytes) => t.insert (file bytes) (Path.parts path)) empty

mutual

/-- The files of a tree, with the paths they have below `path`. -/
def filesAt (path : String) : FileTree → List (String × ByteArray)
  | file bytes => [(path, bytes)]
  | directory cs => filesIn (path ++ "/") cs

/-- The files of some children, with their paths behind `path`. -/
def filesIn (path : String) : List (String × FileTree) → List (String × ByteArray)
  | [] => []
  | (name, t) :: cs => filesAt (path ++ name) t ++ filesIn path cs

end

/-- The files in the directory of the run, with their paths. -/
def files (t : FileTree) : List (String × ByteArray) :=
  filesIn "" (t.children.filter fun (name, _) => name != ".." && name != "/")

end FileTree

end GrowthFlow
