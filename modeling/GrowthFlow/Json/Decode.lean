import GrowthFlow.Json.Basic
import GrowthFlow.Json.Node
import GrowthFlow.Flow.Matrix
import GrowthFlow.Assoc

/-!
# Decoding JSON

A decoder takes a value out of a JSON text that was read. It goes through the text in reading order and
stops at the first fault.

A record is an object with the fields it needs, in any order, or an array of their values in the order
of declaration. Other fields of an object are passed over, but a field that is known must not repeat, and
what is passed over must be JSON. `Fields` collects what is taken from a record, together with the
place of the first fault, so that the order of declaration does not decide which fault is told.
-/

namespace GrowthFlow.Json

/-- Why a text does not hold the value that was asked for. -/
inductive DecodeError where
  /-- The text is no JSON, or has another form. -/
  | mismatch
  /-- The form is right, but a matrix in it is not. -/
  | malformed (e : ShapeError)
deriving DecidableEq, Repr

/-- Takes a value out of a text. -/
abbrev Decoder (α : Type) := Node → Except DecodeError α

mutual

/-- A value as it is read back. -/
def node : Json → Node
  | null => .null
  | bool b => .bool b
  | int n => .int n
  | str s => .text (some s)
  | arr items => .list (nodes items)
  | obj fields => .record (fieldNodes fields)

/-- Items as they are read back. -/
def nodes : List Json → List Node
  | [] => []
  | j :: js => node j :: nodes js

/-- Fields as they are read back. -/
def fieldNodes : List (String × Json) → List (Option String × Node)
  | [] => []
  | (k, j) :: fs => (some k, node j) :: fieldNodes fs

end

namespace Decoder

variable {α β : Type}

/-- Nothing fits. -/
def fail : Except DecodeError α := .error .mismatch

/-- A truth value. -/
def bool : Decoder Bool
  | .bool b => .ok b
  | _ => fail

/-- A natural number below a limit. -/
def natBelow (limit : Nat) : Decoder Nat
  | .int (.ofNat n) => if n < limit then .ok n else fail
  | _ => fail

/-- A number of 64 bits. -/
def word : Decoder Nat := natBelow (Nat.pow 2 64)

/-- A number of 8 bits. -/
def byte : Decoder Nat := natBelow (Nat.pow 2 8)

/-- A string. -/
def text : Decoder String
  | .text (some s) => .ok s
  | _ => fail

/-- A list. -/
def list (d : Decoder α) : Decoder (List α)
  | .list items => items.mapM d
  | _ => fail

/-- A pair, as a list of two. -/
def pair (d : Decoder α) (e : Decoder β) : Decoder (α × β)
  | .list [a, b] => do return (← d a, ← e b)
  | _ => fail

/-- A value or `null`. -/
def optional (d : Decoder α) : Decoder (Option α)
  | .null => .ok none
  | n => some <$> d n

/-- An entry of a table. -/
def entry (d : Decoder α) : Option String × Node → Except DecodeError (String × α)
  | (some key, n) => do return (key, ← d n)
  | (none, _) => fail

/-- A table. A key that repeats has its last value at its first place. -/
def table (d : Decoder α) : Decoder (Assoc α)
  | .record fields => Assoc.ofPairs <$> fields.mapM (entry d)
  | _ => fail

/-- A value that has to pass a test of its shape. -/
def checked (d : Decoder α) (f : α → Except ShapeError β) : Decoder β := fun n => do
  match f (← d n) with
  | .ok b => return b
  | .error e => .error (.malformed e)

end Decoder

/-- A fault and the number of the field it is in. -/
abbrev FieldFault := Nat × DecodeError

/-- What is taken out of the fields of a record. -/
structure Fields (α : Type) where
  /-- The names in the order of declaration. -/
  names : List String
  /-- The value, or the first fault. -/
  read : List (Option String × Node) → Except FieldFault α

namespace Fields

variable {α β : Type}

/-- Both values, or the fault that comes first. -/
def both (f : Except FieldFault (α → β)) (a : Except FieldFault α) : Except FieldFault β :=
  match f, a with
  | .ok f, .ok a => .ok (f a)
  | .error e, .ok _ => .error e
  | .ok _, .error e => .error e
  | .error e, .error e' => .error (if e.1 ≤ e'.1 then e else e')

instance : Applicative Fields where
  pure a := ⟨[], fun _ => .ok a⟩
  seq f a := ⟨f.names ++ (a ()).names, fun fields => both (f.read fields) ((a ()).read fields)⟩

/-- The first field of a name, decoded; `absent` if there is none. -/
def readField (name : String) (d : Decoder α) (absent : Option α)
    (fields : List (Option String × Node)) : Except FieldFault α :=
  match fields.zipIdx.find? (·.1.1 == some name) with
  | some ((_, n), i) => (d n).mapError (i, ·)
  | none =>
    match absent with
    | some a => .ok a
    | none => .error (fields.length, .mismatch)

/-- A field that has to be there. -/
def required (name : String) (d : Decoder α) : Fields α := ⟨[name], readField name d none⟩

/-- A field with a value for when it is not there. -/
def orElse (name : String) (d : Decoder α) (absent : α) : Fields α :=
  ⟨[name], readField name d (some absent)⟩

/-- A field that may be absent or `null`. -/
def optional (name : String) (d : Decoder α) : Fields (Option α) :=
  orElse name d.optional none

/-- Whether a field that follows others has a fault, whatever is taken out of it: it has no readable
name, repeats a name, or is passed over and not complete. -/
def isStray (names : List String) (before : List (Option String)) :
    Option String × Node → Bool
  | (none, _) => true
  | (some key, n) => if names.contains key then before.contains (some key) else !n.isComplete

/-- The number of the first such field. -/
def stray? (names : List String) (before : List (Option String)) :
    List (Option String × Node) → Option Nat
  | [] => none
  | f :: fs => if isStray names before f then some before.length else stray? names (before ++ [f.1]) fs

/-- A record. -/
def record (r : Fields α) : Decoder α
  | .record fields =>
    match stray? r.names [] fields, r.read fields with
    | none, .ok a => .ok a
    | none, .error e => .error e.2
    | some _, .ok _ => .error .mismatch
    | some i, .error e => .error (if e.1 < i then e.2 else .mismatch)
  | .list items =>
    match r.read ((r.names.zip items).map fun (name, n) => (some name, n)) with
    | .ok a => if items.length ≤ r.names.length then .ok a else .error .mismatch
    | .error e => .error e.2
  | _ => .error .mismatch

end Fields

end GrowthFlow.Json
