import GrowthFlow.Flow.Relation
import GrowthFlow.Flow.Bound
import GrowthFlow.Text.Blank

/-!
# Reports

What an analysis finds out about a program: the relation, choices and bounds of its functions, or the
growth of the variables of its loops. `Report.text` is what a reader gets to see.
-/

namespace GrowthFlow

/-- Numbers about a source text. -/
structure ProgramInfo where
  name : Option String := none
  lines : Nat := 0
  functions : Nat := 0
  loops : Nat := 0
  functionVariables : Nat := 0
  loopVariables : Nat := 0
deriving DecidableEq, Repr

/-- What is known about a function. -/
structure FunctionResult where
  name : String
  /-- No choice gives a bound. -/
  infinite : Bool
  /-- The number of choice indices. -/
  index : Nat
  vars : List String
  relation : Option Relation := none
  choices : Option Choices := none
  bounds : Option Bounds := none
  /-- The flows without a bound, in words. -/
  flows : Option String := none
  millis : Nat := 0
deriving DecidableEq, Repr

/-- What is known about a variable of a loop. Without a growth it has no bound. -/
structure VariableResult where
  name : String
  growth : Option Scalar := none
  bound : Option Bound := none
  choices : Option Choices := none
deriving DecidableEq, Repr

/-- What is known about a loop. -/
structure LoopResult where
  code : String
  vars : Assoc VariableResult
  millis : Nat := 0
deriving DecidableEq, Repr

/-- What is known about the loops of a function. -/
structure FunctionLoops where
  name : String
  loops : List LoopResult
  millis : Nat := 0
deriving DecidableEq, Repr

/-- What is known about a program. -/
structure Report where
  program : ProgramInfo
  relations : Assoc FunctionResult := []
  loops : Assoc FunctionLoops := []
  millis : Nat := 0
deriving DecidableEq, Repr

namespace FunctionResult

/-- The number of choices that give a bound. -/
def count (r : FunctionResult) : Nat := (r.choices.map Choices.count).getD 0

/-- What follows the number of variables: the number of bounds, and the bounds or what prevents them. -/
def verdictText (r : FunctionResult) : String :=
  if r.infinite then
    " • num-bounds: 0 (infinite)" ++
      (match r.flows with
        | some flows => if flows.isEmpty then "" else "\nproblematic flows: " ++ flows
        | none => "")
  else if r.vars.isEmpty then ""
  else
    " • num-bounds: " ++ r.count.repr ++
      (match r.bounds with
        | some bounds => "\n" ++ bounds.text true true
        | none => "")

/-- The result in words. -/
def text (r : FunctionResult) : String :=
  "function: " ++ r.name ++ " • time: " ++ r.millis.repr ++ " ms\nvariables: " ++
    r.vars.length.repr ++ r.verdictText

/-- Whether two optional values agree. -/
def sameOption {α : Type} (eq : α → α → Bool) : Option α → Option α → Bool
  | some a, some b => eq a b
  | none, none => true
  | _, _ => false

/-- Whether two results agree, where the order of variables does not count. -/
def same (r s : FunctionResult) : Bool :=
  { r with relation := none, bounds := none } == { s with relation := none, bounds := none } &&
    sameOption Relation.same r.relation s.relation &&
    sameOption (Assoc.sameBy (· == ·)) r.bounds s.bounds

end FunctionResult

namespace VariableResult

/-- The variable grows as a maximum. -/
def isLinear (r : VariableResult) : Bool := r.growth == some .m

/-- The variable grows at most weakly. -/
def isWeak (r : VariableResult) : Bool := r.growth == some .m || r.growth == some .w

/-- The variable grows at most polynomially. -/
def isPoly (r : VariableResult) : Bool := r.growth.isSome

end VariableResult

namespace LoopResult

/-- The variables that satisfy a condition. -/
def select (r : LoopResult) (f : VariableResult → Bool) : List String :=
  (r.vars.filter fun (_, v) => f v).map (·.1)

/-- The variables that grow as a maximum. -/
def linear (r : LoopResult) : List String := r.select (·.isLinear)

/-- The variables that grow weakly, and not less. -/
def weak (r : LoopResult) : List String := r.select fun v => v.isWeak && !v.isLinear

/-- The variables that grow polynomially, and not less. -/
def poly (r : LoopResult) : List String := r.select fun v => v.isPoly && !v.isWeak

/-- The variables without a bound. -/
def unbounded (r : LoopResult) : List String := r.select (!·.isPoly)

/-- Adds a bound in the order of names. -/
def insertBound (x : String) (b : Bound) : List (String × Bound) → List (String × Bound)
  | [] => [(x, b)]
  | (y, c) :: rest => if y < x then (y, c) :: insertBound x b rest else (x, b) :: (y, c) :: rest

/-- The bounds in the order of names. -/
def bounds (r : LoopResult) : Bounds :=
  r.vars.foldr (fun (x, v) bs =>
    match v.bound with
    | some b => insertBound x b bs
    | none => bs) []

/-- Whether two results agree, where the order of variables does not count. -/
def same (r s : LoopResult) : Bool :=
  r.code == s.code && r.millis == s.millis && Assoc.sameBy (· == ·) r.vars s.vars

/-- The first line of the loop, cut off after 40 characters. -/
def header (r : LoopResult) : String :=
  String.ofList ((Text.trimBlanks (Text.firstLine r.code.toList)).take 40) ++ "…"

/-- Names in a list, or a dash. -/
def listText (xs : List String) : String := if xs.isEmpty then "—" else ", ".intercalate xs

/-- The result in words. -/
def text (r : LoopResult) : String :=
  r.header ++
    if r.vars.isEmpty then "\nvariables: 0"
    else
      "\nlinear: " ++ listText r.linear ++ "\nindependent: " ++ listText r.weak ++
        "\npolynomial: " ++ listText r.poly ++ "\ninfinity: " ++ listText r.unbounded ++
        "\n" ++ r.bounds.text true true

end LoopResult

namespace FunctionLoops

/-- Whether two results agree, where the order of variables does not count. -/
def same (r s : FunctionLoops) : Bool :=
  r.name == s.name && r.millis == s.millis && r.loops.length == s.loops.length &&
    (r.loops.zip s.loops).all fun (a, b) => a.same b

/-- The results in words. -/
def text (r : FunctionLoops) : String :=
  "function: " ++ r.name ++ " • loops: " ++ r.loops.length.repr ++ " • time: " ++ r.millis.repr ++
    " ms" ++
    String.join (r.loops.mapIdx fun i l => "\n" ++ (i + 1).repr ++ " ::: " ++ l.text)

end FunctionLoops

namespace Report

/-- The text of each result, functions before loops. -/
def texts (r : Report) : List String :=
  r.relations.map (·.2.text) ++ r.loops.map (·.2.text)

/-- Adds what is known about a function; an earlier result of the same name is replaced. -/
def addFunction (r : Report) (f : FunctionResult) : Report :=
  { r with relations := r.relations.set f.name f }

/-- Adds what is known about the loops of a function. -/
def addLoops (r : Report) (f : FunctionLoops) : Report := { r with loops := r.loops.set f.name f }

/-- Whether two reports agree, where the order of functions and variables does not count. -/
def same (r s : Report) : Bool :=
  r.program == s.program && r.millis == s.millis &&
    Assoc.sameBy FunctionResult.same r.relations s.relations &&
    Assoc.sameBy FunctionLoops.same r.loops s.loops

end Report

end GrowthFlow
