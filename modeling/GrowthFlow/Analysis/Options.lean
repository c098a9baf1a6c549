import GrowthFlow.Choice.Choices
import GrowthFlow.Lang.Layout
import GrowthFlow.Text.Split

/-!
# Options, events and errors of an analysis
-/

namespace GrowthFlow

open Lang

/-- The values that can be chosen at an index: an assignment is typed in at most three ways. -/
def choiceValues : List Nat := [0, 1, 2]

/-- How an analysis is carried out. -/
structure Options where
  /-- Go on to the end when it is clear that no choice is left. -/
  complete : Bool := false
  /-- Leave out functions that are not understood as a whole. -/
  strict : Bool := false
  /-- Treat a `for` loop with a guard as one that repeats as often as its guard says. -/
  boundedFor : Bool := false
  /-- How many powers of a loop body may be summed up. -/
  limit : Nat := 10000
deriving DecidableEq, Repr

/-- What is worth telling about the course of an analysis. -/
inductive Event where
  /-- The analysis of a function starts. -/
  | analyzing (function : String)
  /-- A statement is passed over. -/
  | unsupported (s : Stmt)
  /-- One of the statements of a function that are not understood. -/
  | uncovered (function : String) (place total : Nat) (s : Stmt)
  /-- A function is left out because of such statements. -/
  | leftOut (function : String)
  /-- Such statements of a function are left out. -/
  | modified (function : String)
  /-- There is nothing to analyze. -/
  | noStatements (function : String)
deriving DecidableEq, Repr

namespace Event

/-- Whether the event is a warning. -/
def isWarning : Event → Bool
  | analyzing _ => false
  | _ => true

/-- The event in words. -/
def text : Event → String
  | analyzing f => "analyzing " ++ f
  | unsupported s => "unsupported syntax: " ++ Text.onOneLine s.text
  | uncovered f place total s =>
    f ++ ": unsupported syntax (" ++ place.repr ++ " of " ++ total.repr ++ "): " ++
      Text.onOneLine s.text
  | leftOut f => f ++ " syntax is not fully analyzable"
  | modified f => f ++ " syntax was modified"
  | noStatements f => f ++ " has no statements to analyze"

/-- The texts of the warnings among some events. -/
def warnings (es : List Event) : List String := (es.filter isWarning).map text

end Event

/-- Why an analysis fails. -/
inductive AnalysisError where
  /-- There is nothing to analyze. -/
  | emptyBody (function : String)
  /-- The closure of a loop body was not complete within the limit. -/
  | limit (powers : Nat)
  /-- The choices could not be found. -/
  | choices (e : ChoiceError)
  /-- The choices are not infinite, but there is no first one. -/
  | noChoice (function : String)
deriving DecidableEq, Repr

namespace AnalysisError

/-- Whether the error contradicts what the analysis takes for granted. -/
def isInternal : AnalysisError → Bool
  | choices _ | noChoice _ => true
  | _ => false

/-- The error in words. -/
def message : AnalysisError → String
  | emptyBody f => "function `" ++ f ++ "` has no statements to analyze"
  | limit n => "fixpoint did not converge within " ++ n.repr ++ " iterations"
  | choices e => "internal error: " ++ e.message
  | noChoice f => "internal error: " ++ f ++ ": finite result without a choice"

end AnalysisError

end GrowthFlow
