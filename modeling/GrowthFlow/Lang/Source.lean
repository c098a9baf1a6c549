import GrowthFlow.Lang.Lexeme
import GrowthFlow.Lang.Grammar

/-!
# Reading a source text

`Program.parse` reads a text in two stages, characters and lexemes. A failure of either stage has one
place, counted in characters; only the end of the text, where a lexeme is missing, is placed by the
number of bytes. `SourceError.label?` words it.
-/

namespace GrowthFlow.Lang

/-- Why a source text cannot be read. -/
inductive SourceError where
  /-- The characters at `span` are no token. -/
  | lexical (fault : LexicalFault)
  /-- The token found at `span` cannot stand there. -/
  | grammar (span : Span) (found : Option Token) (expected : List Token)
deriving DecidableEq, Repr

/-- Inserts a text into a list that is sorted by code points. -/
def insertText (s : String) : List String → List String
  | [] => [s]
  | t :: ts => if t < s then t :: insertText s ts else s :: t :: ts

namespace SourceError

/-- The place of the error. -/
def span : SourceError → Span
  | lexical fault => fault.span
  | grammar span _ _ => span

/-- The title of a report. -/
def title : SourceError → String
  | lexical _ => "Lexical error"
  | grammar _ _ _ => "Parse error"

/-- A text in single quotes. -/
def quoted (s : String) : String := "'" ++ s ++ "'"

/-- What was found, in words. -/
def foundText : Option String → String
  | some s => quoted s
  | none => "end of input"

/-- What is wrong at the place of the error. -/
def label : SourceError → String
  | lexical fault => "Unexpected character " ++ foundText (fault.found.map (·.toString))
  | grammar _ found expected =>
    let found := foundText (found.map Token.text)
    let expected := expected.foldr (fun t ts => insertText t.text ts) []
    if expected.isEmpty then "Unexpected token " ++ found
    else "Unexpected " ++ found ++ ", expected one of: " ++ ", ".intercalate (expected.map quoted)

/-- Where the label is attached: a missing token stands right behind the last byte. -/
def labelStart (source : String) : SourceError → Nat
  | lexical fault => fault.span.start
  | grammar span _ _ => min span.start source.utf8ByteSize

/-- The label, if its place lies within the characters of the text. -/
def label? (source : String) (e : SourceError) : Option String :=
  if e.labelStart source ≤ source.length then some e.label else none

/-- The first line of a report. -/
def headline (e : SourceError) : String := "Error: " ++ e.title

end SourceError

/-- The place of a fault in a text of the given number of bytes. -/
def Fault.toError (bytes : Nat) (fault : Fault) : SourceError :=
  match fault.found with
  | some lexeme => .grammar lexeme.span (some lexeme.token) fault.expected
  | none => .grammar ⟨bytes, bytes + 1⟩ none fault.expected

/-- Reads a source text. -/
def Program.parse (source : String) : Except SourceError Program := do
  let ts ← (lexemes source.toList).mapError .lexical
  (Program.ofLexemes ts).mapError (Fault.toError source.utf8ByteSize)

end GrowthFlow.Lang
