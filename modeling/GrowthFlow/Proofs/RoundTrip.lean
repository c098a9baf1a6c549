import GrowthFlow.Lang.Source
import GrowthFlow.Proofs.ParsedTrees
import GrowthFlow.Proofs.PrintedStmt

/-!
# Printing and reading are inverse

A program that was read from a text has the same functions as the one read from its printed text, whatever
the width of the indentation.

The two halves meet at `Function.Readable`. What the grammar reads is readable, and what is readable can be
printed in a row of tokens that the lexer finds again and the grammar reads as the same functions.
-/

namespace GrowthFlow.Lang.Program

open Glyph

/-- A text is read in two stages. -/
theorem parse_eq_ok_iff {source : String} {p : Program} :
    parse source = .ok p ↔ ∃ ts, lexemes source.toList = .ok ts ∧ ofLexemes ts = .ok p := by
  refine ⟨fun h => ?_, fun h => ?_⟩
  · unfold parse at h
    cases hlex : lexemes source.toList with
    | error fault => rw [hlex] at h; cases h
    | ok ts =>
        rw [hlex] at h
        change (ofLexemes ts).mapError _ = _ at h
        cases hread : ofLexemes ts with
        | error fault => rw [hread] at h; cases h
        | ok q =>
            rw [hread] at h
            cases h
            exact ⟨ts, rfl, hread⟩
  · obtain ⟨ts, hlex, hread⟩ := h
    unfold parse
    rw [hlex]
    change (ofLexemes ts).mapError _ = _
    rw [hread]
    rfl

theorem glyphsOf_eq_nil {fs : List Function} (h : tokens (glyphsOf fs) = []) : glyphsOf fs = [] := by
  rw [tokens_glyphsOf] at h
  have hlength := Function.length_le_tokens fs
  rw [h] at hlength
  rw [List.eq_nil_of_length_eq_zero (Nat.le_zero.1 hlength), glyphsOf]

/-- Readable functions are read back from their printed text. -/
theorem parse_render {fs : List Function} (h : ∀ f ∈ fs, f.Readable) (width : Nat) :
    ∃ q, parse (render width (glyphsOf fs)) = .ok q ∧ q.functions = fs := by
  have hlegible := legible_glyphsOf h
  obtain ⟨ts, hts, htokens⟩ := lexemes_render width hlegible.apart hlegible.spelled glyphsOf_eq_nil
  rw [tokens_glyphsOf] at htokens
  obtain ⟨q, hq, hfunctions⟩ := ofLexemes_of_tokens h htokens
  exact ⟨q, parse_eq_ok_iff.2 ⟨ts, hts, hq⟩, hfunctions⟩

/-- The printed text of a program that was read is read as a program with the same functions. -/
theorem parse_text {source : String} {p : Program} (h : parse source = .ok p) (width : Nat) :
    ∃ q, parse (p.text width) = .ok q ∧ q.functions = p.functions := by
  obtain ⟨ts, hts, hp⟩ := parse_eq_ok_iff.1 h
  exact parse_render (readable_of_ofLexemes hp (spelled_of_lexemes hts)) width

/-- A branch inside the first half of a branch, operators that would run together, and a cast. -/
def nested : Function where
  returns := ["int"]
  name := "f"
  params := [⟨["int"], "x"⟩, ⟨["int"], "y"⟩]
  body :=
    [.branch (.var "x")
      (.branch (.var "y") (.assign "x" (.binary .add (.var "x") (.var "y")))
        (some (.expr (.unary .neg (.unary .neg (.var "y"))))))
      (some (.doWhile (.expr (.cast ["int"] (.binary .sub (.var "x") (.binary .sub (.var "y") (.const 1)))))
        (.binary .add (.unary .postInc (.var "x")) (.var "y"))))]

def nestedSource : String :=
  "int f(int x, int y) \x7b if (x) if (y) x += y; else - -y; else do (int) (x - (y - 1)); while (x++ + y); \x7d"

theorem parse_text_nested : parse nestedSource = .ok ⟨[⟨nested, ⟨0, 102⟩⟩]⟩ ∧
    ∃ q, parse (text 3 ⟨[⟨nested, ⟨0, 102⟩⟩]⟩) = .ok q ∧ q.functions = [nested] :=
  have hparse : parse nestedSource = .ok ⟨[⟨nested, ⟨0, 102⟩⟩]⟩ := by decide +kernel
  ⟨hparse, parse_text hparse 3⟩

end GrowthFlow.Lang.Program
