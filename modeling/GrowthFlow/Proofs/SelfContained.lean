import GrowthFlow.Proofs.Enclosure
import GrowthFlow.Proofs.Lexing
import GrowthFlow.Proofs.RoundTrip

/-!
# Definitions stand on their own

The place of a definition cuts its own source out of the text: the characters there, taken alone, are read as
a program with just that definition. And the places of the definitions of a text follow each other.

This puts two facts together. The characters at the place of a definition have the lexemes that the definition
was read from (`lexemes_cut`), and from these lexemes alone the grammar reads the same function
(`accepts_function_alone`). Only the depth is another one, since it is taken from the length of the text, but
it covers the lexemes either way.

The top level is read in rounds. `Rounds` keeps the lexemes at which each of them starts, so what one round
says about its lexemes becomes a statement about the text by induction.
-/

namespace GrowthFlow.Lang

namespace Rule

variable {α : Type} {r : Rule α} {ts rest : List Lexeme} {hint : Option Fault}

/-! ## Rounds of a repetition -/

/-- A repetition as far as it went: each round starts where the one before it stopped. -/
inductive Rounds (r : Rule α) : List Lexeme → List α → List Lexeme → Prop
  | stop {ts : List Lexeme} : Rounds r ts [] ts
  | round {ts mid rest : List Lexeme} {a : α} {as : List α} {hint : Option Fault}
      (h : r ts = .ok a mid hint) (hmore : Rounds r mid as rest) : Rounds r ts (a :: as) rest

theorem exists_of_optional {o : Option α} (h : optional r ts = .ok o rest hint) :
    (∃ a, o = some a ∧ r ts = .ok a rest hint) ∨ (o = none ∧ rest = ts) := by
  unfold optional at h
  cases hr : r ts with
  | ok a mid first =>
      rw [hr] at h
      cases h
      exact .inl ⟨a, rfl, rfl⟩
  | fail fault =>
      rw [hr] at h
      cases h
      exact .inr ⟨rfl, rfl⟩

theorem rounds_of_upTo : ∀ {n : Nat} {ts rest : List Lexeme} {as : List α} {hint : Option Fault},
    upTo r n ts = .ok as rest hint → Rounds r ts as rest := by
  intro n
  induction n with
  | zero =>
      intro ts rest as hint h
      cases h
      exact .stop
  | succ n ih =>
      intro ts rest as hint h
      obtain ⟨o, mid, _, _, hround, hothers⟩ := exists_of_bind h
      rcases exists_of_optional hround with ⟨a, rfl, ha⟩ | ⟨rfl, rfl⟩
      · obtain ⟨more, _, _, _, hmore, hpure⟩ := exists_of_bind hothers
        cases hpure
        exact .round ha (ih hmore)
      · cases hothers
        exact .stop

/-! ## Places -/

theorem spanOf_eq (hts : ts ≠ []) : ∃ first last, ts.head? = some first ∧ ts.getLast? = some last ∧
    spanOf ts = ⟨first.span.start, last.span.stop⟩ := by
  refine ⟨ts.head hts, ts.getLast hts, List.head?_eq_some_head hts, List.getLast?_eq_some_getLast hts, ?_⟩
  rw [spanOf, List.head?_eq_some_head hts, List.getLast?_eq_some_getLast hts]
  rfl

theorem exists_of_withSpan {b : α × Span} (h : withSpan r ts = .ok b rest hint) :
    r ts = .ok b.1 rest hint ∧ b.2 = spanOf (ts.take (ts.length - rest.length)) := by
  unfold withSpan at h
  cases hr : r ts with
  | ok a mid first =>
      rw [hr] at h
      cases h
      exact ⟨rfl, rfl⟩
  | fail fault =>
      rw [hr] at h
      cases h

end Rule

open Rule Grammar

variable {d : Nat} {x : Definition} {ts rest chunk : List Lexeme} {hint : Option Fault}

/-! ## One definition -/

/-- The lexemes of a definition: they are its place, and the function is read from them alone. -/
structure Definition.Spans (d : Nat) (x : Definition) (chunk : List Lexeme) : Prop where
  ne_nil : chunk ≠ []
  span : x.span = spanOf chunk
  accepts : Accepts (Grammar.function d) (chunk.map (·.token)) (some x.function) []

theorem exists_of_item (h : item d ts = .ok (some x) rest hint) :
    ∃ hint', function d ts = .ok (some x.function) rest hint' ∧
      x.span = spanOf (ts.take (ts.length - rest.length)) := by
  rcases exists_of_orElse h with h | h
  · obtain ⟨found, mid, first, _, hfound, hpure⟩ := exists_of_bind h
    obtain ⟨hread, hspan⟩ := exists_of_withSpan hfound
    obtain ⟨hx, rfl, _⟩ := Reply.ok.inj hpure
    obtain ⟨f, hf, rfl⟩ := Option.map_eq_some_iff.mp hx
    exact ⟨first, hf ▸ hread, hspan⟩
  · -- a global declaration defines nothing
    unfold globalDecl at h
    obtain ⟨_, _, _, _, _, h⟩ := exists_of_bind h
    obtain ⟨_, _, _, _, _, h⟩ := exists_of_bind h
    obtain ⟨_, _, _, _, _, h⟩ := exists_of_bind h
    cases h

theorem spans_of_item (h : item d (chunk ++ rest) = .ok (some x) rest hint) : x.Spans d chunk := by
  obtain ⟨hint', hread, hspan⟩ := exists_of_item h
  rw [List.length_append, Nat.add_sub_cancel_right, List.take_left] at hspan
  obtain ⟨u, hu, haccepts⟩ := accepts_function_alone hread
  have htokens : chunk.map (·.token) = u ++ [.symbol .rbrace] := by
    rw [List.map_append, ← List.singleton_append, ← List.append_assoc] at hu
    exact List.append_cancel_right hu
  refine ⟨fun hnil => ?_, hspan, htokens ▸ haccepts⟩
  rw [hnil] at htokens
  exact List.append_ne_nil_of_right_ne_nil u (List.cons_ne_nil _ _) htokens.symm

/-- The program read from the lexemes of a definition. -/
theorem Definition.Spans.ofLexemes (h : x.Spans d chunk) (hd : chunk.length ≤ d)
    (htokens : ts.map (·.token) = chunk.map (·.token)) (hspelled : ∀ l ∈ ts, l.token.Spelled) :
    Program.ofLexemes ts = .ok ⟨[⟨x.function, spanOf ts⟩]⟩ := by
  have hlength : ts.length = chunk.length := by rw [← List.length_map, htokens, List.length_map]
  obtain ⟨rest, hint, hread, hrest⟩ := h.accepts ts htokens
  obtain rfl : rest = [] := List.map_eq_nil_iff.mp hrest
  -- the depth is the length of these lexemes, not of those around them
  have hsame := (agree_function (d := d) (n := ts.length + 1) (by omega) (Nat.le_refl (ts.length + 1)) ts
    ⟨Nat.lt_succ_self _, hspelled⟩).same
  rw [hread] at hsame
  have hspan : withSpan (Grammar.function ts.length) ts = .ok (some x.function, spanOf ts) [] hint := by
    unfold withSpan
    simp only [← hsame, List.length_nil, Nat.sub_zero, List.take_length]
  have hitem : item ts.length ts = .ok (some ⟨x.function, spanOf ts⟩) [] (Fault.joinOpt hint none) := by
    unfold item
    exact orElse_of_ok (bind_of_ok hspan rfl)
  -- nothing is left for a second item
  have hpos : 0 < ts.length := hlength ▸ List.length_pos_iff.mpr h.ne_nil
  obtain ⟨rest, hint', hmore, hrest⟩ := (Repeats.stop (rejects_item_nil ts.length)).upTo hpos [] rfl
  obtain rfl : rest = [] := List.map_eq_nil_iff.mp hrest
  obtain ⟨hint'', hitems⟩ := upTo_succ_of_ok hitem hmore
  have hmany : many (item ts.length) ts = .ok [some ⟨x.function, spanOf ts⟩] [] hint'' := hitems
  have hprogram : program ts.length ts = .ok ⟨[⟨x.function, spanOf ts⟩]⟩ [] (Fault.joinOpt hint'' none) :=
    bind_of_ok hmany rfl
  unfold Program.ofLexemes
  rw [hprogram]

/-! ## The definitions of a text -/

/-- The rounds of the top level: the definitions follow each other, and each has its own lexemes. -/
theorem definitions_of_rounds {items : List (Option Definition)} (h : Rounds (item d) ts items rest)
    (hd : ts.length ≤ d) (hspelled : ∀ l ∈ ts, l.token.Spelled)
    (hordered : ts.Pairwise fun a b => a.span.stop ≤ b.span.start) :
    (items.filterMap id).Pairwise (fun a b => a.span.stop ≤ b.span.start) ∧
      ∀ x ∈ items.filterMap id, ∃ before chunk after, ts = before ++ (chunk ++ after) ∧ x.Spans d chunk := by
  induction h with
  | stop => exact ⟨.nil, fun x hx => absurd hx List.not_mem_nil⟩
  | @round ts mid rest item? items hint hread hmore ih =>
      obtain ⟨⟨chunk, rfl⟩, hlength, _⟩ :=
        (agree_item (Nat.le_refl (d + 1)) ts ⟨Nat.lt_succ_of_le hd, hspelled⟩).read hread
      obtain ⟨_, hmid, hbetween⟩ := List.pairwise_append.mp hordered
      obtain ⟨hpairwise, hspans⟩ :=
        ih (by omega) (fun l hl => hspelled l (List.mem_append_right _ hl)) hmid
      have hlater : ∀ y ∈ items.filterMap id, ∃ before c after,
          chunk ++ mid = before ++ (c ++ after) ∧ y.Spans d c := by
        intro y hy
        obtain ⟨before, c, after, rfl, hc⟩ := hspans y hy
        exact ⟨chunk ++ before, c, after, (List.append_assoc ..).symm, hc⟩
      cases item? with
      | none => exact ⟨hpairwise, hlater⟩
      | some x =>
          have hx := spans_of_item hread
          refine ⟨.cons (fun y hy => ?_) hpairwise,
            List.forall_mem_cons.mpr ⟨⟨[], chunk, mid, rfl, hx⟩, hlater⟩⟩
          -- the last lexeme of this definition and the first one of a later definition
          obtain ⟨before, c, after, rfl, hc⟩ := hspans y hy
          obtain ⟨_, last, _, hlast, hstop⟩ := spanOf_eq hx.ne_nil
          obtain ⟨first, _, hfirst, _, hstart⟩ := spanOf_eq hc.ne_nil
          have hmem : first ∈ before ++ (c ++ after) :=
            List.mem_append_right _ (List.mem_append_left _ (List.mem_of_head? hfirst))
          rw [hx.span, hc.span, hstop, hstart]
          exact hbetween last (List.mem_of_getLast? hlast) first hmem

/-- Some lexemes in a row lie between the ends of their text and have at least one character. -/
theorem Lexed.spanOf_bounds {pos : Nat} {cs : List Char} {before after : List Lexeme} {first last : Lexeme}
    (h : Lexed pos cs (before ++ (chunk ++ after))) (hfirst : chunk.head? = some first)
    (hlast : chunk.getLast? = some last) :
    first.span.start < last.span.stop ∧ last.span.stop ≤ pos + cs.length := by
  have hmem : ∀ l ∈ chunk, l ∈ before ++ (chunk ++ after) :=
    fun l hl => List.mem_append_right _ (List.mem_append_left _ hl)
  have hlast := List.mem_of_getLast? hlast
  have hordered := (List.pairwise_append.mp (List.pairwise_append.mp h.ordered).2.1).1
  have hfirstBounds := h.bounds first (hmem first (List.mem_of_head? hfirst))
  have hlastBounds := h.bounds last (hmem last hlast)
  refine ⟨?_, hlastBounds.2.2⟩
  obtain ⟨tail, rfl⟩ := List.head?_eq_some_iff.mp hfirst
  rcases List.mem_cons.mp hlast with rfl | hlast
  · exact hlastBounds.2.1
  · have := List.rel_of_pairwise_cons hordered hlast
    omega

/-- **The place of a definition cuts out its own source**: the places follow each other and lie in the text,
and the characters at one of them are a program with just that definition, from their first to their last. -/
theorem Program.parse_cut {source : String} {p : Program} (h : Program.parse source = .ok p) :
    p.definitions.Pairwise (fun a b => a.span.stop ≤ b.span.start) ∧
    ∀ x ∈ p.definitions, x.span.start < x.span.stop ∧ x.span.stop ≤ source.length ∧
      Program.parse (String.ofList (x.span.cut source.toList)) =
        .ok ⟨[⟨x.function, ⟨0, x.span.stop - x.span.start⟩⟩]⟩ := by
  obtain ⟨ts, hts, hp⟩ := parse_eq_ok_iff.1 h
  have hlexed := Lexed.of_lexemes hts
  obtain ⟨items, rest, _, hitems, rfl⟩ := exists_of_ofLexemes hp
  obtain ⟨hpairwise, hspans⟩ :=
    definitions_of_rounds (rounds_of_upTo hitems) (Nat.le_refl _) (spelled_of_lexemes hts) hlexed.ordered
  refine ⟨hpairwise, fun x hx => ?_⟩
  obtain ⟨before, chunk, after, rfl, hchunk⟩ := hspans x hx
  obtain ⟨first, last, hfirst, hlast, hspan⟩ := spanOf_eq hchunk.ne_nil
  have hcut := lexemes_cut hts hfirst hlast
  have hbounds := hlexed.spanOf_bounds hfirst hlast
  rw [Nat.zero_add, String.length_toList] at hbounds
  have htokens : (chunk.map (·.movedBack first.span.start)).map (·.token) = chunk.map (·.token) := by
    rw [List.map_map]
    rfl
  have hlength : chunk.length ≤ (before ++ (chunk ++ after)).length := by
    rw [List.length_append, List.length_append]
    omega
  have hread := hchunk.ofLexemes hlength htokens (spelled_of_lexemes hcut)
  have hmoved : spanOf (chunk.map (·.movedBack first.span.start)) =
      ⟨0, last.span.stop - first.span.start⟩ := by
    rw [spanOf, List.head?_map, List.getLast?_map, hfirst, hlast, ← Nat.sub_self first.span.start]
    rfl
  rw [hmoved] at hread
  rw [hchunk.span, hspan]
  exact ⟨hbounds.1, hbounds.2, parse_eq_ok_iff.2 ⟨_, by rw [String.toList_ofList]; exact hcut, hread⟩⟩

/-- Two definitions with a prototype and a directive between them, and with braces in comments. -/
def scattered : String :=
  "// \u00e9 \x7d\nint f(int n) \x7b return n; /* \x7d */ \x7d int g(int);\n#if\n " ++
    "void h() \x7b while (x < y) \x7b x++; \x7d \x7d"

theorem Program.parse_cut_scattered : ∃ f h : Function,
    Program.parse scattered = .ok ⟨[⟨f, ⟨7, 41⟩⟩, ⟨h, ⟨59, 94⟩⟩]⟩ ∧
    Program.parse "int f(int n) \x7b return n; /* \x7d */ \x7d" = .ok ⟨[⟨f, ⟨0, 34⟩⟩]⟩ ∧
    Program.parse "void h() \x7b while (x < y) \x7b x++; \x7d \x7d" = .ok ⟨[⟨h, ⟨0, 35⟩⟩]⟩ := by
  have hread : Program.parse scattered = .ok
      ⟨[⟨⟨["int"], "f", [⟨["int"], "n"⟩], [.ret (some (.var "n"))]⟩, ⟨7, 41⟩⟩,
        ⟨⟨["void"], "h", [], [.whileLoop (.binary .lt (.var "x") (.var "y"))
          (.block [.expr (.unary .postInc (.var "x"))])]⟩, ⟨59, 94⟩⟩]⟩ := by
    decide +kernel
  have hf : String.ofList (Span.cut ⟨7, 41⟩ scattered.toList) =
      "int f(int n) \x7b return n; /* \x7d */ \x7d" := by decide +kernel
  have hh : String.ofList (Span.cut ⟨59, 94⟩ scattered.toList) =
      "void h() \x7b while (x < y) \x7b x++; \x7d \x7d" := by decide +kernel
  obtain ⟨_, hcut⟩ := Program.parse_cut hread
  refine ⟨_, _, hread, ?_, ?_⟩
  · rw [← hf]
    exact (hcut _ List.mem_cons_self).2.2
  · rw [← hh]
    exact (hcut _ (List.mem_cons_of_mem _ List.mem_cons_self)).2.2

end GrowthFlow.Lang
