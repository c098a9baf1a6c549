import GrowthFlow.Proofs.Spelling

/-!
# Printed rows are legible

The trees that the grammar can produce are `Readable`: their names, types and integers can be spelled, a
declaration declares something, the header of a `for` loop holds what may stand there, and the first half of
a branch with an `else` does not end in a branch without one, which would take the `else` for itself.

The row of glyphs of such a tree is `Legible`: it is read token by token. Two neighbours are almost always
kept apart by a blank or by a bracket, a comma or a semicolon between or at them. What remains are the unary
operators. One before its operand stands at a word, an integer or a parenthesis, because an operand that
starts with an operator of its own is put in parentheses; one behind its operand stands at a word, an
integer, a parenthesis or another such operator.
-/

namespace GrowthFlow.Lang

open Glyph

/-! ## What can be read back -/

/-- A type is one type word or several. -/
def TypeName.Readable (type : TypeName) : Prop := type ≠ [] ∧ ∀ word ∈ type, word ∈ typeWords

inductive Expr.Readable : Expr → Prop
  | const {n : Int} (hn : (Token.number n).Spelled) : Readable (.const n)
  | var {x : String} (hx : (Token.ident x).Spelled) : Readable (.var x)
  | unary (op : UnaryOp) {e : Expr} (he : Readable e) : Readable (.unary op e)
  | binary (op : BinaryOp) {l r : Expr} (hl : Readable l) (hr : Readable r) : Readable (.binary op l r)
  | cast {t : TypeName} {e : Expr} (ht : t.Readable) (he : Readable e) : Readable (.cast t e)
  | call {f : String} {args : List Expr} (hf : (Token.ident f).Spelled)
      (hargs : ∀ a ∈ args, Readable a) : Readable (.call f args)

structure Declarator.Readable (d : Declarator) : Prop where
  name : (Token.ident d.name).Spelled
  init : ∀ e ∈ d.init, e.Readable

namespace Stmt

/-- Whether a statement ends in a branch that an `else` behind it would belong to. -/
def isOpen : Stmt → Bool
  | branch _ _ none => true
  | branch _ _ (some no) => no.isOpen
  | whileLoop _ body | forLoop _ _ _ body => body.isOpen
  | _ => false

/-- Whether a statement may stand in a list in the header of a `for` loop. -/
def isSimple : Stmt → Bool
  | assign _ _ | expr _ => true
  | _ => false

/-- Whether statements may stand first in the header of a `for` loop: simple ones, or one declaration. -/
def isHeader : List Stmt → Bool
  | [decl _ _] => true
  | init => init.all isSimple

inductive Readable : Stmt → Prop
  | assign {x : String} {e : Expr} (hx : (Token.ident x).Spelled) (he : e.Readable) :
      Readable (.assign x e)
  | expr {e : Expr} (he : e.Readable) : Readable (.expr e)
  | decl {t : TypeName} {vars : List Declarator} (ht : t.Readable) (hne : vars ≠ [])
      (hvars : ∀ d ∈ vars, d.Readable) : Readable (.decl t vars)
  | branch {c : Expr} {yes : Stmt} {no : Option Stmt} (hc : c.Readable) (hyes : Readable yes)
      (hno : ∀ s ∈ no, Readable s) (helse : no.isSome = true → yes.isOpen = false) :
      Readable (.branch c yes no)
  | whileLoop {c : Expr} {body : Stmt} (hc : c.Readable) (hbody : Readable body) :
      Readable (.whileLoop c body)
  | doWhile {body : Stmt} {c : Expr} (hbody : Readable body) (hc : c.Readable) :
      Readable (.doWhile body c)
  | forLoop {init step : List Stmt} {c : Option Expr} {body : Stmt}
      (hinit : ∀ s ∈ init, Readable s) (hheader : isHeader init = true) (hc : ∀ e ∈ c, e.Readable)
      (hstep : ∀ s ∈ step, Readable s) (hsimple : step.all isSimple = true)
      (hbody : Readable body) : Readable (.forLoop init c step body)
  | block {body : List Stmt} (hbody : ∀ s ∈ body, Readable s) : Readable (.block body)
  | ret {e : Option Expr} (he : ∀ v ∈ e, v.Readable) : Readable (.ret e)
  | breakJump : Readable .breakJump
  | continueJump : Readable .continueJump
  | empty : Readable .empty

end Stmt

structure Function.Readable (f : Function) : Prop where
  returns : f.returns.Readable
  name : (Token.ident f.name).Spelled
  params : ∀ p ∈ f.params, p.type.Readable ∧ (Token.ident p.name).Spelled
  body : ∀ s ∈ f.body, s.Readable

/-! ## Neighbours -/

namespace Glyph

/-- Glyphs that keep apart whatever they stand between: blanks, brackets and separators. -/
def isSolid : Glyph → Bool
  | token (.symbol s) =>
    s = .lbrace || s = .rbrace || s = .lparen || s = .rparen || s = .semicolon || s = .comma
  | token _ => false
  | space | line _ => true

/-- The second character of a symbol is not one of a word, and the first is no bracket or separator. -/
theorem ofPair?_eq_none {a c : Char} (h : isWordPart c = true ∨ a ∈ ['\x7b', '\x7d', '(', ')', ';', ',']) :
    Symbol.ofPair? a c = none := by
  unfold Symbol.ofPair?
  split
  all_goals first
    | rfl
    | exact absurd h (by decide)

theorem apart_of_solid {g h : Glyph} (hsolid : g.isSolid = true ∨ h.isSolid = true) : Apart g h := by
  cases g with
  | space | line level => trivial
  | token t =>
    cases h with
    | space | line level => trivial
    | token u =>
      rcases hsolid with hsolid | hsolid
      · -- nothing extends a bracket
        intro c _
        cases t with
        | symbol s =>
            cases s with
            | lbrace | rbrace | lparen | rparen | semicolon | comma =>
                simp [Token.stopsAt, Symbol.text, ofPair?_eq_none]
            | _ => cases hsolid
        | _ => cases hsolid
      · -- and a bracket extends nothing
        cases u with
        | symbol s =>
            cases s with
            | lbrace | rbrace | lparen | rparen | semicolon | comma =>
                intro c hc
                cases hc
                cases t with
                | symbol s => cases s <;> decide
                | _ => rfl
            | _ => cases hsolid
        | _ => cases hsolid

/-- A word or an integer keeps apart from a symbol before it. -/
theorem apart_symbol_word {s : Symbol} {t : Token} (ht : t.Spelled) (hs : ∀ s, t ≠ .symbol s) :
    Apart (symbol s) (token t) := by
  obtain ⟨c, cs, htext, hc⟩ := ht.starts_word hs
  intro d hd
  rw [htext] at hd
  cases hd
  have hslash : (c == '/') = false ∧ (c == '*') = false := by
    refine ⟨?_, ?_⟩ <;> rw [beq_eq_false_iff_ne] <;> intro h <;> subst h <;> exact absurd hc (by decide)
  simp only [Token.stopsAt, ofPair?_eq_none (.inl hc), hslash]
  split <;> simp

/-! ## Rows -/

@[simp] theorem tokens_nil : tokens [] = [] := rfl

@[simp] theorem tokens_append (gs hs : List Glyph) : tokens (gs ++ hs) = tokens gs ++ tokens hs :=
  List.filterMap_append

@[simp] theorem tokens_token (t : Token) (gs : List Glyph) : tokens (token t :: gs) = t :: tokens gs := rfl

@[simp] theorem tokens_symbol (s : Symbol) (gs : List Glyph) :
    tokens (symbol s :: gs) = .symbol s :: tokens gs := rfl

@[simp] theorem tokens_keyword (k : Keyword) (gs : List Glyph) :
    tokens (keyword k :: gs) = .keyword k :: tokens gs := rfl

@[simp] theorem tokens_ident (x : String) (gs : List Glyph) :
    tokens (ident x :: gs) = .ident x :: tokens gs := rfl

@[simp] theorem tokens_space (gs : List Glyph) : tokens (space :: gs) = tokens gs := rfl

@[simp] theorem tokens_line (level : Nat) (gs : List Glyph) : tokens (line level :: gs) = tokens gs := rfl

@[simp] theorem tokens_parens (gs : List Glyph) :
    tokens (parens gs) = .symbol .lparen :: tokens gs ++ [.symbol .rparen] := by
  simp [parens]

/-- A row that is read token by token. -/
structure Legible (gs : List Glyph) : Prop where
  apart : gs.IsChain Apart
  spelled : ∀ t ∈ tokens gs, t.Spelled

/-- A row that keeps apart from whatever stands before it. -/
def StartsSolid (gs : List Glyph) : Prop := ∀ g ∈ gs.head?, g.isSolid = true

variable {gs hs : List Glyph}

theorem startsSolid_cons {g : Glyph} (hg : g.isSolid = true) : StartsSolid (g :: gs) := by
  intro h hh
  cases hh
  exact hg

theorem legible_nil : Legible [] := ⟨List.isChain_nil, fun _ ht => absurd ht List.not_mem_nil⟩

theorem legible_token {t : Token} (ht : t.Spelled) : Legible [token t] :=
  ⟨List.isChain_singleton _, fun u hu => by rw [List.mem_singleton.mp hu]; exact ht⟩

theorem Legible.append (hgs : Legible gs) (hhs : Legible hs)
    (hjoin : ∀ g ∈ gs.getLast?, ∀ h ∈ hs.head?, Apart g h) : Legible (gs ++ hs) := by
  refine ⟨List.isChain_append.mpr ⟨hgs.apart, hhs.apart, hjoin⟩, fun t ht => ?_⟩
  rw [tokens_append, List.mem_append] at ht
  rcases ht with ht | ht
  · exact hgs.spelled t ht
  · exact hhs.spelled t ht

theorem Legible.before (hgs : Legible gs) (hhs : Legible hs) (hsolid : StartsSolid hs) :
    Legible (gs ++ hs) :=
  hgs.append hhs fun _ _ h hh => apart_of_solid (.inr (hsolid h hh))

theorem Legible.cons_token {t : Token} (hgs : Legible gs) (ht : t.Spelled) (hsolid : StartsSolid gs) :
    Legible (token t :: gs) :=
  (legible_token ht).before hgs hsolid

theorem Legible.cons_symbol {s : Symbol} (hgs : Legible gs) (hsolid : StartsSolid gs) :
    Legible (symbol s :: gs) :=
  hgs.cons_token trivial hsolid

theorem Legible.cons_keyword {k : Keyword} (hgs : Legible gs) (hsolid : StartsSolid gs) :
    Legible (keyword k :: gs) :=
  hgs.cons_token trivial hsolid

theorem Legible.cons_solid {g : Glyph} (hgs : Legible gs) (hg : g.isSolid = true) :
    Legible (g :: gs) := by
  have hsingle : Legible [g] := by
    refine ⟨List.isChain_singleton _, fun t ht => ?_⟩
    cases g with
    | space | line level => cases ht
    | token u =>
        rw [List.mem_singleton.mp ht]
        cases u with
        | symbol s => trivial
        | _ => cases hg
  exact hsingle.append hgs fun x hx _ _ => apart_of_solid (.inl (Option.some.inj hx ▸ hg))

theorem Legible.parens (hgs : Legible gs) : Legible (parens gs) :=
  (hgs.cons_solid rfl).before (legible_nil.cons_solid rfl) (startsSolid_cons rfl)

theorem legible_commas : ∀ {rows : List (List Glyph)}, (∀ gs ∈ rows, Legible gs) → Legible (commas rows)
  | [], _ => legible_nil
  | [gs], h => h gs List.mem_cons_self
  | gs :: hs :: rows, h => by
      have hrest : Legible (commas (hs :: rows)) :=
        legible_commas fun gs hgs => h gs (List.mem_cons_of_mem _ hgs)
      exact (h gs List.mem_cons_self).before ((hrest.cons_solid rfl).cons_solid rfl)
        (startsSolid_cons rfl)

theorem legible_type : ∀ {t : TypeName}, (∀ word ∈ t, word ∈ typeWords) → Legible (type t)
  | [], _ => legible_nil
  | [word], h => legible_token (h word List.mem_cons_self)
  | word :: next :: t, h => by
      have hrest : Legible (type (next :: t)) :=
        legible_type fun w hw => h w (List.mem_cons_of_mem _ hw)
      exact (hrest.cons_solid rfl).cons_token (h word List.mem_cons_self) (startsSolid_cons rfl)

end Glyph

/-! ## Expressions -/

namespace Expr

theorem glyphsAll_eq : ∀ (es : List Expr), glyphsAll es = es.map (glyphs 0)
  | [] => rfl
  | e :: es => congrArg (e.glyphs 0 :: ·) (glyphsAll_eq es)

theorem glyphs_ne_nil (e : Expr) (least : Nat) : e.glyphs least ≠ [] := by
  cases e with
  | unary op e => rw [glyphs]; split <;> simp
  | binary op l r => simp only [glyphs]; split <;> simp [parens]
  | _ => simp [glyphs, parens]

theorem precedence_bounds (op : BinaryOp) : 1 ≤ op.precedence ∧ op.precedence ≤ 6 := by
  cases op <;> decide

/-- An expression that may stand before `++` is never put in parentheses for its own operator. -/
theorem glyphs_of_isTrailable {e : Expr} (h : e.isTrailable = true) (least : Nat) :
    e.glyphs least = e.glyphs 7 := by
  cases e with
  | binary | cast => cases h
  | _ => simp only [glyphs]

theorem isLeadingUnary_of_isTrailable {e : Expr} (h : e.isTrailable = true) :
    e.isLeadingUnary = false := by
  cases e with
  | unary op e => exact Bool.not_eq_true' _ ▸ h
  | _ => rfl

/-- An operand without an operator at its front starts with a word, an integer or a parenthesis. -/
theorem Readable.apart_head {e : Expr} (h : e.Readable) (s : Symbol) :
    e.isLeadingUnary = false → ∀ g ∈ (e.glyphs 7).head?, Apart (symbol s) g := by
  have hword : ∀ {t : Token} {gs : List Glyph}, t.Spelled → (∀ s, t ≠ .symbol s) →
      ∀ g ∈ (token t :: gs).head?, Apart (symbol s) g := by
    intro t gs ht hs g hg
    cases hg
    exact apart_symbol_word ht hs
  have hsolid : ∀ {gs : List Glyph}, StartsSolid gs → ∀ g ∈ gs.head?, Apart (symbol s) g :=
    fun h g hg => apart_of_solid (.inr (h g hg))
  induction h with
  | const hn => exact fun _ => hword hn (by simp)
  | var hx => exact fun _ => hword hx (by simp)
  | unary op he ih =>
      rename_i e
      intro (hop : op.isLeading = false)
      rw [glyphs, if_neg (ne_of_eq_of_ne hop Bool.false_ne_true)]
      split
      · rename_i ht
        -- the operand is printed first, and it has glyphs
        rw [glyphs_of_isTrailable ht, List.head?_append_of_ne_nil _ (glyphs_ne_nil e 7)]
        exact ih (isLeadingUnary_of_isTrailable ht)
      · exact hsolid (startsSolid_cons rfl)
  | binary op hl hr =>
      intro _
      simp only [glyphs, if_pos (Nat.lt_succ_of_le (precedence_bounds op).2)]
      exact hsolid (startsSolid_cons rfl)
  | cast ht he => exact fun _ => hsolid (startsSolid_cons rfl)
  | call hf hargs => exact fun _ => hword hf (by simp)

/-- An operand that may stand before `++` ends in a word, an integer, a parenthesis or such an operator. -/
theorem apart_last {e : Expr} (h : e.isTrailable = true) {op : UnaryOp} (hop : op.isLeading = false)
    (least : Nat) : ∀ g ∈ (e.glyphs least).getLast?, Apart g (symbol op.symbol) := by
  have hsymbol : ∀ op : UnaryOp, op.isLeading = false →
      op.symbol = .increment ∨ op.symbol = .decrement := by
    intro op hop
    cases op <;> first | exact .inl rfl | exact .inr rfl | cases hop
  have hword : ∀ {t : Token}, (∀ s, t ≠ .symbol s) → Apart (token t) (symbol op.symbol) := by
    intro t ht c hc
    rcases hsymbol op hop with h | h <;> rw [h] at hc <;> cases hc <;> cases t with
    | symbol s => exact absurd rfl (ht s)
    | _ => rfl
  intro g hg
  cases e with
  | const n =>
      cases hg
      exact hword (by simp)
  | var x =>
      cases hg
      exact hword (by simp)
  | call f args =>
      rw [glyphs, parens, ← List.cons_append, List.getLast?_concat] at hg
      cases hg
      exact apart_of_solid (.inl rfl)
  | unary op' e =>
      have hop' : op'.isLeading = false := Bool.not_eq_true' _ ▸ h
      rw [glyphs, if_neg (ne_of_eq_of_ne hop' Bool.false_ne_true), List.getLast?_concat] at hg
      cases hg
      -- a symbol of two characters is complete
      intro c _
      rcases hsymbol op' hop' with h | h <;> rw [h] <;> rfl
  | binary op' l r => cases h
  | cast t e => cases h

theorem Readable.legible_unary (op : UnaryOp) {e : Expr} (he : e.Readable)
    (ih : ∀ least, Legible (e.glyphs least)) (least : Nat) : Legible ((Expr.unary op e).glyphs least) := by
  have hop : Legible [symbol op.symbol] := legible_token trivial
  rw [glyphs]
  split
  · split
    · exact (ih 0).parens.cons_symbol (startsSolid_cons rfl)
    · -- the operand has no operator at its front
      rename_i hlead
      refine hop.append (ih 7) fun g hg => ?_
      cases hg
      exact he.apart_head _ (Bool.eq_false_iff.mpr hlead)
  · rename_i htrailing
    split
    · -- the operand ends in nothing that the operator could extend
      rename_i ht
      refine (ih 0).append hop fun g hg h hh => ?_
      cases hh
      exact apart_last ht (Bool.eq_false_iff.mpr htrailing) 0 g hg
    · refine (ih 0).parens.append hop fun g hg h hh => ?_
      rw [parens, List.getLast?_concat] at hg
      cases hg
      exact apart_of_solid (.inl rfl)

theorem Readable.legible {e : Expr} (h : e.Readable) : ∀ least, Legible (e.glyphs least) := by
  induction h with
  | const hn => exact fun _ => legible_token hn
  | var hx => exact fun _ => legible_token hx
  | unary op he ih => exact he.legible_unary op ih
  | binary op hl hr ihl ihr =>
      rename_i l r
      intro least
      have hinner : Legible (l.glyphs op.precedence ++
          space :: symbol op.symbol :: space :: r.glyphs (op.precedence + 1)) :=
        (ihl _).before ((((ihr _).cons_solid rfl).cons_symbol (startsSolid_cons rfl)).cons_solid rfl)
          (startsSolid_cons rfl)
      simp only [glyphs]
      split
      · exact hinner.parens
      · exact hinner
  | cast ht he ih =>
      intro least
      rw [glyphs]
      exact (legible_type ht.2).parens.before ((ih 7).cons_solid rfl) (startsSolid_cons rfl)
  | call hf hargs ih =>
      intro least
      rw [glyphs, glyphsAll_eq]
      refine Legible.cons_token (Legible.parens (legible_commas fun gs hgs => ?_)) hf (startsSolid_cons rfl)
      obtain ⟨a, ha, rfl⟩ := List.mem_map.mp hgs
      exact ih a ha 0

end Expr

/-! ## Statements -/

/-- A name, an equals sign and a value. -/
theorem legible_assign {x : String} {e : Expr} (hx : (Token.ident x).Spelled) (he : e.Readable) :
    Legible (ident x :: space :: symbol .assign :: space :: e.glyphs 0) :=
  ((((he.legible 0).cons_solid rfl).cons_symbol (startsSolid_cons rfl)).cons_solid rfl).cons_token hx
    (startsSolid_cons rfl)

theorem Declarator.Readable.legible {d : Declarator} (h : d.Readable) : Legible d.glyphs := by
  unfold Declarator.glyphs
  split
  · exact legible_token h.name
  · rename_i e hinit
    exact legible_assign h.name (h.init e hinit)

theorem legible_decl {t : TypeName} {vars : List Declarator} (ht : t.Readable)
    (hvars : ∀ d ∈ vars, d.Readable) :
    Legible (type t ++ space :: commas (vars.map Declarator.glyphs)) := by
  have hcommas : Legible (commas (vars.map Declarator.glyphs)) := by
    refine legible_commas fun gs hgs => ?_
    obtain ⟨d, hd, rfl⟩ := List.mem_map.mp hgs
    exact (hvars d hd).legible
  exact (legible_type ht.2).before (hcommas.cons_solid rfl) (startsSolid_cons rfl)

namespace Stmt

theorem headerGlyphs_eq (level : Nat) : ∀ (ss : List Stmt),
    headerGlyphs level ss = ss.map fun s => (simpleGlyphs? s).getD (glyphs level s)
  | [] => rfl
  | _ :: ss => congrArg (_ :: ·) (headerGlyphs_eq level ss)

/-- The condition in the header of a `for` loop. -/
def condGlyphs : Option Expr → List Glyph
  | some c => space :: c.glyphs 0
  | none => []

theorem glyphs_forLoop (level : Nat) (init : List Stmt) (c : Option Expr) (step : List Stmt) (body : Stmt) :
    glyphs level (forLoop init c step body) =
      keyword .forWord :: space :: parens (
          commas (headerGlyphs level init) ++ symbol .semicolon :: condGlyphs c ++ symbol .semicolon ::
          (if step.isEmpty then [] else space :: commas (headerGlyphs level step))) ++
        bodyGlyphs level body (fun n => glyphs n body) := by
  cases c <;> rw [glyphs] <;> rfl

theorem legible_bodyGlyphs (level : Nat) {body : Stmt} (h : ∀ n, Legible (body.glyphs n)) :
    Legible (bodyGlyphs level body fun n => body.glyphs n) ∧
      StartsSolid (bodyGlyphs level body fun n => body.glyphs n) := by
  unfold bodyGlyphs
  split
  · exact ⟨(h _).cons_solid rfl, startsSolid_cons rfl⟩
  · exact ⟨(h _).cons_solid rfl, startsSolid_cons rfl⟩

theorem isSolid_afterBody (level : Nat) (body : Stmt) : (afterBody level body).isSolid = true := by
  unfold afterBody
  split <;> rfl

theorem legible_elseGlyphs (level : Nat) {gap : Glyph} {no : Option Stmt} (hgap : gap.isSolid = true)
    (h : ∀ s ∈ no, ∀ n, Legible (s.glyphs n)) :
    Legible (elseGlyphs level gap no) ∧ StartsSolid (elseGlyphs level gap no) := by
  cases no with
  | none => exact ⟨legible_nil, fun _ hg => nomatch hg⟩
  | some s =>
      obtain ⟨hbody, hsolid⟩ := legible_bodyGlyphs level (h s rfl)
      rw [elseGlyphs]
      exact ⟨(hbody.cons_keyword hsolid).cons_solid hgap, startsSolid_cons hgap⟩

theorem legible_lineGlyphs (level : Nat) : ∀ {ss : List Stmt}, (∀ s ∈ ss, Legible (s.glyphs level)) →
    Legible (lineGlyphs level ss) ∧ StartsSolid (lineGlyphs level ss)
  | [], _ => ⟨legible_nil, fun _ hg => nomatch hg⟩
  | s :: ss, h => by
      obtain ⟨hrest, hsolid⟩ := legible_lineGlyphs level fun s hs => h s (List.mem_cons_of_mem _ hs)
      exact ⟨((h s List.mem_cons_self).cons_solid rfl).before hrest hsolid, startsSolid_cons rfl⟩

/-- Lines between braces. -/
theorem legible_braces {level : Nat} {ss : List Stmt} {gs : List Glyph}
    (h : ∀ s ∈ ss, ∀ n, Legible (s.glyphs n)) (hgs : Legible gs) :
    Legible (symbol .lbrace :: lineGlyphs (level + 1) ss ++ (line level :: symbol .rbrace :: gs)) := by
  have hlines := (legible_lineGlyphs (level + 1) fun s hs => h s hs (level + 1)).1
  exact (hlines.cons_solid rfl).before ((hgs.cons_solid rfl).cons_solid rfl) (startsSolid_cons rfl)

/-- The part of a `for` header that a statement is printed as. -/
theorem Readable.legible_header {s : Stmt} (h : s.Readable) {level : Nat} (hs : Legible (s.glyphs level)) :
    Legible ((simpleGlyphs? s).getD (s.glyphs level)) := by
  cases h with
  | assign hx he => exact legible_assign hx he
  | expr he => exact he.legible 0
  | decl ht hne hvars => exact legible_decl ht hvars
  | _ => exact hs

theorem legible_header_row {level : Nat} {ss : List Stmt} (h : ∀ s ∈ ss, s.Readable)
    (hss : ∀ s ∈ ss, ∀ n, Legible (s.glyphs n)) : Legible (commas (headerGlyphs level ss)) := by
  rw [headerGlyphs_eq]
  refine legible_commas fun gs hgs => ?_
  obtain ⟨s, hs, rfl⟩ := List.mem_map.mp hgs
  exact (h s hs).legible_header (hss s hs level)

theorem legible_forHeader {level : Nat} {init step : List Stmt} {c : Option Expr}
    (hinit : Legible (commas (headerGlyphs level init))) (hc : ∀ e ∈ c, e.Readable)
    (hstep : Legible (commas (headerGlyphs level step))) :
    Legible (commas (headerGlyphs level init) ++ symbol .semicolon :: condGlyphs c ++ symbol .semicolon ::
      (if step.isEmpty then [] else space :: commas (headerGlyphs level step))) := by
  have hcond : Legible (condGlyphs c) := by
    cases c with
    | none => exact legible_nil
    | some c => exact ((hc c rfl).legible 0).cons_solid rfl
  have hlast : Legible (if step.isEmpty then [] else space :: commas (headerGlyphs level step)) := by
    split
    · exact legible_nil
    · exact hstep.cons_solid rfl
  exact (hinit.before (hcond.cons_solid rfl) (startsSolid_cons rfl)).before (hlast.cons_solid rfl)
    (startsSolid_cons rfl)

theorem legible_semicolon : Legible [symbol .semicolon] := legible_nil.cons_solid rfl

theorem legible_ended {gs : List Glyph} (h : Legible gs) : Legible (gs ++ [symbol .semicolon]) :=
  h.before legible_semicolon (startsSolid_cons rfl)

theorem legible_jump (k : Keyword) : Legible [keyword k, symbol .semicolon] :=
  legible_semicolon.cons_keyword (startsSolid_cons rfl)

/-- A keyword and a condition in parentheses. -/
theorem legible_guard {k : Keyword} {gs : List Glyph} (h : Legible gs) :
    Legible (keyword k :: space :: parens gs) :=
  (h.parens.cons_solid rfl).cons_keyword (startsSolid_cons rfl)

theorem Readable.legible {s : Stmt} (h : s.Readable) : ∀ level, Legible (s.glyphs level) := by
  induction h with
  | assign hx he =>
      intro level
      rw [glyphs]
      exact legible_ended (legible_assign hx he)
  | expr he =>
      intro level
      rw [glyphs]
      exact legible_ended (he.legible 0)
  | decl ht hne hvars =>
      intro level
      rw [glyphs]
      exact legible_ended (legible_decl ht hvars)
  | branch hc hyes hno helse ihyes ihno =>
      rename_i c yes no
      intro level
      obtain ⟨hbody, hsolid⟩ := legible_bodyGlyphs level ihyes
      rw [glyphs]
      obtain ⟨hrest, hgap⟩ := legible_elseGlyphs level (isSolid_afterBody level yes) ihno
      exact ((legible_guard (hc.legible 0)).before hbody hsolid).before hrest hgap
  | whileLoop hc hbody ih =>
      intro level
      obtain ⟨hbody, hsolid⟩ := legible_bodyGlyphs level ih
      rw [glyphs]
      exact (legible_guard (hc.legible 0)).before hbody hsolid
  | doWhile hbody hc ih =>
      rename_i body c
      intro level
      obtain ⟨hbody, hsolid⟩ := legible_bodyGlyphs level ih
      rw [glyphs]
      have hgap := isSolid_afterBody level body
      exact legible_ended ((hbody.cons_keyword hsolid).before ((legible_guard (hc.legible 0)).cons_solid hgap)
        (startsSolid_cons hgap))
  | forLoop hinit hheader hc hstep hsimple hbody ihinit ihstep ihbody =>
      rename_i init step c body
      intro level
      obtain ⟨hbody, hsolid⟩ := legible_bodyGlyphs level ihbody
      rw [glyphs_forLoop]
      exact (legible_guard (legible_forHeader (legible_header_row hinit ihinit) hc
        (legible_header_row hstep ihstep))).before hbody hsolid
  | block hbody ih =>
      intro level
      rw [glyphs]
      exact legible_braces ih legible_nil
  | ret he =>
      rename_i e
      intro level
      cases e with
      | none => exact legible_jump _
      | some e =>
          rw [glyphs]
          exact legible_ended ((((he e rfl).legible 0).cons_solid rfl).cons_keyword (startsSolid_cons rfl))
  | breakJump | continueJump => exact fun _ => legible_jump _
  | empty => exact fun _ => legible_semicolon

end Stmt

/-! ## Programs -/

theorem Function.Readable.legible {f : Function} (h : f.Readable) : Legible f.glyphs := by
  have hparams : Legible (commas (f.params.map fun p => type p.type ++ [space, ident p.name])) := by
    refine legible_commas fun gs hgs => ?_
    obtain ⟨p, hp, rfl⟩ := List.mem_map.mp hgs
    obtain ⟨htype, hname⟩ := h.params p hp
    exact (legible_type htype.2).before ((legible_token hname).cons_solid rfl) (startsSolid_cons rfl)
  have hname : Legible (space :: ident f.name :: parens
      (commas (f.params.map fun p => type p.type ++ [space, ident p.name]))) :=
    (hparams.parens.cons_token h.name (startsSolid_cons rfl)).cons_solid rfl
  have hbody : Legible (symbol .lbrace :: Stmt.lineGlyphs 1 f.body ++ [line 0, symbol .rbrace, line 0]) :=
    Stmt.legible_braces (fun s hs => (h.body s hs).legible) (legible_nil.cons_solid rfl)
  rw [Function.glyphs, List.append_assoc]
  exact ((legible_type h.returns.2).before hname (startsSolid_cons rfl)).before (hbody.cons_solid rfl)
    (startsSolid_cons rfl)

theorem Program.legible_glyphsOf : ∀ {fs : List Function}, (∀ f ∈ fs, f.Readable) →
    Legible (Program.glyphsOf fs)
  | [], _ => legible_nil
  | [f], h => (h f List.mem_cons_self).legible
  | f :: g :: fs, h => by
      have hrest : Legible (Program.glyphsOf (g :: fs)) :=
        Program.legible_glyphsOf fun f hf => h f (List.mem_cons_of_mem _ hf)
      exact (h f List.mem_cons_self).legible.before (hrest.cons_solid rfl) (startsSolid_cons rfl)

end GrowthFlow.Lang
