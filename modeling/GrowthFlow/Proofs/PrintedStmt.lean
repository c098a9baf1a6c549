import GrowthFlow.Proofs.PrintedExpr

/-!
# Printed statements and programs are read back

The first token of a printed statement selects the rule that reads it. A statement is read back before
anything, except that an `else` may not follow one that ends in a branch without `else`: it would be read as
part of the statement. In a readable program the printer never writes one there, so no braces are needed
around the first half of a branch.
-/

namespace GrowthFlow.Lang

open Glyph Rule Grammar

variable {more mid : List Token}

/-! ## Simple statements -/

/-- The assignment symbols. -/
def isAssign : Token → Bool
  | .symbol s => [Symbol.assign, .plusAssign, .minusAssign, .timesAssign, .divAssign, .modAssign].contains s
  | _ => false

theorem mem_separated {α : Type} {row : α → List Token} {t : Token} :
    ∀ {as : List α}, t ∈ separated row as → t = .symbol .comma ∨ ∃ a ∈ as, t ∈ row a
  | a :: as, h => by
      rw [separated, List.mem_append, List.mem_flatMap] at h
      rcases h with h | ⟨b, hb, h⟩
      · exact .inr ⟨a, List.mem_cons_self, h⟩
      · rcases List.mem_cons.mp h with h | h
        · exact .inl h
        · exact .inr ⟨b, List.mem_cons_of_mem _ hb, h⟩

/-- An expression has no assignment in it. -/
theorem Expr.Readable.not_isAssign {e : Expr} (h : e.Readable) :
    ∀ least, ∀ t ∈ e.tokens least, isAssign t = false := by
  have hlast : ∀ {toks : List Token} {s : Symbol}, (∀ t ∈ toks, isAssign t = false) →
      isAssign (.symbol s) = false → ∀ t ∈ toks ++ [.symbol s], isAssign t = false :=
    fun h hs => List.forall_mem_append.mpr ⟨h, List.forall_mem_singleton.mpr hs⟩
  have henclosed : ∀ {toks : List Token}, (∀ t ∈ toks, isAssign t = false) →
      ∀ t ∈ enclosed toks, isAssign t = false :=
    fun h => List.forall_mem_cons.mpr ⟨rfl, hlast h rfl⟩
  induction h with
  | const hn => exact fun _ => List.forall_mem_singleton.mpr rfl
  | var hx => exact fun _ => List.forall_mem_singleton.mpr rfl
  | unary op he ih =>
      intro least
      cases hop : op.isLeading with
      | true =>
          rw [tokens_leading hop]
          refine List.forall_mem_cons.mpr ⟨by cases op <;> rfl, ?_⟩
          split
          · exact henclosed (ih 0)
          · exact ih 7
      | false =>
          rw [tokens_trailing hop]
          refine hlast ?_ (by cases op <;> rfl)
          split
          · exact ih 0
          · exact henclosed (ih 0)
  | binary op hl hr ihl ihr =>
      rename_i l r
      have hinner : ∀ t ∈ (Expr.binary op l r).tokens 0, isAssign t = false := by
        rw [tokens_binary op (Nat.zero_le _)]
        exact List.forall_mem_append.mpr
          ⟨ihl _, List.forall_mem_cons.mpr ⟨by cases op <;> rfl, ihr _⟩⟩
      intro least
      by_cases hop : least ≤ op.precedence
      · rw [tokens_binary op hop, ← tokens_binary op (Nat.zero_le _)]
        exact hinner
      · rw [tokens_binary_enclosed op (Nat.lt_of_not_le hop)]
        exact henclosed hinner
  | cast ht he ih =>
      intro least
      rw [tokens_cast]
      refine List.forall_mem_append.mpr ⟨henclosed fun t ht => ?_, ih 7⟩
      obtain ⟨w, _, rfl⟩ := List.mem_map.mp ht
      rfl
  | call hf hargs ih =>
      intro least
      rw [tokens_call]
      refine List.forall_mem_cons.mpr ⟨rfl, henclosed fun t ht => ?_⟩
      rcases mem_separated ht with rfl | ⟨a, ha, ht⟩
      · rfl
      · exact ih a ha 0 t ht

theorem accepts_assignment {e : Rule Expr} {x : String} {v : Expr} {toks : List Token}
    (h : Accepts e toks v more) :
    Accepts (assignment e) (.ident x :: .symbol .assign :: toks) (.assign x v) more := by
  refine (accepts_ident x _).bind (Accepts.bind (accepts_oneOf (a := none) rfl _) ?_)
  exact h.bind (accepts_pure _ _)

theorem rejects_assignment {e : Rule Expr} {toks : List Token} (h : ∀ t ∈ toks.tail.head?, isAssign t = false) :
    Rejects (assignment e) toks := by
  cases toks with
  | nil => exact (rejects_token (by simp)).bind
  | cons t rest =>
      cases t with
      | ident x =>
          refine (accepts_ident x rest).bind_rejects (Rejects.bind (rejects_oneOf fun t ht => ?_))
          have hassign := h t ht
          cases t with
          | symbol s => cases s <;> first | rfl | cases hassign
          | _ => rfl
      | _ => exact (rejects_token fun t ht => by cases ht; rfl).bind

/-- What may stand behind an assignment or an expression in a list. -/
def EndsSimple (more : List Token) : Prop :=
  ∃ s rest, more = .symbol s :: rest ∧ (s = .comma ∨ s = .semicolon ∨ s = .rparen)

theorem EndsSimple.ends {p : Nat} (h : EndsSimple more) : Ends p more := by
  obtain ⟨s, rest, rfl, hs⟩ := h
  intro t ht
  cases ht
  rcases hs with rfl | rfl | rfl <;> rfl

theorem EndsSimple.not_isAssign (h : EndsSimple more) : ∀ t ∈ more.head?, isAssign t = false := by
  obtain ⟨s, rest, rfl, hs⟩ := h
  intro t ht
  cases ht
  rcases hs with rfl | rfl | rfl <;> rfl

/-- An item of a list stands before a comma or before what closes the list. -/
theorem endsSimple_of_item {rest : List Token} {closing : Symbol}
    (h : rest.head? = some (.symbol .comma) ∨ rest = .symbol closing :: more)
    (hclosing : closing = .semicolon ∨ closing = .rparen) : EndsSimple rest := by
  rcases h with h | rfl
  · obtain ⟨rest, rfl⟩ := List.head?_eq_some_iff.mp h
    exact ⟨_, rest, rfl, .inl rfl⟩
  · exact ⟨_, more, rfl, .inr hclosing⟩

namespace Stmt

/-- The tokens of a statement in a list in the header of a `for` loop. -/
def simpleTokens (s : Stmt) : List Token := Glyph.tokens ((simpleGlyphs? s).getD [])

theorem accepts_simple {s : Stmt} (h : s.Readable) (hs : s.isSimple = true) {d : Nat}
    (hd : s.simpleTokens.length ≤ d) (hmore : EndsSimple more) :
    Accepts (simple (Grammar.expr d)) (s.simpleTokens ++ more) s more := by
  cases h with
  | assign hx he =>
      rename_i x e
      have htokens : (Stmt.assign x e).simpleTokens = .ident x :: .symbol .assign :: e.tokens 0 := rfl
      rw [htokens, List.length_cons, List.length_cons] at hd
      rw [htokens]
      exact (accepts_assignment (he.accepts (by omega) hmore.ends)).orElse
  | expr he =>
      rename_i e
      have htokens : (Stmt.expr e).simpleTokens = e.tokens 0 := rfl
      rw [htokens] at hd ⊢
      refine Rejects.orElse (rejects_assignment ?_) ((he.accepts hd hmore.ends).bind (accepts_pure _ _))
      -- the second token stands in the expression or right behind it
      obtain ⟨t, rest, ht, _⟩ := he.head_tokens 0
      have hall := he.not_isAssign 0
      rw [ht] at hall ⊢
      intro u hu
      cases rest with
      | nil => exact hmore.not_isAssign u hu
      | cons v rest =>
          cases hu
          exact hall u (by simp)
  | _ => cases hs

theorem rejects_simple {toks : List Token} (h : ∀ t ∈ toks.head?, Expr.startsExpr t = false) (d : Nat) :
    Rejects (simple (Grammar.expr d)) toks := by
  have hassign : Rejects (assignment (Grammar.expr d)) toks := by
    refine (rejects_token fun t ht => ?_).bind
    cases t with
    | ident x => exact Bool.noConfusion (h _ ht)
    | _ => rfl
  exact hassign.orElse_rejects (rejects_expr h d).bind

/-- A list of simple statements, which may be empty. -/
theorem accepts_simpleList {ss : List Stmt} (h : ∀ s ∈ ss, s.Readable) (hs : ss.all isSimple = true)
    {d : Nat} (hd : (separated simpleTokens ss).length ≤ d) {closing : Symbol}
    (hclosing : closing = .semicolon ∨ closing = .rparen) :
    Accepts (simpleList (Grammar.expr d)) (separated simpleTokens ss ++ .symbol closing :: more) ss
      (.symbol closing :: more) := by
  refine accepts_sepBy (fun _ => rejects_simple ?_ d) (fun s hmem rest hrest => ?_) ?_
  · intro t ht
    cases ht
    rcases hclosing with rfl | rfl <;> rfl
  · exact accepts_simple (h s hmem) (List.all_eq_true.mp hs s hmem)
      (Nat.le_trans (length_le_separated hmem) hd) (endsSimple_of_item hrest hclosing)
  · rcases hclosing with rfl | rfl <;> simp

end Stmt

/-! ## Declarations -/

namespace Declarator

/-- The tokens of a declared variable. -/
def tokens (d : Declarator) : List Token := Glyph.tokens d.glyphs

theorem tokens_cons (v : Declarator) : ∃ rest, v.tokens = .ident v.name :: rest := by
  obtain ⟨x, init⟩ := v
  cases init <;> exact ⟨_, rfl⟩

theorem Readable.accepts {v : Declarator} (h : v.Readable) {d : Nat} (hd : v.tokens.length ≤ d)
    (hmore : EndsSimple more) : Accepts (declarator (expr d)) (v.tokens ++ more) v more := by
  obtain ⟨x, init⟩ := v
  cases init with
  | none =>
      have hnone : Rejects (do symbol .assign; expr d) more := by
        refine Rejects.bind (rejects_exactly fun hhead => ?_)
        exact Bool.noConfusion (hmore.not_isAssign _ hhead)
      refine (accepts_ident x more).bind ?_
      exact hnone.optional.bind (accepts_pure _ _)
  | some e =>
      have htokens : tokens ⟨x, some e⟩ = .ident x :: .symbol .assign :: e.tokens 0 := rfl
      rw [htokens, List.length_cons, List.length_cons] at hd
      rw [htokens]
      have hvalue : Accepts (do symbol .assign; expr d) (.symbol .assign :: (e.tokens 0 ++ more)) e more :=
        (accepts_symbol _ _).bind ((h.init e rfl).accepts (by omega) hmore.ends)
      refine (accepts_ident x _).bind ?_
      exact hvalue.optional.bind (accepts_pure _ _)

end Declarator

/-- A declaration without its semicolon. -/
theorem accepts_declaration {t : TypeName} {vars : List Declarator} (ht : t.Readable) (hne : vars ≠ [])
    (hvars : ∀ v ∈ vars, v.Readable) {d : Nat} (hd : (separated Declarator.tokens vars).length ≤ d) :
    Accepts (declaration (expr d)) (t.map .typeWord ++ (separated Declarator.tokens vars ++
      .symbol .semicolon :: more)) (.decl t vars) (.symbol .semicolon :: more) := by
  -- the type ends where the first name stands
  have hfirst : ∀ w, (separated Declarator.tokens vars ++ .symbol .semicolon :: more).head? ≠
      some (.typeWord w) := by
    intro w
    cases vars with
    | nil => exact absurd rfl hne
    | cons v vs =>
        obtain ⟨rest, hv⟩ := v.tokens_cons
        rw [separated, hv]
        simp
  refine (accepts_typeName ht.1 hfirst).bind
    (Accepts.bind (accepts_sepBy1 hne (fun v hv rest hrest => ?_) (by simp)) (accepts_pure _ _))
  exact (hvars v hv).accepts (Nat.le_trans (length_le_separated hv) hd)
    (endsSimple_of_item hrest (.inl rfl))

/-! ## The header of a `for` loop -/

namespace Stmt

/-- The tokens of the parts of a `for` header. -/
def headerTokens (level : Nat) (ss : List Stmt) : List Token := Glyph.tokens (commas (headerGlyphs level ss))

theorem headerTokens_simple (level : Nat) {ss : List Stmt} (hs : ss.all isSimple = true) :
    headerTokens level ss = separated simpleTokens ss := by
  have hrow : ∀ s ∈ ss, (simpleGlyphs? s).getD (glyphs level s) = (simpleGlyphs? s).getD [] := by
    intro s hmem
    have hsimple := List.all_eq_true.mp hs s hmem
    cases s with
    | assign | expr => rfl
    | _ => cases hsimple
  rw [headerTokens, headerGlyphs_eq, List.map_congr_left hrow, tokens_commas]
  rfl

theorem headerTokens_decl (level : Nat) (t : TypeName) (vars : List Declarator) :
    headerTokens level [decl t vars] = t.map .typeWord ++ separated Declarator.tokens vars := by
  show Glyph.tokens (type t ++ space :: commas (vars.map Declarator.glyphs)) = _
  rw [tokens_append, tokens_space, tokens_type, tokens_commas]
  rfl

theorem head_simpleTokens {s : Stmt} (h : s.Readable) (hs : s.isSimple = true) :
    ∃ t rest, s.simpleTokens = t :: rest ∧ Expr.startsExpr t = true := by
  cases h with
  | assign hx he => exact ⟨_, _, rfl, rfl⟩
  | expr he => exact he.head_tokens 0
  | _ => cases hs

theorem accepts_forInit {level : Nat} {init : List Stmt} (h : ∀ s ∈ init, s.Readable)
    (hheader : isHeader init = true) {d : Nat} (hd : (headerTokens level init).length ≤ d) :
    Accepts (forInit (Grammar.expr d)) (headerTokens level init ++ .symbol .semicolon :: more) init
      (.symbol .semicolon :: more) := by
  unfold isHeader at hheader
  split at hheader
  · rename_i t vars
    rw [headerTokens_decl, List.length_append] at hd
    rw [headerTokens_decl, List.append_assoc]
    cases h _ List.mem_cons_self with
    | decl ht hne hvars =>
        exact Accepts.orElse ((accepts_declaration ht hne hvars (by omega)).bind (accepts_pure _ _))
  · rw [headerTokens_simple level hheader] at hd ⊢
    -- a simple statement starts with no type word
    have hdecl : Rejects (declaration (Grammar.expr d))
        (separated simpleTokens init ++ .symbol .semicolon :: more) := by
      refine (rejects_typeName fun w hw => ?_).bind
      cases init with
      | nil => cases hw
      | cons s ss =>
          obtain ⟨t, rest, ht, hstart⟩ := head_simpleTokens (h s List.mem_cons_self)
            (List.all_eq_true.mp hheader s List.mem_cons_self)
          rw [separated, ht] at hw
          cases hw
          cases hstart
    exact hdecl.bind.orElse (accepts_simpleList h hheader hd (.inl rfl))

/-! ## The first token of a statement -/

/-- The rule that reads a statement with the given first token. -/
def ruleAt (e : Rule Expr) (s : Rule Stmt) : Option Token → Rule Stmt
  | some (.symbol .lbrace) => Grammar.block s
  | some (.keyword .ifWord) => Grammar.branch e s
  | some (.keyword .whileWord) => Grammar.whileLoop e s
  | some (.keyword .doWord) => Grammar.doWhile e s
  | some (.keyword .forWord) => Grammar.forLoop e s
  | some (.keyword .returnWord) => returnStmt e
  | some (.keyword .breakWord) => jump .breakWord .breakJump
  | some (.keyword .continueWord) => jump .continueWord .continueJump
  | some (.symbol .semicolon) => ended (Rule.pure .empty)
  | some (.typeWord _) => ended (declaration e)
  | _ => ended (simple e)

/-- An alternative that starts with a token of its own is taken exactly at that token. -/
theorem accepts_orElse_at {α : Type} {r s : Rule α} {a : α} {toks : List Token} (t : Token)
    (hr : toks.head? ≠ some t → Rejects r toks) (hfirst : toks.head? = some t → Accepts r toks a more)
    (hrest : toks.head? ≠ some t → Accepts s toks a more) : Accepts (r <|> s) toks a more := by
  by_cases ht : toks.head? = some t
  · exact (hfirst ht).orElse
  · exact (hr ht).orElse (hrest ht)

theorem accepts_of_ruleAt {d : Nat} {toks : List Token} {s : Stmt}
    (h : Accepts (ruleAt (Grammar.expr (d + 1)) (stmt d) toks.head?) toks s more) :
    Accepts (stmt (d + 1)) toks s more := by
  have hat : ∀ t, toks.head? = some t →
      Accepts (ruleAt (Grammar.expr (d + 1)) (stmt d) (some t)) toks s more := fun t ht => ht ▸ h
  refine accepts_orElse_at (.symbol .lbrace) (fun h => (rejects_between h).bind) (hat _) fun h₁ => ?_
  refine accepts_orElse_at (.keyword .ifWord) (fun h => (rejects_exactly h).bind) (hat _) fun h₂ => ?_
  refine accepts_orElse_at (.keyword .whileWord) (fun h => (rejects_exactly h).bind) (hat _) fun h₃ => ?_
  refine accepts_orElse_at (.keyword .doWord) (fun h => (rejects_exactly h).bind) (hat _) fun h₄ => ?_
  refine accepts_orElse_at (.keyword .forWord) (fun h => (rejects_exactly h).bind) (hat _) fun h₅ => ?_
  refine accepts_orElse_at (.keyword .returnWord) (fun h => (rejects_exactly h).bind) (hat _) fun h₆ => ?_
  refine accepts_orElse_at (.keyword .breakWord) (fun h => (rejects_exactly h).bind) (hat _) fun h₇ => ?_
  refine accepts_orElse_at (.keyword .continueWord) (fun h => (rejects_exactly h).bind) (hat _) fun h₈ => ?_
  refine accepts_orElse_at (.symbol .semicolon)
    (fun h => (accepts_pure _ _).bind_rejects (rejects_exactly h).bind) (hat _) fun h₉ => ?_
  -- what is left is a declaration or a simple statement
  by_cases htype : ∃ w, toks.head? = some (.typeWord w)
  · obtain ⟨w, hw⟩ := htype
    exact Accepts.orElse (hat _ hw)
  · refine Rejects.orElse (rejects_typeName fun w hw => htype ⟨w, hw⟩).bind.bind ?_
    have hrule : ruleAt (Grammar.expr (d + 1)) (stmt d) toks.head? =
        ended (simple (Grammar.expr (d + 1))) := by
      unfold ruleAt
      split
      all_goals first
        | rfl
        | contradiction
        | exact absurd ⟨_, ‹_›⟩ htype
    rwa [hrule] at h

theorem rejects_rbrace : ∀ d, Rejects (stmt d) (.symbol .rbrace :: more)
  | 0 => rejects_fail _
  | d + 1 => by
      have hkeyword : ∀ {α : Type} {f : Unit → Rule α} (k : Keyword),
          Rejects (Rule.keyword k >>= f) (.symbol .rbrace :: more) :=
        fun k => (rejects_exactly (by simp)).bind
      have hstart : ∀ t ∈ (Token.symbol .rbrace :: more).head?, Expr.startsExpr t = false := by
        intro t ht
        cases ht
        rfl
      refine (rejects_between (by simp)).bind.orElse_rejects ?_
      refine (hkeyword .ifWord).orElse_rejects ?_
      refine (hkeyword .whileWord).orElse_rejects ?_
      refine (hkeyword .doWord).orElse_rejects ?_
      refine (hkeyword .forWord).orElse_rejects ?_
      refine (hkeyword .returnWord).orElse_rejects ?_
      refine (hkeyword .breakWord).orElse_rejects ?_
      refine (hkeyword .continueWord).orElse_rejects ?_
      refine ((accepts_pure _ _).bind_rejects (rejects_exactly (by simp)).bind).orElse_rejects ?_
      exact (rejects_typeName (by simp)).bind.bind.orElse_rejects (rejects_simple hstart _).bind

/-! ## The tokens of a statement -/

/-- The tokens of a statement printed at a level. -/
def tokens (level : Nat) (s : Stmt) : List Token := Glyph.tokens (s.glyphs level)

/-- The level of the lines of a body. -/
def bodyLevel (level : Nat) (body : Stmt) : Nat := if body.isBlock then level else level + 1

/-- The tokens of the second half of a branch. -/
def elseTokens (level : Nat) : Option Stmt → List Token
  | none => []
  | some s => .keyword .elseWord :: s.tokens (bodyLevel level s)

variable {level : Nat} {c : Expr} {body : Stmt}

@[simp] theorem tokens_bodyGlyphs : Glyph.tokens (bodyGlyphs level body fun n => body.glyphs n) =
    body.tokens (bodyLevel level body) := by
  unfold bodyGlyphs bodyLevel
  split <;> simp [tokens]

@[simp] theorem tokens_afterBody (gs : List Glyph) :
    Glyph.tokens (afterBody level body :: gs) = Glyph.tokens gs := by
  unfold afterBody
  split <;> simp

theorem tokens_lineGlyphs (level : Nat) : ∀ ss : List Stmt,
    Glyph.tokens (lineGlyphs level ss) = ss.flatMap (tokens level)
  | [] => rfl
  | s :: ss => by
      rw [lineGlyphs, List.cons_append, tokens_line, tokens_append, tokens_lineGlyphs level ss]
      rfl

theorem tokens_block (ss : List Stmt) : (block ss).tokens level =
    .symbol .lbrace :: (ss.flatMap (tokens (level + 1)) ++ [.symbol .rbrace]) := by
  rw [tokens, glyphs]
  simp [tokens_lineGlyphs]

theorem tokens_branch (yes : Stmt) (no : Option Stmt) : (branch c yes no).tokens level =
    .keyword .ifWord :: (Expr.enclosed (c.tokens 0) ++
      (yes.tokens (bodyLevel level yes) ++ elseTokens level no)) := by
  have helse : Glyph.tokens (elseGlyphs level (afterBody level yes) no) = elseTokens level no := by
    cases no with
    | none => rfl
    | some s =>
        rw [elseGlyphs, tokens_afterBody, tokens_keyword, tokens_bodyGlyphs]
        rfl
  rw [tokens, glyphs]
  simp [helse, Expr.enclosed, Expr.tokens]

theorem tokens_whileLoop : (whileLoop c body).tokens level =
    .keyword .whileWord :: (Expr.enclosed (c.tokens 0) ++ body.tokens (bodyLevel level body)) := by
  rw [tokens, glyphs]
  simp [Expr.enclosed, Expr.tokens]

theorem tokens_doWhile : (doWhile body c).tokens level = .keyword .doWord ::
    (body.tokens (bodyLevel level body) ++ .keyword .whileWord :: (Expr.enclosed (c.tokens 0) ++
      [.symbol .semicolon])) := by
  rw [tokens, glyphs]
  simp [Expr.enclosed, Expr.tokens]

/-- The tokens of an expression that may be missing. -/
def optionTokens : Option Expr → List Token
  | none => []
  | some e => e.tokens 0

theorem tokens_forLoop (init step : List Stmt) (cond : Option Expr) :
    (forLoop init cond step body).tokens level = .keyword .forWord ::
      (Expr.enclosed (headerTokens level init ++ .symbol .semicolon ::
        (optionTokens cond ++ .symbol .semicolon :: headerTokens level step)) ++
          body.tokens (bodyLevel level body)) := by
  have hcond : Glyph.tokens (condGlyphs cond) = optionTokens cond := by
    cases cond <;> rfl
  have hstep : Glyph.tokens (if step.isEmpty then [] else space :: commas (headerGlyphs level step)) =
      headerTokens level step := by
    cases step <;> rfl
  rw [tokens, glyphs_forLoop]
  simp only [List.cons_append, tokens_keyword, tokens_space, tokens_append, tokens_parens, tokens_symbol,
    hcond, hstep, tokens_bodyGlyphs, Expr.enclosed, headerTokens, List.append_assoc, List.nil_append]

theorem tokens_ret (e : Option Expr) : (ret e).tokens level =
    .keyword .returnWord :: (optionTokens e ++ [.symbol .semicolon]) := by
  cases e with
  | none => rfl
  | some e =>
      rw [tokens, glyphs]
      simp [optionTokens, Expr.tokens]

theorem tokens_simple {s : Stmt} (h : s.isSimple = true) :
    s.tokens level = s.simpleTokens ++ [.symbol .semicolon] := by
  cases s with
  | assign | expr => simp [tokens, glyphs, simpleTokens, simpleGlyphs?]
  | _ => cases h

theorem tokens_decl (t : TypeName) (vars : List Declarator) : (decl t vars).tokens level =
    t.map .typeWord ++ (separated Declarator.tokens vars ++ [.symbol .semicolon]) := by
  rw [tokens, glyphs]
  simp only [tokens_append, tokens_type, tokens_space, tokens_commas, List.append_assoc]
  rfl

theorem Readable.head_tokens {s : Stmt} (h : s.Readable) (level : Nat) :
    ∃ t rest, s.tokens level = t :: rest ∧ t ≠ .keyword .elseWord := by
  cases h with
  | assign hx he => exact ⟨_, _, rfl, by simp⟩
  | expr he =>
      obtain ⟨t, rest, ht, hstart⟩ := he.head_tokens 0
      refine ⟨t, rest ++ [.symbol .semicolon], ?_, fun h => by subst h; cases hstart⟩
      rw [tokens_simple rfl, show (Stmt.expr _).simpleTokens = _ from ht, List.cons_append]
  | decl ht hne hvars =>
      rename_i t vars
      cases t with
      | nil => exact absurd rfl ht.1
      | cons w t => exact ⟨_, _, tokens_decl _ _, by simp⟩
  | branch => exact ⟨_, _, tokens_branch _ _, by simp⟩
  | whileLoop => exact ⟨_, _, tokens_whileLoop, by simp⟩
  | doWhile => exact ⟨_, _, tokens_doWhile, by simp⟩
  | forLoop => exact ⟨_, _, tokens_forLoop _ _ _, by simp⟩
  | block => exact ⟨_, _, tokens_block _, by simp⟩
  | ret => exact ⟨_, _, tokens_ret _, by simp⟩
  | breakJump | continueJump | empty => exact ⟨_, _, rfl, by simp⟩

/-! ## Every statement -/

/-- The statement is read back, unless it ends in a branch that an `else` follows. -/
def ReadsBack (s : Stmt) : Prop :=
  ∀ (level d : Nat) (more : List Token), (s.tokens level).length ≤ d →
    (s.isOpen = true → more.head? ≠ some (.keyword .elseWord)) →
      Accepts (stmt d) (s.tokens level ++ more) s more

/-- It is enough that the rule that the first token selects reads the statement. -/
theorem readsBack_of_ruleAt {s : Stmt} (h : s.Readable)
    (hrule : ∀ (level d : Nat) (more : List Token), (s.tokens level).length ≤ d + 1 →
      (s.isOpen = true → more.head? ≠ some (.keyword .elseWord)) →
      Accepts (ruleAt (Grammar.expr (d + 1)) (stmt d) (s.tokens level ++ more).head?) (s.tokens level ++ more)
        s more) : ReadsBack s := by
  intro level d more hd hopen
  cases d with
  | zero =>
      obtain ⟨t, rest, ht, _⟩ := h.head_tokens level
      rw [ht] at hd
      exact absurd hd (Nat.not_succ_le_zero _)
  | succ d => exact accepts_of_ruleAt (hrule level d more hd hopen)

theorem accepts_guard (hc : c.Readable) {d : Nat} (hd : (c.tokens 0).length ≤ d) :
    Accepts (Rule.parens (Grammar.expr d)) (Expr.enclosed (c.tokens 0) ++ more) c more := by
  rw [Expr.enclosed_append]
  exact (hc.accepts hd ends_rparen).between

/-- Statements up to a closing brace. -/
theorem repeats_lines {d : Nat} : ∀ {ss : List Stmt}, (∀ s ∈ ss, s.Readable) → (∀ s ∈ ss, ReadsBack s) →
    (ss.flatMap (tokens level)).length ≤ d →
    Repeats (stmt d) (ss.flatMap (tokens level) ++ .symbol .rbrace :: more) ss (.symbol .rbrace :: more)
  | [], _, _, _ => .stop (rejects_rbrace d)
  | s :: ss, h, hback, hd => by
      have hss : ∀ s ∈ ss, s.Readable := fun s hs => h s (List.mem_cons_of_mem _ hs)
      rw [List.flatMap_cons, List.length_append] at hd
      have hrest := repeats_lines hss (fun s hs => hback s (List.mem_cons_of_mem _ hs))
        (Nat.le_trans (Nat.le_add_left _ _) hd)
      -- no statement starts with `else`, so none can run on into the next
      have helse : (ss.flatMap (tokens level) ++ .symbol .rbrace :: more).head? ≠
          some (.keyword .elseWord) := by
        cases ss with
        | nil => simp
        | cons s ss =>
            obtain ⟨t, rest, ht, hne⟩ := (hss s List.mem_cons_self).head_tokens level
            rw [List.flatMap_cons, ht]
            exact fun heq => hne (Option.some.inj heq)
      obtain ⟨t, rest, ht, _⟩ := (h s List.mem_cons_self).head_tokens level
      rw [List.flatMap_cons, List.append_assoc]
      refine .round (hback s List.mem_cons_self level d _ (by omega) fun _ => helse) ?_ hrest
      rw [ht]
      simp only [List.cons_append, List.length_cons, List.length_append]
      omega

theorem ruleAt_of_startsExpr {e : Rule Expr} {s : Rule Stmt} {t : Token} (h : Expr.startsExpr t = true) :
    ruleAt e s (some t) = ended (simple e) := by
  cases t with
  | number | ident => rfl
  | keyword | typeWord => cases h
  | symbol s => cases s <;> first | rfl | cases h

/-- An assignment or an expression with its semicolon. -/
theorem readsBack_simple {s : Stmt} (h : s.Readable) (hs : s.isSimple = true) : ReadsBack s := by
  refine readsBack_of_ruleAt h fun level d more hd _ => ?_
  obtain ⟨t, rest, ht, hstart⟩ := head_simpleTokens h hs
  have hrule : ruleAt (Grammar.expr (d + 1)) (stmt d) (s.tokens level ++ more).head? =
      ended (simple (Grammar.expr (d + 1))) := by
    rw [tokens_simple hs, ht]
    exact ruleAt_of_startsExpr hstart
  rw [tokens_simple hs, List.length_append] at hd
  rw [hrule, tokens_simple hs, List.append_assoc]
  refine (accepts_simple h hs (by omega) ⟨_, more, rfl, .inr (.inl rfl)⟩).bind ?_
  exact (accepts_symbol _ _).bind (accepts_pure _ _)

theorem readsBack_jump {k : Keyword} {s : Stmt} (hs : s.Readable)
    (htokens : ∀ level, s.tokens level = [.keyword k, .symbol .semicolon])
    (hrule : ∀ e r, ruleAt e r (some (.keyword k)) = jump k s) : ReadsBack s := by
  refine readsBack_of_ruleAt hs fun level d more _ _ => ?_
  rw [htokens, List.cons_append, List.head?_cons, hrule]
  exact (accepts_keyword _ _).bind ((accepts_symbol _ _).bind (accepts_pure _ _))

/-- The `else` of a branch is its own, because the first half does not end in a branch without one. -/
theorem readsBack_branch {yes : Stmt} {no : Option Stmt} (h : (branch c yes no).Readable)
    (hyes : ReadsBack yes) (hno : ∀ s ∈ no, ReadsBack s) : ReadsBack (branch c yes no) := by
  refine readsBack_of_ruleAt h fun level d more hd hopen => ?_
  cases h with
  | branch hc _ _ helse =>
    rw [tokens_branch, List.length_cons, List.length_append, List.length_append,
      Expr.length_enclosed] at hd
    rw [tokens_branch, List.cons_append, List.append_assoc, List.append_assoc]
    refine (accepts_keyword _ _).bind ((accepts_guard hc (by omega)).bind ?_)
    cases no with
    | none =>
        have hmore : more.head? ≠ some (.keyword .elseWord) := hopen rfl
        refine (hyes _ d _ (by omega) fun _ => hmore).bind ?_
        exact (rejects_exactly hmore).bind.optional.bind (accepts_pure _ _)
    | some s =>
        rw [elseTokens, List.length_cons] at hd
        have hclosed : yes.isOpen = false := helse rfl
        refine (hyes _ d _ (by omega) fun h => absurd (hclosed.symm.trans h) Bool.false_ne_true).bind ?_
        have hsecond : Accepts (do Rule.keyword .elseWord; stmt d) (elseTokens level (some s) ++ more) s more :=
          (accepts_keyword _ _).bind (hno s rfl _ d more (by omega) hopen)
        exact hsecond.optional.bind (accepts_pure _ _)

theorem accepts_option {d : Nat} {e : Option Expr} (h : ∀ v ∈ e, v.Readable)
    (hd : (optionTokens e).length ≤ d) :
    Accepts (optional (Grammar.expr d)) (optionTokens e ++ .symbol .semicolon :: more) e
      (.symbol .semicolon :: more) := by
  cases e with
  | none => exact (rejects_expr (fun t ht => by cases ht; rfl) d).optional
  | some e => exact ((h e rfl).accepts hd ends_semicolon).optional

theorem readsBack_forLoop {init step : List Stmt} {cond : Option Expr}
    (h : (forLoop init cond step body).Readable) (hbody : ReadsBack body) :
    ReadsBack (forLoop init cond step body) := by
  refine readsBack_of_ruleAt h fun level d more hd hopen => ?_
  cases h with
  | forLoop hinit hheader hcond hstep hsimple _ =>
    rw [tokens_forLoop, List.length_cons, List.length_append, Expr.length_enclosed, List.length_append,
      List.length_cons, List.length_append, List.length_cons] at hd
    rw [tokens_forLoop, List.cons_append, List.append_assoc, Expr.enclosed_append]
    have hlast := hbody (bodyLevel level body) d more (by omega) hopen
    refine (accepts_keyword _ _).bind (Accepts.bind (a := (init, cond, step)) (Accepts.between ?_)
      (hlast.bind (accepts_pure _ _)))
    -- the three parts of the header
    rw [List.append_assoc, List.cons_append, List.append_assoc, List.cons_append]
    refine (accepts_forInit hinit hheader (by omega)).bind ((accepts_symbol _ _).bind ?_)
    refine (accepts_option hcond (by omega)).bind ((accepts_symbol _ _).bind ?_)
    rw [headerTokens_simple level hsimple] at hd ⊢
    exact (accepts_simpleList hstep hsimple (by omega) (.inr rfl)).bind (accepts_pure _ _)

theorem Readable.readsBack {s : Stmt} (h : s.Readable) : ReadsBack s := by
  induction h with
  | assign hx he => exact readsBack_simple (.assign hx he) rfl
  | expr he => exact readsBack_simple (.expr he) rfl
  | decl ht hne hvars =>
      rename_i t vars
      refine readsBack_of_ruleAt (.decl ht hne hvars) fun level d more hd _ => ?_
      cases t with
      | nil => exact absurd rfl ht.1
      | cons w t =>
          rw [tokens_decl, List.length_append, List.length_append] at hd
          rw [tokens_decl, List.append_assoc, List.append_assoc]
          refine (accepts_declaration ht hne hvars (by omega)).bind ?_
          exact (accepts_symbol _ _).bind (accepts_pure _ _)
  | branch hc hyes hno helse ihyes ihno => exact readsBack_branch (.branch hc hyes hno helse) ihyes ihno
  | whileLoop hc hbody ih =>
      refine readsBack_of_ruleAt (.whileLoop hc hbody) fun level d more hd hopen => ?_
      rw [tokens_whileLoop, List.length_cons, List.length_append, Expr.length_enclosed] at hd
      rw [tokens_whileLoop, List.cons_append, List.append_assoc]
      refine (accepts_keyword _ _).bind ((accepts_guard hc (by omega)).bind ?_)
      exact (ih _ d more (by omega) hopen).bind (accepts_pure _ _)
  | doWhile hbody hc ih =>
      refine readsBack_of_ruleAt (.doWhile hbody hc) fun level d more hd _ => ?_
      rw [tokens_doWhile, List.length_cons, List.length_append, List.length_cons, List.length_append,
        Expr.length_enclosed] at hd
      rw [tokens_doWhile, List.cons_append, List.append_assoc, List.cons_append, List.append_assoc]
      refine (accepts_keyword _ _).bind ((ih _ d _ (by omega) fun _ => by simp).bind ?_)
      refine (accepts_keyword _ _).bind ((accepts_guard hc (by omega)).bind ?_)
      exact (accepts_symbol _ _).bind (accepts_pure _ _)
  | forLoop hinit hheader hc hstep hsimple hbody ihinit ihstep ihbody =>
      exact readsBack_forLoop (.forLoop hinit hheader hc hstep hsimple hbody) ihbody
  | block hbody ih =>
      rename_i ss
      refine readsBack_of_ruleAt (.block hbody) fun level d more hd _ => ?_
      rw [tokens_block, List.length_cons, List.length_append] at hd
      rw [tokens_block, List.cons_append, List.append_assoc]
      have hlines : Repeats (stmt d) (ss.flatMap (tokens (level + 1)) ++ .symbol .rbrace :: more) ss
          (.symbol .rbrace :: more) :=
        repeats_lines hbody ih (by omega)
      exact (hlines.many.between).bind (accepts_pure _ _)
  | ret he =>
      refine readsBack_of_ruleAt (.ret he) fun level d more hd _ => ?_
      rw [tokens_ret, List.length_cons, List.length_append] at hd
      rw [tokens_ret, List.cons_append, List.append_assoc]
      refine (accepts_keyword _ _).bind ((accepts_option he (by omega)).bind ?_)
      exact (accepts_symbol _ _).bind (accepts_pure _ _)
  | breakJump => exact readsBack_jump .breakJump (fun _ => rfl) fun _ _ => rfl
  | continueJump => exact readsBack_jump .continueJump (fun _ => rfl) fun _ _ => rfl
  | empty =>
      refine readsBack_of_ruleAt .empty fun level d more _ _ => ?_
      exact (accepts_pure _ _).bind ((accepts_symbol _ _).bind (accepts_pure _ _))

end Stmt

/-! ## Functions and programs -/

/-- The tokens of a parameter. -/
def Param.tokens (p : Param) : List Token := p.type.map .typeWord ++ [.ident p.name]

theorem accepts_param {p : Param} (h : p.type.Readable) :
    Accepts param (p.tokens ++ more) (some p) more := by
  rw [Param.tokens, List.append_assoc]
  refine (accepts_typeName h.1 (by simp)).bind ?_
  exact (accepts_ident p.name more).optional.bind (accepts_pure _ _)

/-- Named parameters are read back; those without a name were dropped. -/
theorem accepts_params {ps : List Param} (h : ∀ p ∈ ps, p.type.Readable) :
    Accepts (sepBy param comma) (separated Param.tokens ps ++ .symbol .rparen :: more) (ps.map some)
      (.symbol .rparen :: more) := by
  have hrow : separated Param.tokens ps =
      separated (fun p? => (p?.map Param.tokens).getD []) (ps.map some) := by
    cases ps with
    | nil => rfl
    | cons p ps => simp [separated, List.flatMap_map]
  rw [hrow]
  refine accepts_sepBy (fun _ => (rejects_typeName (by simp)).bind) (fun p? hp? rest _ => ?_) (by simp)
  obtain ⟨p, hp, rfl⟩ := List.mem_map.mp hp?
  exact accepts_param (h p hp)

namespace Function

/-- The tokens of a function definition. -/
def tokens (f : Function) : List Token := Glyph.tokens f.glyphs

theorem tokens_eq (f : Function) : f.tokens = f.returns.map .typeWord ++ .ident f.name ::
    (Expr.enclosed (separated Param.tokens f.params) ++ .symbol .lbrace ::
      (f.body.flatMap (Stmt.tokens 1) ++ [.symbol .rbrace])) := by
  have hparam : ∀ p : Param, Glyph.tokens (type p.type ++ [space, ident p.name]) = p.tokens := by
    intro p
    simp [Param.tokens]
  rw [tokens, Function.glyphs]
  simp [tokens_commas, Stmt.tokens_lineGlyphs, hparam, Expr.enclosed]

theorem length_le_tokens : ∀ fs : List Function, fs.length ≤ (fs.flatMap tokens).length
  | [] => Nat.le_refl _
  | f :: fs => by
      have ih := length_le_tokens fs
      rw [List.flatMap_cons, tokens_eq]
      simp only [List.length_append, List.length_cons]
      omega

theorem Readable.accepts {f : Function} (h : f.Readable) {d : Nat} (hd : f.tokens.length ≤ d) :
    Accepts (Grammar.function d) (f.tokens ++ more) (some f) more := by
  rw [tokens_eq] at hd ⊢
  simp only [List.length_append, List.length_cons] at hd
  rw [List.append_assoc, List.cons_append, List.append_assoc, List.cons_append, List.append_assoc,
    Expr.enclosed_append]
  refine (accepts_typeName h.returns.1 (by simp)).bind ((accepts_ident _ _).bind ?_)
  refine (accepts_params fun p hp => (h.params p hp).1).between.bind ?_
  have hlines : Repeats (stmt d) (f.body.flatMap (Stmt.tokens 1) ++ .symbol .rbrace :: more) f.body
      (.symbol .rbrace :: more) :=
    Stmt.repeats_lines h.body (fun s hs => (h.body s hs).readsBack) (by omega)
  have hbody : Accepts (do return some (← braces (many (stmt d)))) (.symbol .lbrace ::
      (f.body.flatMap (Stmt.tokens 1) ++ .symbol .rbrace :: more)) (some f.body) more :=
    hlines.many.between.bind (accepts_pure _ _)
  refine hbody.orElse.bind ?_
  have hparams : (f.params.map some).filterMap id = f.params := by
    rw [List.filterMap_map]
    exact List.filterMap_some
  show Accepts (pure (some (Function.mk f.returns f.name ((f.params.map some).filterMap id) f.body))) more
    (some f) more
  rw [hparams]
  exact accepts_pure _ _

end Function

theorem item_of_tokens {f : Function} (h : f.Readable) {d : Nat} (hd : f.tokens.length ≤ d) {ts : List Lexeme}
    (hts : ts.map (·.token) = f.tokens ++ more) :
    ∃ span rest hint, item d ts = .ok (some ⟨f, span⟩) rest hint ∧ rest.map (·.token) = more := by
  obtain ⟨rest, hint, hread, hrest⟩ := h.accepts hd ts hts
  refine ⟨spanOf (ts.take (ts.length - rest.length)), rest, Fault.joinOpt hint none, ?_, hrest⟩
  have hspan : withSpan (Grammar.function d) ts =
      .ok (some f, spanOf (ts.take (ts.length - rest.length))) rest hint := by
    unfold withSpan
    simp only [hread]
  unfold item
  exact orElse_of_ok (bind_of_ok hspan rfl)

theorem tokens_glyphsOf : ∀ fs : List Function,
    Glyph.tokens (Program.glyphsOf fs) = fs.flatMap Function.tokens
  | [] => rfl
  | [f] => by simp [Program.glyphsOf, Function.tokens]
  | f :: g :: fs => by
      rw [Program.glyphsOf, tokens_append, tokens_line, tokens_glyphsOf (g :: fs)]
      · rfl
      · simp

theorem rejects_item_nil (d : Nat) : Rejects (item d) [] := by
  have htype : Rejects typeName [] := rejects_typeName (by simp)
  exact htype.bind.withSpan.bind.orElse_rejects htype.bind

/-- The functions of a printed program, one after another. -/
theorem items_of_tokens {d : Nat} : ∀ {fs : List Function}, (∀ f ∈ fs, f.Readable) →
    (fs.flatMap Function.tokens).length ≤ d → ∀ {n : Nat} {ts : List Lexeme}, fs.length < n →
    ts.map (·.token) = fs.flatMap Function.tokens →
    ∃ (ds : List Definition) (hint : Option Fault),
      upTo (item d) n ts = .ok (ds.map some) [] hint ∧ ds.map (·.function) = fs
  | fs, _, _, 0, _, hn, _ => absurd hn (Nat.not_lt_zero _)
  | [], _, _, n + 1, ts, _, hts => by
      obtain rfl : ts = [] := List.map_eq_nil_iff.mp hts
      obtain ⟨rest, hint, hread, hrest⟩ := (Repeats.stop (rejects_item_nil d)).upTo n.succ_pos [] rfl
      obtain rfl : rest = [] := List.map_eq_nil_iff.mp hrest
      exact ⟨[], hint, hread, rfl⟩
  | f :: fs, h, hd, n + 1, ts, hn, hts => by
      rw [List.flatMap_cons, List.length_append] at hd
      have hf : f.tokens.length ≤ d := by omega
      have hfs : (fs.flatMap Function.tokens).length ≤ d := by omega
      obtain ⟨span, mid, hint, hread, hmid⟩ := item_of_tokens (h f List.mem_cons_self) hf hts
      obtain ⟨ds, hint', hmore, hds⟩ := items_of_tokens (fun f hf => h f (List.mem_cons_of_mem _ hf)) hfs
        (Nat.lt_of_succ_lt_succ hn) hmid
      obtain ⟨hint'', hitems⟩ := upTo_succ_of_ok hread hmore
      exact ⟨⟨f, span⟩ :: ds, hint'', hitems, congrArg (f :: ·) hds⟩

/-- **A printed program is read back**, from any lexemes with its tokens. -/
theorem Program.ofLexemes_of_tokens {fs : List Function} (h : ∀ f ∈ fs, f.Readable) {ts : List Lexeme}
    (hts : ts.map (·.token) = fs.flatMap Function.tokens) :
    ∃ q, Program.ofLexemes ts = .ok q ∧ q.functions = fs := by
  have hlength : (fs.flatMap Function.tokens).length = ts.length := by rw [← hts, List.length_map]
  have hcount : fs.length ≤ ts.length := hlength ▸ Function.length_le_tokens fs
  obtain ⟨ds, hint, hitems, hds⟩ := items_of_tokens h (Nat.le_of_eq hlength) (Nat.lt_succ_of_le hcount) hts
  have hmany : many (item ts.length) ts = .ok (ds.map some) [] hint := hitems
  have hprogram : Grammar.program ts.length ts =
      .ok ⟨(ds.map some).filterMap id⟩ [] (Fault.joinOpt hint none) :=
    bind_of_ok hmany rfl
  refine ⟨⟨ds⟩, ?_, hds⟩
  unfold Program.ofLexemes
  rw [hprogram, List.filterMap_map]
  simp only [Function.id_comp, List.filterMap_some]

end GrowthFlow.Lang
