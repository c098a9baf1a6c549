import GrowthFlow.Proofs.PrintedRows
import GrowthFlow.Proofs.Reading

/-!
# Printed expressions are read back

The tokens of an expression are read back by the rule of its level, before anything that cannot go on with
the expression (`Ends`). The parentheses of the printer are the ones that the grammar needs, so the levels of
the two agree: an operator of strength `p` is printed without parentheses exactly in the places that the rule
of some level up to `p` reads.

A level is a chain of operands that is grouped to the left. Reading it back goes by induction on the
expression, and the induction has to enter the left operand, where the chain is not over yet. So what is
shown of each expression is that it is read as the start of a chain whose further rounds are given
(`ReadsChain`). The operators behind an operand are treated in the same way (`ReadsTrailed`).
-/

namespace GrowthFlow.Lang

open Glyph Rule Grammar

namespace Glyph

@[simp] theorem tokens_type : ∀ t : TypeName, tokens (type t) = t.map .typeWord
  | [] => rfl
  | [_] => rfl
  | word :: next :: t => congrArg (Token.typeWord word :: ·) (tokens_type (next :: t))

theorem tokens_commas {α : Type} {g : α → List Glyph} :
    ∀ as : List α, tokens (commas (as.map g)) = separated (fun a => tokens (g a)) as
  | [] => rfl
  | [a] => by simp [commas, separated]
  | a :: b :: as => by
      have ih := tokens_commas (g := g) (b :: as)
      rw [List.map_cons] at ih
      simp [commas, ih, separated]

end Glyph

/-! ## The tokens of an expression -/

namespace Expr

/-- The tokens of an expression, in parentheses if it binds looser than `least`. -/
def tokens (least : Nat) (e : Expr) : List Token := Glyph.tokens (e.glyphs least)

/-- Tokens in parentheses. -/
def enclosed (toks : List Token) : List Token := .symbol .lparen :: toks ++ [.symbol .rparen]

theorem enclosed_append (toks more : List Token) :
    enclosed toks ++ more = .symbol .lparen :: (toks ++ .symbol .rparen :: more) := by
  simp [enclosed]

theorem length_enclosed (toks : List Token) : (enclosed toks).length = toks.length + 2 := by
  simp [enclosed]

variable {least : Nat} {e l r : Expr} {op : UnaryOp}

theorem tokens_const (n : Int) : (const n).tokens least = [.number n] := rfl

theorem tokens_var (x : String) : (var x).tokens least = [.ident x] := rfl

theorem tokens_leading (hop : op.isLeading = true) : (unary op e).tokens least =
    .symbol op.symbol :: if e.isLeadingUnary then enclosed (e.tokens 0) else e.tokens 7 := by
  rw [tokens, glyphs, if_pos hop]
  split <;> simp [enclosed, tokens]

theorem tokens_trailing (hop : op.isLeading = false) : (unary op e).tokens least =
    (if e.isTrailable then e.tokens 0 else enclosed (e.tokens 0)) ++ [.symbol op.symbol] := by
  rw [tokens, glyphs, if_neg (ne_of_eq_of_ne hop Bool.false_ne_true)]
  split <;> simp [enclosed, tokens]

theorem tokens_binary (op : BinaryOp) (h : least ≤ op.precedence) : (binary op l r).tokens least =
    l.tokens op.precedence ++ .symbol op.symbol :: r.tokens (op.precedence + 1) := by
  simp [tokens, glyphs, Nat.not_lt.mpr h]

theorem tokens_binary_enclosed (op : BinaryOp) (h : op.precedence < least) :
    (binary op l r).tokens least = enclosed ((binary op l r).tokens 0) := by
  simp [tokens, glyphs, h, enclosed]

theorem tokens_cast (t : TypeName) : (cast t e).tokens least =
    enclosed (t.map .typeWord) ++ e.tokens 7 := by
  simp [tokens, glyphs, enclosed]

theorem tokens_call (f : String) (args : List Expr) : (call f args).tokens least =
    .ident f :: enclosed (separated (tokens 0) args) := by
  rw [tokens, glyphs, glyphsAll_eq, tokens_ident, tokens_parens, tokens_commas]
  rfl

/-- Only for its own operator an expression is put in parentheses. -/
theorem tokens_eq_of_not_binary (h : ∀ op l r, e ≠ binary op l r) (p q : Nat) : e.tokens p = e.tokens q := by
  cases e with
  | binary op l r => exact absurd rfl (h op l r)
  | _ => simp only [tokens, glyphs]

/-- The tokens that an expression may start with. -/
def startsExpr : Token → Bool
  | .number _ | .ident _ => true
  | .symbol s => s == .lparen || UnaryOp.leading.any (·.symbol == s)
  | _ => false

theorem Readable.head_tokens (h : e.Readable) (least : Nat) :
    ∃ t rest, e.tokens least = t :: rest ∧ startsExpr t = true := by
  induction h generalizing least with
  | const hn => exact ⟨_, _, tokens_const _, rfl⟩
  | var hx => exact ⟨_, _, tokens_var _, rfl⟩
  | unary op he ih =>
      rename_i e
      cases hop : op.isLeading with
      | true => exact ⟨_, _, tokens_leading hop, by cases op <;> rfl⟩
      | false =>
          rw [tokens_trailing hop]
          split
          · obtain ⟨t, rest, ht, hstart⟩ := ih 0
            exact ⟨t, rest ++ _, by rw [ht]; rfl, hstart⟩
          · exact ⟨_, _, rfl, rfl⟩
  | binary op hl hr ihl ihr =>
      by_cases hop : least ≤ op.precedence
      · obtain ⟨t, rest, ht, hstart⟩ := ihl op.precedence
        exact ⟨t, rest ++ _, by rw [tokens_binary op hop, ht]; rfl, hstart⟩
      · exact ⟨_, _, tokens_binary_enclosed op (Nat.lt_of_not_le hop), rfl⟩
  | cast ht he ih => exact ⟨_, _, tokens_cast _, rfl⟩
  | call hf hargs ih => exact ⟨_, _, tokens_call _ _, rfl⟩

end Expr

/-! ## Where an expression ends -/

/-- The tokens that go on with an expression whose operators bind at least as tight as `least`. -/
def goesOn (least : Nat) : Token → Bool
  | .symbol s => s == .lparen || s == .increment || s == .decrement ||
      BinaryOp.all.any fun op => op.symbol == s && least ≤ op.precedence
  | _ => false

/-- What may stand behind such an expression. -/
def Ends (least : Nat) (more : List Token) : Prop := ∀ t ∈ more.head?, goesOn least t = false

variable {p q : Nat} {more : List Token}

theorem Ends.mono (h : Ends p more) (hpq : p ≤ q) : Ends q more := by
  intro t ht
  have hp := h t ht
  cases t with
  | symbol s =>
      simp only [goesOn, Bool.or_eq_false_iff, List.any_eq_false, Bool.and_eq_true, decide_eq_true_eq,
        not_and] at hp ⊢
      exact ⟨hp.1, fun op hop hs hq => hp.2 op hop hs (Nat.le_trans hpq hq)⟩
  | _ => rfl

theorem ends_rparen : Ends p (.symbol .rparen :: more) := by
  intro t ht
  cases ht
  rfl

theorem ends_comma (h : more.head? = some (.symbol .comma)) : Ends p more := by
  intro t ht
  cases h.symm.trans ht
  rfl

theorem ends_semicolon : Ends p (.symbol .semicolon :: more) := by
  intro t ht
  cases ht
  rfl

/-- A binary operator ends what binds tighter. -/
theorem ends_binary (op : BinaryOp) : Ends (op.precedence + 1) (.symbol op.symbol :: more) := by
  intro t ht
  cases ht
  cases op <;> rfl

theorem Ends.head_ne_lparen (h : Ends p more) : more.head? ≠ some (.symbol .lparen) := by
  intro hhead
  exact Bool.noConfusion ((h _ hhead).symm.trans rfl)

/-! ## Operators -/

theorem accepts_binaryOp (op : BinaryOp) (more : List Token) :
    Accepts (binaryOp (BinaryOp.ofPrecedence op.precedence)) (.symbol op.symbol :: more) op more :=
  accepts_oneOf (by cases op <;> rfl) more

theorem rejects_binaryOp (h : Ends p more) : Rejects (binaryOp (BinaryOp.ofPrecedence p)) more := by
  refine rejects_oneOf fun t ht => List.lookup_eq_none_iff.mpr fun entry hentry => ?_
  obtain ⟨op, hop, rfl⟩ := List.mem_map.mp hentry
  obtain ⟨hall, hp⟩ := List.mem_filter.mp hop
  rw [bne_iff_ne]
  intro heq
  -- an operator of this level would go on with the expression
  have hgoes : goesOn p t = true := by
    rw [heq]
    cases op <;> cases (of_decide_eq_true hp : _ = p) <;> rfl
  exact absurd ((h t ht).symm.trans hgoes) Bool.false_ne_true

theorem accepts_leading {op : UnaryOp} (hop : op.isLeading = true) (more : List Token) :
    Accepts (unaryOp UnaryOp.leading) (.symbol op.symbol :: more) op more :=
  accepts_oneOf (by cases op <;> first | rfl | cases hop) more

theorem accepts_trailing {op : UnaryOp} (hop : op.isLeading = false) (more : List Token) :
    Accepts (unaryOp UnaryOp.trailing) (.symbol op.symbol :: more) op more :=
  accepts_oneOf (by cases op <;> first | rfl | cases hop) more

theorem rejects_trailing (h : Ends p more) : Rejects (unaryOp UnaryOp.trailing) more := by
  refine rejects_oneOf fun t ht => List.lookup_eq_none_iff.mpr fun entry hentry => ?_
  rw [bne_iff_ne]
  intro heq
  have hgoes : goesOn p t = true := by
    rw [heq]
    obtain ⟨op, hop, rfl⟩ := List.mem_map.mp hentry
    cases op <;> first | rfl | exact absurd hop (by decide)
  exact absurd ((h t ht).symm.trans hgoes) Bool.false_ne_true

theorem rejects_leading {toks : List Token}
    (h : ∀ op ∈ UnaryOp.leading, toks.head? ≠ some (.symbol op.symbol)) :
    Rejects (unaryOp UnaryOp.leading) toks := by
  refine rejects_oneOf fun t ht => List.lookup_eq_none_iff.mpr fun entry hentry => ?_
  obtain ⟨op, hop, rfl⟩ := List.mem_map.mp hentry
  rw [bne_iff_ne]
  exact fun heq => h op hop (Eq.trans ht (congrArg some heq))

theorem rejects_leading_lparen {toks : List Token} :
    Rejects (unaryOp UnaryOp.leading) (.symbol .lparen :: toks) := by
  refine rejects_leading fun op hop h => ?_
  exact absurd (Option.some.inj h)
    ((by decide : ∀ op ∈ UnaryOp.leading, Token.symbol .lparen ≠ .symbol op.symbol) op hop)

/-! ## Where no expression starts -/

section Rejected

variable {expr : Rule Expr} {toks : List Token} (h : ∀ t ∈ toks.head?, Expr.startsExpr t = false)
include h

theorem rejects_trailed : Rejects (trailed expr) toks := by
  have hconst : Rejects constant toks := rejects_token fun t ht => by
    cases t with
    | number n => exact Bool.noConfusion (h _ ht)
    | _ => rfl
  have hident : Rejects ident toks := rejects_token fun t ht => by
    cases t with
    | ident x => exact Bool.noConfusion (h _ ht)
    | _ => rfl
  have hparens : Rejects (parens expr) toks := rejects_between fun ht => Bool.noConfusion (h _ ht)
  exact (hconst.orElse_rejects (hident.bind.orElse_rejects hparens)).bind

theorem rejects_unary : ∀ m, Rejects (unary expr m) toks
  | 0 => rejects_fail _
  | m + 1 => by
      have hlead : Rejects (unaryOp UnaryOp.leading) toks :=
        rejects_leading fun op hop ht => absurd ((h _ ht).symm.trans
          ((by decide : ∀ op ∈ UnaryOp.leading, Expr.startsExpr (.symbol op.symbol) = true) op hop))
          Bool.false_ne_true
      have hcast : Rejects (parens typeName) toks := rejects_between fun ht => Bool.noConfusion (h _ ht)
      exact hlead.bind.orElse_rejects (hcast.bind.orElse_rejects (rejects_trailed h))

theorem rejects_expr : ∀ d, Rejects (Grammar.expr d) toks
  | 0 => rejects_fail _
  | d + 1 => by
      have hbinary : ∀ levels p, Rejects (binary (unary (Grammar.expr d) (d + 1)) levels p) toks := by
        intro levels
        induction levels with
        | zero => exact fun _ => rejects_unary h _
        | succ levels ih => exact fun p => (ih (p + 1)).bind
      exact hbinary 6 1

end Rejected

/-! ## Levels -/

/-- One round of a chain of operators of strength `p`. -/
def round (d levels p : Nat) : Rule (BinaryOp × Expr) := do
  let op ← binaryOp (BinaryOp.ofPrecedence p)
  return (op, ← binary (unary (expr d) (d + 1)) levels (p + 1))

variable {e l r : Expr} {levels : Nat}

/-- The expression is read as an operand. -/
def ReadsOperand (e : Expr) : Prop :=
  ∀ (d m : Nat) (more : List Token), (e.tokens 7).length ≤ m → (e.tokens 7).length ≤ d + 1 →
    Ends 7 more → Accepts (unary (expr d) m) (e.tokens 7 ++ more) e more

/-- The expression is read by the rule of a level. -/
def ReadsLevel (levels p : Nat) (e : Expr) : Prop :=
  ∀ (d : Nat) (more : List Token), (e.tokens p).length ≤ d + 1 → Ends p more →
    Accepts (binary (unary (expr d) (d + 1)) levels p) (e.tokens p ++ more) e more

/-- The expression is read as the start of a chain whose further rounds are given. -/
def ReadsChain (levels p : Nat) (e : Expr) : Prop :=
  ∀ (d : Nat) (others : List (BinaryOp × Expr)) (mid more : List Token), (e.tokens p).length ≤ d + 1 →
    Ends (p + 1) mid → Repeats (round d levels p) mid others more →
    Accepts (binary (unary (expr d) (d + 1)) (levels + 1) p) (e.tokens p ++ mid)
      (others.foldl (fun left (op, right) => .binary op left right) e) more

theorem ReadsChain.level (h : ReadsChain levels p e) : ReadsLevel (levels + 1) p e := by
  intro d more hd hmore
  exact h d [] more more hd (hmore.mono (Nat.le_succ p)) (.stop (rejects_binaryOp hmore).bind)

theorem ReadsLevel.chain (h : ReadsLevel levels (p + 1) e) (hsame : e.tokens p = e.tokens (p + 1)) :
    ReadsChain levels p e := by
  intro d others mid more hd hmid hothers
  rw [hsame] at hd ⊢
  exact (h d mid hd hmid).bind (hothers.many.bind (accepts_pure _ _))

/-- The left operand is read as the start of a chain, with the operator and the right operand as its next
round. -/
theorem ReadsChain.binary {op : BinaryOp} (hl : ReadsChain levels op.precedence l)
    (hr : ReadsLevel levels (op.precedence + 1) r) :
    ReadsChain levels op.precedence (.binary op l r) := by
  intro d others mid more hd hmid hothers
  rw [Expr.tokens_binary op (Nat.le_refl _), List.length_append, List.length_cons] at hd
  rw [Expr.tokens_binary op (Nat.le_refl _), List.append_assoc, List.cons_append]
  refine hl d ((op, r) :: others) _ more (by omega) (ends_binary op) (.round ?_ ?_ hothers)
  · exact (accepts_binaryOp op _).bind ((hr d mid (by omega) hmid).bind (accepts_pure _ _))
  · rw [List.length_cons, List.length_append]
    omega

/-- From a level downwards, as long as the printer adds no parentheses. -/
theorem ReadsLevel.chain_below {lo q top : Nat} (h : ReadsLevel top q e) (htop : top + q = 7)
    (hsame : ∀ p, lo ≤ p → p < q → e.tokens p = e.tokens (p + 1)) :
    ∀ (n levels p : Nat), p + n + 1 = q → levels + p = 6 → lo ≤ p → ReadsChain levels p e
  | 0, levels, p, hq, hp, hlo => by
      subst hq
      obtain rfl : levels = top := by omega
      exact h.chain (hsame p hlo (Nat.lt_succ_self p))
  | n + 1, levels, p, hq, hp, hlo => by
      obtain ⟨levels, rfl⟩ : ∃ k, levels = k + 1 := ⟨levels - 1, by omega⟩
      -- a level without an operator of its own hands the expression through
      have habove := h.chain_below htop hsame n levels (p + 1) (by omega) (by omega) (by omega)
      exact habove.level.chain (hsame p hlo (by omega))

/-! ## Atoms -/

section Atoms

variable {expr : Rule Expr} {toks mid : List Token}

theorem accepts_ident (x : String) (more : List Token) : Accepts ident (.ident x :: more) x more :=
  accepts_token (by rfl) more

theorem accepts_const (n : Int) : Accepts (atom expr) (.number n :: mid) (.const n) mid :=
  Accepts.orElse (accepts_token (by rfl) mid)

theorem accepts_var {x : String} (hmid : mid.head? ≠ some (.symbol .lparen)) :
    Accepts (atom expr) (.ident x :: mid) (.var x) mid := by
  have hconst : Rejects constant (.ident x :: mid) := rejects_token fun t ht => by cases ht; rfl
  have hcall : Rejects (parens (sepBy expr comma)) mid := rejects_between hmid
  refine hconst.orElse (Accepts.orElse ?_)
  refine (accepts_ident x mid).bind ?_
  exact hcall.optional.bind (accepts_pure _ _)

theorem accepts_call {f : String} {args : List Expr}
    (h : Accepts (sepBy expr comma) toks args (.symbol .rparen :: mid)) :
    Accepts (atom expr) (.ident f :: .symbol .lparen :: toks) (.call f args) mid := by
  have hconst : Rejects constant (.ident f :: .symbol .lparen :: toks) :=
    rejects_token fun t ht => by cases ht; rfl
  refine hconst.orElse (Accepts.orElse ?_)
  refine (accepts_ident f _).bind ?_
  exact h.between.optional.bind (accepts_pure _ _)

theorem accepts_enclosed (h : Accepts expr toks e (.symbol .rparen :: mid)) :
    Accepts (atom expr) (.symbol .lparen :: toks) e mid := by
  have hconst : Rejects constant (.symbol .lparen :: toks) := rejects_token fun t ht => by cases ht; rfl
  have hident : Rejects ident (.symbol .lparen :: toks) := rejects_token fun t ht => by cases ht; rfl
  exact hconst.orElse (hident.bind.orElse h.between)

theorem rejects_typeName (h : ∀ w, toks.head? ≠ some (.typeWord w)) : Rejects typeName toks := by
  refine (rejects_token fun t ht => ?_).bind
  cases t with
  | typeWord w => exact absurd ht (h w)
  | _ => rfl

theorem accepts_typeName : ∀ {t : TypeName}, t ≠ [] → (∀ w, mid.head? ≠ some (.typeWord w)) →
    Accepts typeName (t.map .typeWord ++ mid) t mid
  | [], hne, _ => absurd rfl hne
  | word :: words, _, hmid => by
      have hword : ∀ w more, Accepts typeWord (.typeWord w :: more) w more := fun w more =>
        accepts_token (by rfl) more
      -- the words go on until something else comes
      have hwords : ∀ words : List String, Repeats typeWord (words.map .typeWord ++ mid) words mid := by
        intro words
        induction words with
        | nil =>
            refine .stop (rejects_token fun t ht => ?_)
            cases t with
            | typeWord w => exact absurd ht (hmid w)
            | _ => rfl
        | cons w words ih => exact .round (hword w _) (Nat.lt_succ_self _) ih
      exact (hword word _).bind ((hwords words).many.bind (accepts_pure _ _))

/-- Tokens that are read as an operand without an operator or a cast before it. -/
structure StartsAtom (toks : List Token) : Prop where
  leading : Rejects (unaryOp UnaryOp.leading) toks
  cast : Rejects (parens typeName) toks

theorem StartsAtom.accepts (h : StartsAtom toks) (htrailed : Accepts (trailed expr) toks e mid) (m : Nat) :
    Accepts (unary expr (m + 1)) toks e mid :=
  h.leading.bind.orElse (h.cast.bind.orElse htrailed)

theorem startsAtom_number (n : Int) : StartsAtom (.number n :: toks) :=
  ⟨rejects_leading (by simp), rejects_between (by simp)⟩

theorem startsAtom_ident (x : String) : StartsAtom (.ident x :: toks) :=
  ⟨rejects_leading (by simp), rejects_between (by simp)⟩

/-- An expression in parentheses is no cast. -/
theorem startsAtom_enclosed (he : e.Readable) : StartsAtom (Expr.enclosed (e.tokens 0) ++ toks) := by
  obtain ⟨t, rest, ht, hstart⟩ := he.head_tokens 0
  have htype : ∀ w, (t :: (rest ++ [.symbol .rparen] ++ toks)).head? ≠ some (.typeWord w) := by
    intro w hw
    cases hw
    cases hstart
  rw [ht]
  exact ⟨rejects_leading_lparen, (accepts_symbol _ _).bind_rejects (rejects_typeName htype).bind⟩

theorem startsAtom_tokens (he : e.Readable) (ht : e.isTrailable = true) : StartsAtom (e.tokens 0 ++ toks) := by
  induction he generalizing toks with
  | const hn => exact startsAtom_number _
  | var hx => exact startsAtom_ident _
  | unary op he ih =>
      have hop : op.isLeading = false := Bool.not_eq_true' _ ▸ ht
      rw [Expr.tokens_trailing hop, List.append_assoc]
      split
      · rename_i ht
        exact ih ht
      · exact startsAtom_enclosed he
  | binary op hl hr => cases ht
  | cast ht' he => cases ht
  | call hf hargs => exact startsAtom_ident _

end Atoms

/-! ## Every expression -/

/-- The expression is read with the operators behind it, which are given. -/
def ReadsTrailed (e : Expr) : Prop :=
  ∀ (d : Nat) (ops : List UnaryOp) (mid more : List Token), (e.tokens 0).length ≤ d + 1 →
    mid.head? ≠ some (.symbol .lparen) → Repeats (unaryOp UnaryOp.trailing) mid ops more →
    Accepts (trailed (expr d)) (e.tokens 0 ++ mid) (ops.foldl (fun e op => .unary op e) e) more

/-- What is shown of each expression. -/
structure ReadsBack (e : Expr) : Prop where
  trailed : e.isTrailable = true → ReadsTrailed e
  operand : ReadsOperand e
  chain : ∀ levels p, levels + p = 6 → ReadsChain levels p e

theorem ReadsBack.level (h : ReadsBack e) : ∀ levels p, levels + p = 7 → ReadsLevel levels p e
  | 0, p, hp => by
      obtain rfl : p = 7 := by omega
      exact fun d more hd hmore => h.operand d (d + 1) more hd hd hmore
  | levels + 1, p, hp => (h.chain levels p (by omega)).level

/-- No operator binds looser than the first level. -/
theorem Expr.tokens_zero (e : Expr) : e.tokens 0 = e.tokens 1 := by
  cases e with
  | binary op l r =>
      rw [tokens_binary op (Nat.zero_le _), tokens_binary op (precedence_bounds op).1]
  | _ => simp only [tokens, glyphs]

theorem ReadsLevel.whole (h : ReadsLevel 6 1 e) (he : e.Readable) {d : Nat} (hd : (e.tokens 0).length ≤ d)
    (hmore : Ends 1 more) : Accepts (expr d) (e.tokens 0 ++ more) e more := by
  obtain ⟨t, rest, ht, _⟩ := he.head_tokens 0
  cases d with
  | zero =>
      rw [ht] at hd
      exact absurd hd (Nat.not_succ_le_zero _)
  | succ d =>
      rw [Expr.tokens_zero] at hd ⊢
      exact h d more hd hmore

/-- An expression in parentheses, with the operators behind them. -/
theorem ReadsLevel.enclosed (h : ReadsLevel 6 1 e) (he : e.Readable) {d : Nat} {ops : List UnaryOp}
    {mid : List Token} (hd : (Expr.enclosed (e.tokens 0)).length ≤ d + 1)
    (hops : Repeats (unaryOp UnaryOp.trailing) mid ops more) :
    Accepts (trailed (expr d)) (Expr.enclosed (e.tokens 0) ++ mid)
      (ops.foldl (fun e op => .unary op e) e) more := by
  rw [Expr.length_enclosed] at hd
  have hexpr : Accepts (expr d) (e.tokens 0 ++ .symbol .rparen :: mid) e (.symbol .rparen :: mid) :=
    h.whole he (by omega) ends_rparen
  rw [Expr.enclosed_append]
  exact (accepts_enclosed hexpr).bind (hops.many.bind (accepts_pure _ _))

theorem ReadsOperand.readsBack (h : ReadsOperand e) (htrailed : e.isTrailable = true → ReadsTrailed e)
    (hbinary : ∀ op l r, e ≠ .binary op l r) : ReadsBack e := by
  refine ⟨htrailed, h, fun levels p hp => ?_⟩
  have hlevel : ReadsLevel 0 7 e := fun d more hd hmore => h d (d + 1) more hd hd hmore
  exact hlevel.chain_below rfl (fun p _ _ => Expr.tokens_eq_of_not_binary hbinary p (p + 1)) (6 - p) levels p
    (by omega) hp (Nat.zero_le p)

theorem ReadsTrailed.readsBack (h : ReadsTrailed e) (he : e.Readable) (ht : e.isTrailable = true) :
    ReadsBack e := by
  have hbinary : ∀ op l r, e ≠ .binary op l r := by
    intro op l r heq
    subst heq
    cases ht
  refine ReadsOperand.readsBack (fun d m more hm hd hmore => ?_) (fun _ => h) hbinary
  rw [Expr.tokens_eq_of_not_binary hbinary 7 0] at hm hd ⊢
  obtain ⟨t, rest, heq, _⟩ := he.head_tokens 0
  obtain ⟨m, rfl⟩ : ∃ k, m = k + 1 := ⟨m - 1, by rw [heq, List.length_cons] at hm; omega⟩
  exact (startsAtom_tokens he ht).accepts
    (h d [] more more hd hmore.head_ne_lparen (.stop (rejects_trailing hmore))) m

theorem readsBack_const {n : Int} (h : (Token.number n).Spelled) : ReadsBack (.const n) :=
  ReadsTrailed.readsBack (fun _ _ _ _ _ _ hops => (accepts_const n).bind (hops.many.bind (accepts_pure _ _)))
    (.const h) rfl

theorem readsBack_var {x : String} (h : (Token.ident x).Spelled) : ReadsBack (.var x) :=
  ReadsTrailed.readsBack
    (fun _ _ _ _ _ hmid hops => (accepts_var hmid).bind (hops.many.bind (accepts_pure _ _))) (.var h) rfl

theorem length_le_separated {α : Type} {row : α → List Token} {a : α} :
    ∀ {as : List α}, a ∈ as → (row a).length ≤ (separated row as).length
  | b :: bs, h => by
      rw [separated, List.length_append]
      rcases List.mem_cons.mp h with rfl | h
      · exact Nat.le_add_right _ _
      · have hflat := (List.sublist_flatten_of_mem
          (List.mem_map_of_mem (f := fun a => .symbol .comma :: row a) h)).length_le
        rw [List.length_cons] at hflat
        rw [List.flatMap_def]
        omega

theorem readsBack_call {f : String} {args : List Expr} (hf : (Token.ident f).Spelled)
    (hargs : ∀ a ∈ args, a.Readable) (h : ∀ a ∈ args, ReadsBack a) : ReadsBack (.call f args) := by
  refine ReadsTrailed.readsBack (fun d ops mid more hd _ hops => ?_) (.call hf hargs) rfl
  rw [Expr.tokens_call, List.length_cons, Expr.length_enclosed] at hd
  have hlist : Accepts (sepBy (expr d) comma) (separated (Expr.tokens 0) args ++ .symbol .rparen :: mid) args
      (.symbol .rparen :: mid) := by
    refine accepts_sepBy (fun _ => rejects_expr (fun t ht => by cases ht; rfl) d) (fun a ha rest hrest => ?_)
      (by simp)
    have hlength : (a.tokens 0).length ≤ (separated (Expr.tokens 0) args).length := length_le_separated ha
    refine ((h a ha).level 6 1 rfl).whole (hargs a ha) (by omega) ?_
    -- an argument ends at a comma or at the closing parenthesis
    rcases hrest with hcomma | rfl
    · exact ends_comma hcomma
    · exact ends_rparen
  rw [Expr.tokens_call, List.cons_append, Expr.enclosed_append]
  exact (accepts_call hlist).bind (hops.many.bind (accepts_pure _ _))

/-- The operand of a leading operator is put in parentheses if it has a leading operator of its own. -/
theorem readsBack_leading {op : UnaryOp} (hop : op.isLeading = true) (he : e.Readable) (h : ReadsBack e) :
    ReadsBack (.unary op e) := by
  have htrailable : (Expr.unary op e).isTrailable = true → ReadsTrailed (.unary op e) := by
    intro ht
    rw [Expr.isTrailable, hop] at ht
    cases ht
  refine ReadsOperand.readsBack (fun d m more hm hd hmore => ?_) htrailable (by simp)
  rw [Expr.tokens_leading hop, List.length_cons] at hm hd
  obtain ⟨m, rfl⟩ : ∃ k, m = k + 1 := ⟨m - 1, by omega⟩
  rw [Expr.tokens_leading hop, List.cons_append]
  refine Accepts.orElse ((accepts_leading hop _).bind (Accepts.bind ?_ (accepts_pure _ _)))
  split
  · -- in parentheses the operand is an atom
    rename_i hlead
    rw [if_pos hlead] at hm hd
    rw [Expr.length_enclosed] at hm
    obtain ⟨m, rfl⟩ : ∃ k, m = k + 1 := ⟨m - 1, by omega⟩
    exact (startsAtom_enclosed he).accepts ((h.level 6 1 rfl).enclosed he (by omega)
      (.stop (rejects_trailing hmore))) m
  · rename_i hlead
    rw [if_neg hlead] at hm hd
    exact h.operand d m more (by omega) (by omega) hmore

theorem readsBack_trailing {op : UnaryOp} (hop : op.isLeading = false) (he : e.Readable) (h : ReadsBack e) :
    ReadsBack (.unary op e) := by
  have ht : (Expr.unary op e).isTrailable = true := by rw [Expr.isTrailable, hop]; rfl
  refine ReadsTrailed.readsBack (fun d ops mid more hd hmid hops => ?_) (.unary op he) ht
  rw [Expr.tokens_trailing hop, List.length_append] at hd
  rw [Expr.tokens_trailing hop, List.append_assoc]
  -- the operator is one more of those behind the operand
  have hround : Repeats (unaryOp UnaryOp.trailing) (.symbol op.symbol :: mid) (op :: ops) more :=
    .round (accepts_trailing hop mid) (Nat.lt_succ_self _) hops
  have hsymbol : (Token.symbol op.symbol :: mid).head? ≠ some (.symbol .lparen) := by
    cases op <;> simp [UnaryOp.symbol]
  split
  · rename_i ht
    rw [if_pos ht] at hd
    exact h.trailed ht d (op :: ops) _ more (by omega) hsymbol hround
  · -- behind parentheses the operator is read as behind an atom
    rename_i ht
    rw [if_neg ht] at hd
    exact (h.level 6 1 rfl).enclosed he (by omega) hround

theorem readsBack_cast {t : TypeName} (ht : t.Readable) (h : ReadsBack e) :
    ReadsBack (.cast t e) := by
  refine ReadsOperand.readsBack (fun d m more hm hd hmore => ?_) (fun h => nomatch h) (by simp)
  rw [Expr.tokens_cast, List.length_append, Expr.length_enclosed] at hm hd
  obtain ⟨m, rfl⟩ : ∃ k, m = k + 1 := ⟨m - 1, by omega⟩
  rw [Expr.tokens_cast, List.append_assoc, Expr.enclosed_append]
  have htype : Accepts typeName (t.map .typeWord ++ .symbol .rparen :: (e.tokens 7 ++ more)) t
      (.symbol .rparen :: (e.tokens 7 ++ more)) :=
    accepts_typeName ht.1 (by simp)
  refine rejects_leading_lparen.bind.orElse (Accepts.orElse (htype.between.bind ?_))
  exact (h.operand d m more (by omega) (by omega) hmore).bind (accepts_pure _ _)

theorem readsBack_binary {op : BinaryOp} (hl : l.Readable) (hr : r.Readable) (ihl : ReadsBack l)
    (ihr : ReadsBack r) : ReadsBack (.binary op l r) := by
  obtain ⟨hlow, hhigh⟩ := Expr.precedence_bounds op
  have he : (Expr.binary op l r).Readable := .binary op hl hr
  -- without parentheses up to the level of the operator
  have hown : ReadsChain (6 - op.precedence) op.precedence (.binary op l r) :=
    (ihl.chain _ _ (by omega)).binary (ihr.level _ _ (by omega))
  have hbelow : ∀ levels p, levels + p = 6 → p ≤ op.precedence → ReadsChain levels p (.binary op l r) := by
    intro levels p hp hle
    rcases Nat.eq_or_lt_of_le hle with rfl | hlt
    · obtain rfl : levels = 6 - op.precedence := by omega
      exact hown
    · refine hown.level.chain_below (by omega) (fun p _ hlt => ?_) (op.precedence - 1 - p) levels p
        (by omega) hp (Nat.zero_le p)
      rw [Expr.tokens_binary op (by omega), Expr.tokens_binary op (by omega)]
  have hwhole : ReadsLevel 6 1 (.binary op l r) := (hbelow 5 1 rfl hlow).level
  -- in parentheses above it
  have hoperand : ReadsOperand (.binary op l r) := by
    intro d m more hm hd hmore
    rw [Expr.tokens_binary_enclosed op (by omega), Expr.length_enclosed] at hm
    rw [Expr.tokens_binary_enclosed op (by omega)] at hd ⊢
    obtain ⟨m, rfl⟩ : ∃ k, m = k + 1 := ⟨m - 1, by omega⟩
    exact (startsAtom_enclosed he).accepts (hwhole.enclosed he hd (.stop (rejects_trailing hmore))) m
  have habove : ReadsLevel 0 7 (.binary op l r) :=
    fun d more hd hmore => hoperand d (d + 1) more hd hd hmore
  refine ⟨(fun h => nomatch h), hoperand, fun levels p hp => ?_⟩
  rcases Nat.lt_or_ge op.precedence p with hlt | hle
  · refine habove.chain_below rfl (fun p hlo _ => ?_) (6 - p) levels p (by omega) hp hlt
    exact (Expr.tokens_binary_enclosed op hlo).trans
      (Expr.tokens_binary_enclosed op (Nat.lt_succ_of_lt hlo)).symm
  · exact hbelow levels p hp hle

theorem Expr.Readable.readsBack (h : e.Readable) : ReadsBack e := by
  induction h with
  | const hn => exact readsBack_const hn
  | var hx => exact readsBack_var hx
  | unary op he ih =>
      cases hop : op.isLeading with
      | true => exact readsBack_leading hop he ih
      | false => exact readsBack_trailing hop he ih
  | binary op hl hr ihl ihr => exact readsBack_binary hl hr ihl ihr
  | cast ht he ih => exact readsBack_cast ht ih
  | call hf hargs ih => exact readsBack_call hf hargs ih

/-- **A printed expression is read back**, before anything that does not go on with it. -/
theorem Expr.Readable.accepts (h : e.Readable) {d : Nat} (hd : (e.tokens 0).length ≤ d) (hmore : Ends 1 more) :
    Accepts (expr d) (e.tokens 0 ++ more) e more :=
  (h.readsBack.level 6 1 rfl).whole h hd hmore

end GrowthFlow.Lang
