import GrowthFlow.Proofs.Agreement
import GrowthFlow.Proofs.PrintedRows

/-!
# What the grammar reads

Every function that the grammar reads from lexemes is `Readable`. Most of this is plain from the rules. The
exception is the clause on `else`: the first half of a branch with an `else` does not end in a branch
without one.

A branch without an `else` was read because at the place behind it no `else` with a statement could be read.
The branch around it tries just that again, at the same place but at a greater depth. So the attempt must
fail there too, and this is where the depth must not matter: all depths that cover the lexemes give the same
reply. `ElseFails` carries the failure from one attempt to the other.
-/

namespace GrowthFlow.Lang

open Rule

theorem Stmt.isHeader_of_simple {init : List Stmt} (h : init.all isSimple = true) :
    isHeader init = true := by
  unfold isHeader
  split
  · rfl
  · exact h

namespace Grammar

variable {n d d' : Nat} {e e' : Rule Expr} {s s' : Rule Stmt}

/-! ## Expressions -/

theorem agree_ident : Agree n 1 ident ident (fun x _ => (Token.ident x).Spelled) := by
  refine agree_token fun t x ht hx => ?_
  cases t with
  | ident y => cases hx; exact ht
  | _ => cases hx

theorem agree_typeName : Agree n 1 typeName typeName (fun t _ => t.Readable) := by
  have hword : Agree n 1 typeWord typeWord (fun word _ => word ∈ typeWords) := by
    refine agree_token fun t x ht hx => ?_
    cases t with
    | typeWord y => cases hx; exact ht
    | _ => cases hx
  exact hword.many1

theorem agree_constant : Agree n 1 constant constant (fun e _ => e.Readable) := by
  refine agree_token fun t x ht hx => ?_
  cases t with
  | number k => cases hx; exact .const ht
  | _ => cases hx

theorem readable_foldl_unary {e : Expr} (he : e.Readable) (ops : List UnaryOp) :
    (ops.foldl (fun e op => .unary op e) e).Readable := by
  induction ops generalizing e with
  | nil => exact he
  | cons op ops ih => exact ih (.unary op he)

theorem readable_foldl_binary {left : Expr} (hl : left.Readable) (others : List (BinaryOp × Expr))
    (ho : ∀ o ∈ others, o.2.Readable) :
    (others.foldl (fun left (op, right) => .binary op left right) left).Readable := by
  induction others generalizing left with
  | nil => exact hl
  | cons o others ih =>
      exact ih (.binary o.1 hl (ho o List.mem_cons_self)) fun o ho' => ho o (List.mem_cons_of_mem _ ho')

section

variable (he : Agree n 1 e e' (fun e _ => e.Readable))
include he

theorem agree_varOrCall : Agree (n + 1) 1 (varOrCall e) (varOrCall e') (fun e _ => e.Readable) := by
  have hargs := he.behind.sepBy (x := .comma)
  unfold varOrCall
  refine agree_ident.seq fun x _ hx => (Agree.between hargs).optional.bind fun args _ hargs => ?_
  cases args with
  | none => exact agree_pure fun _ => .var hx
  | some args => exact agree_pure fun _ => .call hx (hargs args rfl)

theorem agree_atom : Agree (n + 1) 1 (atom e) (atom e') (fun e _ => e.Readable) :=
  agree_constant.orElse ((agree_varOrCall he).orElse (Agree.between he))

theorem agree_trailed : Agree (n + 1) 1 (trailed e) (trailed e') (fun e _ => e.Readable) := by
  unfold trailed
  refine (agree_atom he).seq fun a _ ha => ?_
  exact (agree_oneOf _).many.map fun ops _ _ => readable_foldl_unary ha ops

theorem agree_unary : ∀ {m d d' : Nat}, m ≤ n + 1 → m ≤ d → m ≤ d' →
    Agree m 1 (unary e d) (unary e' d') (fun e _ => e.Readable)
  | 0, _, _, _, _, _ => agree_zero
  | m + 1, d + 1, d' + 1, hm, hd, hd' => by
      have hinner := agree_unary (Nat.le_of_succ_le hm) (Nat.le_of_succ_le_succ hd)
        (Nat.le_of_succ_le_succ hd')
      have htype : Agree (m + 1) 1 (parens typeName) (parens typeName) (fun t _ => t.Readable) :=
        Agree.between agree_typeName
      -- an operator or a cast takes at least one lexeme before the operand is read
      unfold unary
      refine Agree.orElse ?_ (Agree.orElse ?_ ?_)
      · exact (agree_oneOf _).seq fun op _ _ => hinner.lax.map fun a _ ha => .unary op ha
      · exact htype.seq fun t _ ht => hinner.lax.map fun a _ ha => .cast ht ha
      · exact (agree_trailed he).mono hm (Nat.le_refl 1) fun _ _ ha => ha

theorem agree_chain (ops : List BinaryOp) :
    Agree n 1 (chain ops e) (chain ops e') (fun e _ => e.Readable) := by
  have hmore : Agree (n - 1) 0 (do let op ← binaryOp ops; return (op, ← e))
      (do let op ← binaryOp ops; return (op, ← e')) (fun o _ => o.2.Readable) :=
    (agree_oneOf _).lax.bind fun op _ _ => he.behind.lax.map fun _ _ hb => hb
  unfold chain
  exact he.seq fun a _ ha => hmore.many.map fun others _ ho => readable_foldl_binary ha others ho

theorem agree_binary : ∀ levels strength,
    Agree n 1 (binary e levels strength) (binary e' levels strength) (fun e _ => e.Readable)
  | 0, _ => he
  | levels + 1, strength => agree_chain (agree_binary levels (strength + 1)) _

end

/-- An expression is readable, and it is the same one at all depths that cover the lexemes. -/
theorem agree_expr : ∀ {n d d' : Nat}, n ≤ d → n ≤ d' →
    Agree n 1 (expr d) (expr d') (fun e _ => e.Readable)
  | 0, _, _, _, _ => agree_zero
  | n + 1, d + 1, d' + 1, hd, hd' => by
      have hinner := agree_expr (Nat.le_of_succ_le_succ hd) (Nat.le_of_succ_le_succ hd')
      exact agree_binary (agree_unary hinner (Nat.le_refl _) hd hd') 6 1

/-! ## Simple statements and declarations -/

section

variable (he : Agree n 1 e e' (fun e _ => e.Readable))
include he

theorem agree_assignment :
    Agree n 1 (assignment e) (assignment e') (fun s _ => s.Readable ∧ s.isSimple = true) := by
  unfold assignment
  refine agree_ident.seq fun x _ hx => (agree_oneOf _).lax.bind fun op _ _ => ?_
  refine he.behind.lax.bind fun v _ hv => ?_
  cases op with
  | none => exact agree_pure fun _ => ⟨.assign hx hv, rfl⟩
  | some op => exact agree_pure fun _ => ⟨.assign hx (.binary op (.var hx) hv), rfl⟩

theorem agree_simple :
    Agree n 1 (simple e) (simple e') (fun s _ => s.Readable ∧ s.isSimple = true) :=
  (agree_assignment he).orElse (he.map fun _ _ hv => ⟨.expr hv, rfl⟩)

theorem agree_simpleList :
    Agree n 0 (simpleList e) (simpleList e')
      (fun init _ => ∀ s ∈ init, s.Readable ∧ s.isSimple = true) :=
  (agree_simple he).sepBy

theorem agree_declarator :
    Agree n 1 (declarator e) (declarator e') (fun d _ => d.Readable) := by
  have hinit : Agree (n - 1) 0 (do symbol .assign; e) (do symbol .assign; e') (fun e _ => e.Readable) :=
    (agree_symbol _).lax.bind fun _ _ _ => he.behind.lax
  unfold declarator
  exact agree_ident.seq fun x _ hx => hinit.optional.map fun _ _ hv => ⟨hx, hv⟩

theorem agree_declaration :
    Agree n 1 (declaration e) (declaration e')
      (fun s _ => s.Readable ∧ ∃ t vars, s = .decl t vars) := by
  have hvars := (agree_declarator he).behind.sepBy1 (x := .comma)
  unfold declaration
  refine agree_typeName.seq fun t _ ht => hvars.lax.map fun vars _ hvars => ?_
  exact ⟨.decl ht hvars.1 hvars.2, t, vars, rfl⟩

theorem agree_forInit :
    Agree n 0 (forInit e) (forInit e')
      (fun init _ => (∀ s ∈ init, s.Readable) ∧ Stmt.isHeader init = true) := by
  refine Agree.orElse ?_ ?_
  · refine (agree_declaration he).lax.map fun s _ hs => ?_
    obtain ⟨hread, t, vars, rfl⟩ := hs
    exact ⟨List.forall_mem_singleton.2 hread, rfl⟩
  · refine (agree_simpleList he).mono (Nat.le_refl n) (Nat.le_refl 0) fun init _ hinit => ?_
    exact ⟨fun s hs => (hinit s hs).1, Stmt.isHeader_of_simple (List.all_eq_true.2 fun s hs => (hinit s hs).2)⟩

end

/-! ## Statements -/

/-- No `else` with a statement can be read here, at any depth that covers the lexemes. -/
def ElseFails (rest : List Lexeme) : Prop :=
  ∀ d, rest.length ≤ d → ∃ fault, (do keyword .elseWord; stmt d) rest = .fail fault

/-- A statement read before `rest`: if it would take an `else`, there is none to take. -/
def Settled (s : Stmt) (rest : List Lexeme) : Prop := s.Readable ∧ (s.isOpen = true → ElseFails rest)

theorem settled_of_closed {s : Stmt} {rest : List Lexeme} (hs : s.Readable) (hclosed : s.isOpen = false) :
    Settled s rest :=
  ⟨hs, fun hopen => absurd hopen (by rw [hclosed]; decide)⟩

theorem agree_body (hs : Agree n 1 s s' Settled) : Agree n 1 s s' (fun s _ => s.Readable) :=
  hs.mono (Nat.le_refl n) (Nat.le_refl 1) fun _ _ h => h.1

theorem agree_block (hs : Agree (n - 1) 1 s s' Settled) : Agree n 1 (block s) (block s') Settled := by
  have hbody : Agree n 1 (braces (many s)) (braces (many s')) (fun body _ => ∀ s ∈ body, s.Readable) :=
    Agree.between (agree_body hs).many
  unfold block
  exact hbody.map fun body _ hbody => settled_of_closed (.block hbody) rfl

theorem agree_parens (he : Agree n 1 e e' (fun e _ => e.Readable)) :
    Agree n 0 (parens e) (parens e') (fun e _ => e.Readable) := (Agree.between he.behind).lax

theorem agree_whileLoop (he : Agree n 1 e e' (fun e _ => e.Readable)) (hs : Agree (n - 1) 1 s s' Settled) :
    Agree n 1 (whileLoop e s) (whileLoop e' s') Settled := by
  unfold whileLoop
  refine (agree_keyword _).seq fun _ _ _ => (agree_parens he.behind).bind fun c _ hc => ?_
  exact hs.lax.map fun body _ hbody => ⟨.whileLoop hc hbody.1, hbody.2⟩

theorem agree_doWhile (he : Agree n 1 e e' (fun e _ => e.Readable)) (hs : Agree (n - 1) 1 s s' Settled) :
    Agree n 1 (doWhile e s) (doWhile e' s') Settled := by
  unfold doWhile
  refine (agree_keyword _).seq fun _ _ _ => (agree_body hs).lax.bind fun body _ hbody => ?_
  refine (agree_keyword _).lax.bind fun _ _ _ => (agree_parens he.behind).bind fun c _ hc => ?_
  exact (agree_symbol _).lax.map fun _ _ _ => settled_of_closed (.doWhile hbody hc) rfl

theorem agree_forLoop (he : Agree n 1 e e' (fun e _ => e.Readable)) (hs : Agree (n - 1) 1 s s' Settled) :
    Agree n 1 (forLoop e s) (forLoop e' s') Settled := by
  have he := he.behind.behind
  unfold forLoop
  refine (agree_keyword _).seq fun _ _ _ => ?_
  -- the three parts of the header, each as a `for` loop needs it
  refine Agree.bind (P := fun header _ => ((∀ s ∈ header.1, s.Readable) ∧ Stmt.isHeader header.1 = true) ∧
    (∀ c ∈ header.2.1, c.Readable) ∧ ∀ s ∈ header.2.2, s.Readable ∧ s.isSimple = true)
    (Agree.lax (Agree.between (k := 0) ?_)) fun header _ hheader => ?_
  · refine (agree_forInit he).bind fun init _ hinit => (agree_symbol _).lax.bind fun _ _ _ => ?_
    refine he.optional.bind fun c _ hc => (agree_symbol _).lax.bind fun _ _ _ => ?_
    exact (agree_simpleList he).map fun step _ hstep => ⟨hinit, hc, hstep⟩
  · obtain ⟨hinit, hc, hstep⟩ := hheader
    refine hs.lax.map fun body _ hbody => ⟨?_, hbody.2⟩
    exact .forLoop hinit.1 hinit.2 hc (fun s hs => (hstep s hs).1)
      (List.all_eq_true.2 fun s hs => (hstep s hs).2) hbody.1

theorem agree_returnStmt (he : Agree n 1 e e' (fun e _ => e.Readable)) :
    Agree n 1 (returnStmt e) (returnStmt e') Settled := by
  unfold returnStmt
  refine (agree_keyword _).seq fun _ _ _ => he.behind.optional.bind fun v _ hv => ?_
  exact (agree_symbol _).lax.map fun _ _ _ => settled_of_closed (.ret hv) rfl

theorem agree_jump {x : Stmt} (k : Keyword) (hx : x.Readable) (hclosed : x.isOpen = false) :
    Agree n 1 (jump k x) (jump k x) Settled := by
  unfold jump
  refine (agree_keyword k).seq fun _ _ _ => ?_
  exact (agree_symbol _).lax.map fun _ _ _ => settled_of_closed hx hclosed

theorem agree_ended {k : Nat} {P : Stmt → Prop} (h : Agree n k s s' (fun s _ => P s))
    (hP : ∀ s, P s → s.Readable ∧ s.isOpen = false) : Agree n 1 (ended s) (ended s') Settled := by
  unfold ended
  refine h.lax.bind fun x _ hx => (agree_symbol _).map fun _ _ _ => ?_
  exact settled_of_closed (hP x hx).1 (hP x hx).2

theorem agree_else (h : Agree n 1 (stmt d) (stmt d') Settled) :
    Agree (n + 1) 1 (do keyword .elseWord; stmt d) (do keyword .elseWord; stmt d') Settled :=
  (agree_keyword _).seq fun _ _ _ => h.lax

theorem agree_branch (he : Agree (n + 1) 1 e e' (fun e _ => e.Readable)) (hd : n ≤ d) (hd' : n ≤ d')
    (hstmt : ∀ {m d d'}, m ≤ n → m ≤ d → m ≤ d' → Agree m 1 (stmt d) (stmt d') Settled) :
    Agree (n + 1) 1 (branch e (stmt d)) (branch e' (stmt d')) Settled := by
  unfold branch
  refine (agree_keyword _).seq fun _ _ _ => (agree_parens he.behind).bind fun c _ hc => ?_
  intro ts hts
  refine AgreeAt.bind (j := 0) ((hstmt (Nat.le_refl n) hd hd').lax ts hts)
    fun yes mid hsuffix hlength hyes => ?_
  have hmid : Short n mid := hts.rest hsuffix hlength
  have helse := agree_else (hstmt (Nat.le_refl n) hd hd') mid (hmid.mono (Nat.le_succ n))
  refine helse.optional.bind fun no rest _ _ hno => agreeAt_pure ?_
  obtain ⟨hno, hfails, hstays⟩ := hno
  cases no with
  | some no =>
      obtain ⟨hread, hopen⟩ := hno no rfl
      refine ⟨.branch hc hyes.1 (fun s hs => ?_) fun _ => ?_, hopen⟩
      · cases hs
        exact hread
      · -- an open first half has found no `else` here, but there is one
        cases hyesOpen : yes.isOpen with
        | false => rfl
        | true => exact nomatch hfails.1 (hyes.2 hyesOpen d (Nat.le_trans (Nat.le_of_lt hmid.length) hd))
  | none =>
      obtain ⟨fault, hfault⟩ := hfails.2 rfl
      obtain rfl := hstays rfl
      refine ⟨.branch hc hyes.1 (fun s hs => nomatch hs) (fun hsome => nomatch hsome),
        fun _ d₁ hd₁ => ?_⟩
      -- the attempt that failed here fails at the other depth as well
      have hn := Nat.le_of_lt hmid.length
      have hagree := agree_else (hstmt hn (Nat.le_trans hn hd) hd₁) rest ⟨Nat.lt_succ_self _, hmid.spelled⟩
      exact ⟨fault, hagree.same ▸ hfault⟩

theorem isOpen_of_isSimple {x : Stmt} (h : x.isSimple = true) : x.isOpen = false := by
  cases x with
  | assign | expr => rfl
  | _ => cases h

/-- A statement is settled, and it is the same one at all depths that cover the lexemes. -/
theorem agree_stmt {n d d' : Nat} (hd : n ≤ d) (hd' : n ≤ d') :
    Agree n 1 (stmt d) (stmt d') Settled := by
  -- not a plain induction: `ElseFails` also compares depths that cover only what is left
  induction n using Nat.strong_induction_on generalizing d d' with
  | _ n ih =>
    match n, d, d', hd, hd' with
    | 0, _, _, _, _ => exact agree_zero
    | n + 1, d + 1, d' + 1, hd, hd' =>
        have hlow := Nat.le_of_succ_le_succ hd
        have hlow' := Nat.le_of_succ_le_succ hd'
        have he := agree_expr hd hd'
        have hs : Agree (n + 1 - 1) 1 (stmt d) (stmt d') Settled := ih n (Nat.lt_succ_self n) hlow hlow'
        have hbranch := agree_branch he hlow hlow' fun hm => ih _ (Nat.lt_succ_of_le hm)
        unfold stmt
        refine (agree_block hs).orElse (hbranch.orElse ((agree_whileLoop he hs).orElse
          ((agree_doWhile he hs).orElse ((agree_forLoop he hs).orElse ((agree_returnStmt he).orElse
          ((agree_jump _ .breakJump rfl).orElse ((agree_jump _ .continueJump rfl).orElse
          (Agree.orElse ?_ (Agree.orElse ?_ ?_)))))))))
        · exact agree_ended (P := (· = .empty)) (agree_pure fun _ => rfl) fun s hs => hs ▸ ⟨.empty, rfl⟩
        · refine agree_ended (agree_declaration he) fun s hs => ⟨hs.1, ?_⟩
          obtain ⟨t, vars, rfl⟩ := hs.2
          rfl
        · exact agree_ended (agree_simple he) fun s hs => ⟨hs.1, isOpen_of_isSimple hs.2⟩

/-! ## The top level -/

theorem agree_param :
    Agree n 1 param param (fun p? _ => ∀ p ∈ p?, p.type.Readable ∧ (Token.ident p.name).Spelled) := by
  unfold param
  refine agree_typeName.seq fun t _ ht => agree_ident.optional.map fun x _ hx p hp => ?_
  obtain ⟨x, rfl, rfl⟩ := Option.map_eq_some_iff.1 hp
  exact ⟨ht, hx x rfl⟩

theorem agree_function (hd : n ≤ d + 1) (hd' : n ≤ d' + 1) :
    Agree n 1 (function d) (function d') (fun f? _ => ∀ f ∈ f?, f.Readable) := by
  have hdepth : n - 1 - 1 ≤ d := by omega
  have hdepth' : n - 1 - 1 ≤ d' := by omega
  have hparams : Agree (n - 1) 0 (parens (sepBy param comma)) (parens (sepBy param comma))
      (fun params _ => ∀ p? ∈ params, ∀ p ∈ p?, p.type.Readable ∧ (Token.ident p.name).Spelled) :=
    (Agree.between agree_param.sepBy).lax
  have hbraces : Agree (n - 1) 0 (braces (many (stmt d))) (braces (many (stmt d')))
      (fun body _ => ∀ s ∈ body, s.Readable) :=
    (Agree.between (agree_body (agree_stmt hdepth hdepth')).many).lax
  unfold function
  refine agree_typeName.seq fun returns _ hreturns => agree_ident.lax.bind fun name _ hname => ?_
  refine hparams.bind fun params _ hparams => ?_
  refine Agree.map (P := fun body? _ => ∀ body ∈ body?, ∀ s ∈ body, s.Readable) (Agree.orElse ?_ ?_)
    fun body? _ hbody f hf => ?_
  · exact hbraces.map fun body _ hbody b hb => Option.some.inj hb ▸ hbody
  · exact (agree_symbol _).lax.map fun _ _ _ body hb => nomatch hb
  · obtain ⟨body, rfl, rfl⟩ := Option.map_eq_some_iff.1 hf
    refine ⟨hreturns, hname, fun p hp => ?_, hbody body rfl⟩
    obtain ⟨p?, hp?, hp⟩ := List.mem_filterMap.1 hp
    exact hparams p? hp? p hp

theorem agree_item (hd : n ≤ d + 1) :
    Agree n 1 (item d) (item d) (fun x? _ => ∀ x ∈ x?, x.function.Readable) := by
  have hdepth : n - 1 ≤ d := by omega
  refine Agree.orElse ?_ ?_
  · refine (agree_function hd hd).withSpan.map fun found _ hfound x hx => ?_
    obtain ⟨f, hf, rfl⟩ := Option.map_eq_some_iff.1 hx
    exact hfound f hf
  · unfold globalDecl
    refine agree_typeName.seq fun _ _ _ => ?_
    refine (agree_declarator (agree_expr hdepth hdepth)).sepBy1.lax.bind fun _ _ _ => ?_
    exact (agree_symbol _).lax.map fun _ _ _ x hx => nomatch hx

end Grammar

/-- The definitions of a program are those among the items of the top level. -/
theorem Program.exists_of_ofLexemes {ts : List Lexeme} {p : Program} (h : Program.ofLexemes ts = .ok p) :
    ∃ items rest hint, many (Grammar.item ts.length) ts = .ok items rest hint ∧ p = ⟨items.filterMap id⟩ := by
  unfold Program.ofLexemes at h
  cases hread : Grammar.program ts.length ts with
  | fail fault => rw [hread] at h; cases h
  | ok q rest hint =>
      rw [hread] at h
      cases h
      obtain ⟨items, mid, first, _, hitems, hdone⟩ := exists_of_bind hread
      obtain ⟨_, _, _, _, _, hpure⟩ := exists_of_bind hdone
      cases hpure
      exact ⟨items, mid, first, hitems, rfl⟩

/-- Every function of a program that was read is readable. -/
theorem Program.readable_of_ofLexemes {ts : List Lexeme} {p : Program} (h : Program.ofLexemes ts = .ok p)
    (hts : ∀ l ∈ ts, l.token.Spelled) : ∀ f ∈ p.functions, f.Readable := by
  obtain ⟨items, _, _, hitems, rfl⟩ := exists_of_ofLexemes h
  have hagree := (Grammar.agree_item (Nat.le_refl (ts.length + 1))).many ts ⟨Nat.lt_succ_self _, hts⟩
  obtain ⟨_, _, hall⟩ := hagree.read hitems
  intro f hf
  obtain ⟨x, hx, rfl⟩ := List.mem_map.1 hf
  obtain ⟨x?, hx?, hx⟩ := List.mem_filterMap.1 hx
  exact hall x? hx? x hx

end GrowthFlow.Lang
