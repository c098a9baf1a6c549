import GrowthFlow.Lang.Grammar

/-!
# What a rule reads

A rule is given lexemes and answers with lexemes, but except for the place of a function and of a fault only
their tokens matter. `Accepts r toks a more` says that on any lexemes with the tokens `toks` the rule `r`
reads `a` and leaves lexemes with the tokens `more`; `Rejects r toks` says that it fails on all of them.

Each combinator has its laws for the two. An alternative is taken only where the ones before it are
rejected, so both judgements are needed to say what a choice reads. A repetition ends at the first place
where its rule is rejected; `Repeats` follows it there, and as every round reads a token, `many` goes far
enough.
-/

namespace GrowthFlow.Lang.Rule

variable {α β : Type} {r s : Rule α} {f : α → Rule β} {a : α} {b : β} {toks mid more : List Token}

/-- On lexemes with the tokens `toks` the rule reads `a` and leaves the tokens `more`. -/
def Accepts (r : Rule α) (toks : List Token) (a : α) (more : List Token) : Prop :=
  ∀ ts : List Lexeme, ts.map (·.token) = toks →
    ∃ rest hint, r ts = .ok a rest hint ∧ rest.map (·.token) = more

/-- On lexemes with the tokens `toks` the rule fails. -/
def Rejects (r : Rule α) (toks : List Token) : Prop :=
  ∀ ts : List Lexeme, ts.map (·.token) = toks → ∃ fault, r ts = .fail fault

/-! ## Sequence and choice -/

theorem bind_of_ok {ts mid rest : List Lexeme} {hint hint' : Option Fault} (h : r ts = .ok a mid hint)
    (hf : f a mid = .ok b rest hint') : (r >>= f) ts = .ok b rest (Fault.joinOpt hint hint') := by
  show Rule.bind r f ts = _
  unfold Rule.bind
  simp only [h, hf]

theorem bind_of_fail {ts : List Lexeme} {fault : Fault} (h : r ts = .fail fault) :
    (r >>= f) ts = .fail fault := by
  show Rule.bind r f ts = _
  unfold Rule.bind
  simp only [h]

theorem accepts_pure (a : α) (toks : List Token) : Accepts (pure a) toks a toks :=
  fun ts hts => ⟨ts, none, rfl, hts⟩

theorem Accepts.bind (h : Accepts r toks a mid) (hf : Accepts (f a) mid b more) :
    Accepts (r >>= f) toks b more := by
  intro ts hts
  obtain ⟨us, hint, hr, hus⟩ := h ts hts
  obtain ⟨rest, hint', hfa, hrest⟩ := hf us hus
  exact ⟨rest, _, bind_of_ok hr hfa, hrest⟩

theorem Rejects.bind (h : Rejects r toks) : Rejects (r >>= f) toks := by
  intro ts hts
  obtain ⟨fault, hr⟩ := h ts hts
  exact ⟨fault, bind_of_fail hr⟩

theorem Accepts.bind_rejects (h : Accepts r toks a mid) (hf : Rejects (f a) mid) :
    Rejects (r >>= f) toks := by
  intro ts hts
  obtain ⟨us, hint, hr, hus⟩ := h ts hts
  obtain ⟨fault, hfa⟩ := hf us hus
  refine ⟨(hint.map fault.join).getD fault, ?_⟩
  show Rule.bind r f ts = _
  unfold Rule.bind
  simp only [hr, hfa]

theorem orElse_of_ok {ts rest : List Lexeme} {hint : Option Fault} (h : r ts = .ok a rest hint) :
    (r <|> s) ts = .ok a rest hint := by
  show Rule.orElse r (fun _ => s) ts = _
  unfold Rule.orElse
  simp only [h]

theorem Accepts.orElse (h : Accepts r toks a more) : Accepts (r <|> s) toks a more := by
  intro ts hts
  obtain ⟨rest, hint, hr, hrest⟩ := h ts hts
  exact ⟨rest, hint, orElse_of_ok hr, hrest⟩

theorem Rejects.orElse (h : Rejects r toks) (hs : Accepts s toks a more) :
    Accepts (r <|> s) toks a more := by
  intro ts hts
  obtain ⟨fault, hr⟩ := h ts hts
  obtain ⟨rest, hint, hs, hrest⟩ := hs ts hts
  refine ⟨rest, hint, ?_, hrest⟩
  show Rule.orElse r (fun _ => s) ts = _
  unfold Rule.orElse
  simp only [hr, hs]

theorem Rejects.orElse_rejects (h : Rejects r toks) (hs : Rejects s toks) : Rejects (r <|> s) toks := by
  intro ts hts
  obtain ⟨fault, hr⟩ := h ts hts
  obtain ⟨fault', hs⟩ := hs ts hts
  refine ⟨fault.join fault', ?_⟩
  show Rule.orElse r (fun _ => s) ts = _
  unfold Rule.orElse
  simp only [hr, hs]

theorem rejects_fail (toks : List Token) : Rejects (fail : Rule α) toks :=
  fun ts _ => ⟨Fault.atFront ts [], rfl⟩

/-! ## Single tokens -/

theorem accepts_token {g : Token → Option α} {t : Token} (h : g t = some a) (more : List Token) :
    Accepts (token g) (t :: more) a more := by
  intro ts hts
  obtain ⟨l, rest, rfl, rfl, hrest⟩ := List.map_eq_cons_iff.mp hts
  refine ⟨rest, none, ?_, hrest⟩
  unfold token
  simp only [h]

theorem rejects_token {g : Token → Option α} (h : ∀ t ∈ toks.head?, g t = none) :
    Rejects (token g) toks := by
  intro ts hts
  cases ts with
  | nil => exact ⟨_, rfl⟩
  | cons l ts =>
      subst hts
      have hnone : g l.token = none := h l.token rfl
      refine ⟨Fault.atFront (l :: ts) [], ?_⟩
      unfold token
      simp only [hnone]

theorem accepts_oneOf {table : List (Token × α)} {t : Token} (h : table.lookup t = some a)
    (more : List Token) : Accepts (oneOf table) (t :: more) a more := by
  intro ts hts
  obtain ⟨l, rest, rfl, rfl, hrest⟩ := List.map_eq_cons_iff.mp hts
  refine ⟨rest, none, ?_, hrest⟩
  unfold oneOf
  simp only [h]

theorem rejects_oneOf {table : List (Token × α)} (h : ∀ t ∈ toks.head?, table.lookup t = none) :
    Rejects (oneOf table) toks := by
  intro ts hts
  cases ts with
  | nil => exact ⟨_, rfl⟩
  | cons l ts =>
      subst hts
      have hnone : table.lookup l.token = none := h l.token rfl
      refine ⟨Fault.atFront (l :: ts) (table.map (·.1)), ?_⟩
      unfold oneOf
      simp only [hnone]

theorem accepts_exactly (t : Token) (more : List Token) : Accepts (exactly t) (t :: more) () more :=
  accepts_oneOf (List.lookup_cons_self ..) more

theorem rejects_exactly {t : Token} (h : toks.head? ≠ some t) : Rejects (exactly t) toks := by
  refine rejects_oneOf fun u hu => ?_
  have hne : (u == t) = false := by
    rw [beq_eq_false_iff_ne]
    exact fun hut => h (hut ▸ hu)
  rw [List.lookup_cons, hne, List.lookup_nil]

theorem accepts_symbol (s : Symbol) (more : List Token) : Accepts (symbol s) (.symbol s :: more) () more :=
  accepts_exactly _ more

theorem accepts_keyword (k : Keyword) (more : List Token) :
    Accepts (keyword k) (.keyword k :: more) () more :=
  accepts_exactly _ more

/-! ## Options and repetitions -/

theorem Accepts.optional (h : Accepts r toks a more) : Accepts (optional r) toks (some a) more := by
  intro ts hts
  obtain ⟨rest, hint, hr, hrest⟩ := h ts hts
  refine ⟨rest, hint, ?_, hrest⟩
  unfold Rule.optional
  simp only [hr]

theorem Rejects.optional (h : Rejects r toks) : Accepts (optional r) toks none toks := by
  intro ts hts
  obtain ⟨fault, hr⟩ := h ts hts
  refine ⟨ts, some fault, ?_, hts⟩
  unfold Rule.optional
  simp only [hr]

/-- The rounds of a repetition, each of which reads something, up to the place where its rule fails. -/
inductive Repeats (r : Rule α) : List Token → List α → List Token → Prop
  | stop {toks : List Token} (h : Rejects r toks) : Repeats r toks [] toks
  | round {toks mid more : List Token} {a : α} {as : List α} (h : Accepts r toks a mid)
      (hlt : mid.length < toks.length) (hmore : Repeats r mid as more) : Repeats r toks (a :: as) more

theorem Repeats.length_le {as : List α} (h : Repeats r toks as more) : as.length ≤ toks.length := by
  induction h with
  | stop h => exact Nat.zero_le _
  | round h hlt hmore ih => exact Nat.lt_of_le_of_lt ih hlt

theorem Repeats.upTo {as : List α} (h : Repeats r toks as more) :
    ∀ {n : Nat}, as.length < n → Accepts (upTo r n) toks as more := by
  induction h with
  | stop h =>
      intro n hn
      obtain ⟨n, rfl⟩ := Nat.exists_eq_succ_of_ne_zero (Nat.ne_of_gt hn)
      exact h.optional.bind (accepts_pure _ _)
  | round h hlt hmore ih =>
      intro n hn
      obtain ⟨n, rfl⟩ := Nat.exists_eq_succ_of_ne_zero (Nat.ne_of_gt (Nat.lt_of_le_of_lt (Nat.zero_le _) hn))
      exact h.optional.bind ((ih (Nat.lt_of_succ_lt_succ hn)).bind (accepts_pure _ _))

theorem Repeats.many {as : List α} (h : Repeats r toks as more) : Accepts (many r) toks as more := by
  intro ts hts
  have hlength : ts.length = toks.length := by rw [← hts, List.length_map]
  exact h.upTo (Nat.lt_succ_of_le (hlength ▸ h.length_le)) ts hts

theorem upTo_succ_of_ok {n : Nat} {ts mid rest : List Lexeme} {as : List α} {hint hint' : Option Fault}
    (h : r ts = .ok a mid hint) (hmore : upTo r n mid = .ok as rest hint') :
    ∃ hint, upTo r (n + 1) ts = .ok (a :: as) rest hint := by
  have hround : optional r ts = .ok (some a) mid hint := by
    unfold Rule.optional
    simp only [h]
  exact ⟨_, bind_of_ok hround (bind_of_ok hmore rfl)⟩

theorem Rejects.withSpan (h : Rejects r toks) : Rejects (withSpan r) toks := by
  intro ts hts
  obtain ⟨fault, hr⟩ := h ts hts
  refine ⟨fault, ?_⟩
  unfold Rule.withSpan
  simp only [hr]

/-! ## Brackets and commas -/

theorem Accepts.between {opening closing : Symbol} (h : Accepts r toks a (.symbol closing :: more)) :
    Accepts (between opening closing r) (.symbol opening :: toks) a more :=
  (accepts_symbol opening toks).bind (h.bind ((accepts_symbol closing more).bind (accepts_pure a more)))

theorem rejects_between {opening closing : Symbol} (h : toks.head? ≠ some (.symbol opening)) :
    Rejects (between opening closing r) toks :=
  (rejects_exactly h).bind

/-- Rows of tokens with a comma between two of them. -/
def separated (row : α → List Token) : List α → List Token
  | [] => []
  | a :: as => row a ++ as.flatMap fun a => .symbol .comma :: row a

variable {row : α → List Token}

/-- The rounds behind the first of some items. An item has to be read before a comma and before what
follows the last one. -/
theorem repeats_commas : ∀ {as : List α}, (∀ a ∈ as, ∀ rest, rest.head? = some (.symbol .comma) ∨ rest = more →
      Accepts r (row a ++ rest) a rest) → more.head? ≠ some (.symbol .comma) →
    Repeats (do symbol .comma; r) (as.flatMap (fun a => .symbol .comma :: row a) ++ more) as more
  | [], _, hmore => .stop (rejects_exactly hmore).bind
  | a :: as, h, hmore => by
      have hrest := repeats_commas (fun b hb => h b (List.mem_cons_of_mem _ hb)) hmore
      rw [List.flatMap_cons, List.append_assoc, List.cons_append]
      refine .round ((accepts_symbol _ _).bind (h a List.mem_cons_self _ ?_)) ?_ hrest
      · cases as with
        | nil => exact .inr rfl
        | cons b bs => exact .inl rfl
      · simp only [List.length_cons, List.length_append]
        omega

theorem accepts_sepBy1 {as : List α} (hne : as ≠ [])
    (h : ∀ a ∈ as, ∀ rest, rest.head? = some (.symbol .comma) ∨ rest = more → Accepts r (row a ++ rest) a rest)
    (hmore : more.head? ≠ some (.symbol .comma)) :
    Accepts (sepBy1 r (symbol .comma)) (separated row as ++ more) as more := by
  cases as with
  | nil => exact absurd rfl hne
  | cons a as =>
      have hrest := repeats_commas (fun b hb => h b (List.mem_cons_of_mem _ hb)) hmore
      rw [separated, List.append_assoc]
      refine (h a List.mem_cons_self _ ?_).bind (hrest.many.bind (accepts_pure _ _))
      cases as with
      | nil => exact .inr rfl
      | cons b bs => exact .inl rfl

theorem accepts_sepBy {as : List α} (hempty : as = [] → Rejects r more)
    (h : ∀ a ∈ as, ∀ rest, rest.head? = some (.symbol .comma) ∨ rest = more → Accepts r (row a ++ rest) a rest)
    (hmore : more.head? ≠ some (.symbol .comma)) :
    Accepts (sepBy r (symbol .comma)) (separated row as ++ more) as more := by
  by_cases hne : as = []
  · subst hne
    exact (hempty rfl).bind.optional.bind (accepts_pure _ _)
  · exact (accepts_sepBy1 hne h hmore).optional.bind (accepts_pure _ _)

end GrowthFlow.Lang.Rule
