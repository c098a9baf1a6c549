import GrowthFlow.Lang.Grammar
import GrowthFlow.Proofs.Reading
import GrowthFlow.Proofs.Spelling

/-!
# What two rules have in common

The recursive rules of the grammar take a depth, and a statement may be read at one depth where another rule
tries it again at a greater one. `Agree n k r s P` says that this makes no difference: on fewer than `n`
lexemes the rules `r` and `s` give the same reply, faults included. It says at the same time what a value
read there is like: it satisfies `P` together with the lexemes behind it, and these are a later place of the
same text, by at least `k` lexemes.

The two halves need each other. Sequences agree only because the first rule leaves few enough lexemes for the
second, so each combinator has one law for both.
-/

namespace GrowthFlow.Lang.Rule

variable {α β : Type} {r s : Rule α} {f g : α → Rule β} {P : α → List Lexeme → Prop}
  {Q : β → List Lexeme → Prop} {R : α → Prop} {n m k j : Nat} {ts : List Lexeme}

/-- Fewer than `n` lexemes, each of which the lexer can have found. -/
structure Short (n : Nat) (ts : List Lexeme) : Prop where
  length : ts.length < n
  spelled : ∀ l ∈ ts, l.token.Spelled

/-- At `ts` the two rules give the same reply, and a value they read satisfies `P`. -/
structure AgreeAt (k : Nat) (r s : Rule α) (P : α → List Lexeme → Prop) (ts : List Lexeme) : Prop where
  same : r ts = s ts
  read : ∀ {a rest hint}, r ts = .ok a rest hint → rest <:+ ts ∧ rest.length + k ≤ ts.length ∧ P a rest

/-- On fewer than `n` lexemes the two rules give the same reply, and what they read takes at least `k`. -/
def Agree (n k : Nat) (r s : Rule α) (P : α → List Lexeme → Prop) : Prop :=
  ∀ ts, Short n ts → AgreeAt k r s P ts

theorem Short.rest {rest : List Lexeme} (h : Short n ts) (hsuffix : rest <:+ ts)
    (hlength : rest.length + k ≤ ts.length) : Short (n - k) rest := by
  have hn := h.length
  refine ⟨by omega, fun l hl => h.spelled l (hsuffix.subset hl)⟩

theorem Short.mono (h : Short m ts) (hm : m ≤ n) : Short n ts :=
  ⟨Nat.lt_of_lt_of_le h.length hm, h.spelled⟩

theorem Agree.mono {P' : α → List Lexeme → Prop} (h : Agree n k r s P) (hm : m ≤ n) (hj : j ≤ k)
    (hP : ∀ a rest, P a rest → P' a rest) : Agree m j r s P' := by
  intro ts hts
  have hr := h ts (hts.mono hm)
  refine ⟨hr.same, fun hok => ?_⟩
  obtain ⟨hsuffix, hlength, ha⟩ := hr.read hok
  exact ⟨hsuffix, by omega, hP _ _ ha⟩

theorem agree_zero : Agree 0 k r s P := fun _ hts => absurd hts.length (Nat.not_lt_zero _)

theorem Agree.lax (h : Agree n k r s P) : Agree n 0 r s P :=
  h.mono (Nat.le_refl n) (Nat.zero_le k) fun _ _ ha => ha

theorem Agree.behind (h : Agree n k r s P) : Agree (n - 1) k r s P :=
  h.mono (Nat.sub_le n 1) (Nat.le_refl k) fun _ _ ha => ha

/-! ## Sequence and choice -/

theorem agreeAt_pure {a : α} (h : P a ts) : AgreeAt 0 (pure a) (pure a) P ts := by
  refine ⟨rfl, fun hok => ?_⟩
  cases hok
  exact ⟨List.suffix_refl ts, Nat.le_refl _, h⟩

theorem agree_pure {a : α} (h : ∀ rest, P a rest) : Agree n 0 (pure a) (pure a) P :=
  fun ts _ => agreeAt_pure (h ts)

theorem exists_of_bind {b : β} {rest : List Lexeme} {hint : Option Fault}
    (h : (r >>= f) ts = .ok b rest hint) :
    ∃ a mid first second, r ts = .ok a mid first ∧ f a mid = .ok b rest second := by
  change Rule.bind r f ts = _ at h
  unfold Rule.bind at h
  cases hr : r ts with
  | fail fault => rw [hr] at h; cases h
  | ok a mid first =>
      simp only [hr] at h
      cases hf : f a mid with
      | fail fault => rw [hf] at h; cases h
      | ok b' rest' second =>
          rw [hf] at h
          cases h
          exact ⟨a, mid, first, second, rfl, hf⟩

theorem AgreeAt.bind (h : AgreeAt k r s P ts)
    (hf : ∀ a mid, mid <:+ ts → mid.length + k ≤ ts.length → P a mid → AgreeAt j (f a) (g a) Q mid) :
    AgreeAt (k + j) (r >>= f) (s >>= g) Q ts := by
  refine ⟨?_, fun hok => ?_⟩
  · change Rule.bind r f ts = Rule.bind s g ts
    unfold Rule.bind
    rw [← h.same]
    cases hr : r ts with
    | fail fault => rfl
    | ok a mid hint =>
        -- the second rules are compared only where the first ones stop
        obtain ⟨hsuffix, hlength, ha⟩ := h.read hr
        simp only [(hf a mid hsuffix hlength ha).same]
  · obtain ⟨a, mid, first, second, hr, hfa⟩ := exists_of_bind hok
    obtain ⟨hsuffix, hlength, ha⟩ := h.read hr
    obtain ⟨hsuffix', hlength', hb⟩ := (hf a mid hsuffix hlength ha).read hfa
    exact ⟨hsuffix'.trans hsuffix, by omega, hb⟩

theorem Agree.bind (h : Agree n 0 r s P) (hf : ∀ a rest, P a rest → Agree n k (f a) (g a) Q) :
    Agree n k (r >>= f) (s >>= g) Q := by
  intro ts hts
  rw [← Nat.zero_add k]
  exact (h ts hts).bind fun a mid hsuffix hlength ha => hf a mid ha mid (hts.rest hsuffix hlength)

/-- Behind a rule that reads something there are fewer lexemes. -/
theorem Agree.seq (h : Agree n 1 r s P) (hf : ∀ a rest, P a rest → Agree (n - 1) 0 (f a) (g a) Q) :
    Agree n 1 (r >>= f) (s >>= g) Q := by
  intro ts hts
  exact (h ts hts).bind fun a mid hsuffix hlength ha => hf a mid ha mid (hts.rest hsuffix hlength)

/-- A value made from the one read stands before the same lexemes. -/
theorem Agree.map {f : α → β} (h : Agree n k r s P) (hf : ∀ a rest, P a rest → Q (f a) rest) :
    Agree n k (r >>= fun a => pure (f a)) (s >>= fun a => pure (f a)) Q := by
  intro ts hts
  rw [← Nat.add_zero k]
  exact (h ts hts).bind fun a mid _ _ ha => agreeAt_pure (hf a mid ha)

theorem Agree.orElse {r' s' : Rule α} (h : Agree n k r s P) (h' : Agree n k r' s' P) :
    Agree n k (r <|> r') (s <|> s') P := by
  intro ts hts
  have hr := h ts hts
  have hr' := h' ts hts
  have hleft : (r <|> r') ts = Rule.orElse r (fun _ => r') ts := rfl
  have hright : (s <|> s') ts = Rule.orElse s (fun _ => s') ts := rfl
  rcases hcase : r ts with ⟨a, rest, hint⟩ | fault
  · refine ⟨?_, fun hok => ?_⟩
    · rw [hleft, hright, Rule.orElse, Rule.orElse, ← hr.same, hcase]
    · rw [hleft, Rule.orElse, hcase] at hok
      cases hok
      exact hr.read hcase
  · -- both first rules fail, with the same fault, so the second ones are tried at the same place
    refine ⟨?_, fun hok => ?_⟩
    · rw [hleft, hright, Rule.orElse, Rule.orElse, ← hr.same, ← hr'.same, hcase]
    · rw [hleft, Rule.orElse, hcase] at hok
      rcases hcase' : r' ts with ⟨a, rest, hint⟩ | fault'
      · simp only [hcase'] at hok
        cases hok
        exact hr'.read hcase'
      · simp only [hcase'] at hok
        cases hok

/-! ## Tokens -/

theorem agree_token {f : Token → Option α} (h : ∀ t a, t.Spelled → f t = some a → R a) :
    Agree n 1 (token f) (token f) (fun a _ => R a) := by
  intro ts hts
  refine ⟨rfl, fun hok => ?_⟩
  cases ts with
  | nil => cases hok
  | cons t us =>
      have ht := hts.spelled t List.mem_cons_self
      rw [token] at hok
      cases ha : f t.token with
      | none => rw [ha] at hok; cases hok
      | some a =>
          rw [ha] at hok
          cases hok
          exact ⟨List.suffix_cons t _, Nat.le_refl _, h t.token _ ht ha⟩

theorem agree_oneOf (table : List (Token × α)) :
    Agree n 1 (oneOf table) (oneOf table) (fun _ _ => True) := by
  intro ts _
  refine ⟨rfl, fun hok => ?_⟩
  cases ts with
  | nil => cases hok
  | cons t us =>
      rw [oneOf] at hok
      cases ha : table.lookup t.token with
      | none => rw [ha] at hok; cases hok
      | some a =>
          rw [ha] at hok
          cases hok
          exact ⟨List.suffix_cons t _, Nat.le_refl _, trivial⟩

theorem agree_symbol (x : Symbol) : Agree n 1 (symbol x) (symbol x) (fun _ _ => True) := agree_oneOf _

theorem agree_keyword (w : Keyword) : Agree n 1 (keyword w) (keyword w) (fun _ _ => True) := agree_oneOf _

/-! ## Options and repetitions -/

/-- An option reads nothing exactly where its rule fails, and stays there. -/
theorem AgreeAt.optional (h : AgreeAt k r s P ts) :
    AgreeAt 0 (optional r) (optional s)
      (fun o rest => (∀ a ∈ o, P a rest) ∧ ((∃ fault, r ts = .fail fault) ↔ o = none) ∧
        (o = none → rest = ts)) ts := by
  refine ⟨by unfold Rule.optional; rw [h.same], fun hok => ?_⟩
  unfold Rule.optional at hok
  cases hr : r ts with
  | ok a rest hint =>
      rw [hr] at hok
      cases hok
      obtain ⟨hsuffix, hlength, ha⟩ := h.read hr
      refine ⟨hsuffix, by omega, fun b hb => ?_, ⟨fun hfail => ?_, fun hnone => nomatch hnone⟩,
        fun hnone => nomatch hnone⟩
      · cases hb
        exact ha
      · obtain ⟨fault, hfault⟩ := hfail
        cases hfault
  | fail fault =>
      rw [hr] at hok
      cases hok
      exact ⟨List.suffix_refl ts, Nat.le_refl _, fun b hb => (nomatch hb),
        ⟨fun _ => rfl, fun _ => ⟨fault, rfl⟩⟩, fun _ => rfl⟩

theorem Agree.optional (h : Agree n k r s P) :
    Agree n 0 (optional r) (optional s) (fun o rest => ∀ a ∈ o, P a rest) := by
  intro ts hts
  have ho := (h ts hts).optional
  refine ⟨ho.same, fun hok => ?_⟩
  obtain ⟨hsuffix, hlength, ha, _⟩ := ho.read hok
  exact ⟨hsuffix, hlength, ha⟩

theorem Agree.upTo (h : Agree n k r s (fun a _ => R a)) :
    ∀ count, Agree n 0 (upTo r count) (upTo s count) (fun as _ => ∀ a ∈ as, R a)
  | 0 => agree_pure fun _ _ ha => nomatch ha
  | count + 1 => by
      unfold Rule.upTo
      refine h.optional.bind fun o _ ho => ?_
      cases o with
      | none => exact agree_pure fun _ _ ha => nomatch ha
      | some a =>
          refine (h.upTo count).map fun as _ has => ?_
          exact List.forall_mem_cons.2 ⟨ho a rfl, has⟩

theorem Agree.many (h : Agree n k r s (fun a _ => R a)) :
    Agree n 0 (many r) (many s) (fun as _ => ∀ a ∈ as, R a) :=
  fun ts hts => ⟨(h.upTo (ts.length + 1) ts hts).same, (h.upTo (ts.length + 1) ts hts).read⟩

theorem Agree.many1 (h : Agree n 1 r s (fun a _ => R a)) :
    Agree n 1 (many1 r) (many1 s) (fun as _ => as ≠ [] ∧ ∀ a ∈ as, R a) := by
  unfold Rule.many1
  refine h.seq fun a _ ha => h.behind.many.map fun as _ has => ?_
  exact ⟨List.cons_ne_nil a as, List.forall_mem_cons.2 ⟨ha, has⟩⟩

theorem Agree.sepBy1 {x : Symbol} (h : Agree n 1 r s (fun a _ => R a)) :
    Agree n 1 (sepBy1 r (symbol x)) (sepBy1 s (symbol x)) (fun as _ => as ≠ [] ∧ ∀ a ∈ as, R a) := by
  have hmore : Agree (n - 1) 0 (symbol x >>= fun _ => r) (symbol x >>= fun _ => s) (fun a _ => R a) :=
    (agree_symbol x).lax.bind fun _ _ _ => h.behind.lax
  unfold Rule.sepBy1
  refine h.seq fun a _ ha => hmore.many.map fun as _ has => ?_
  exact ⟨List.cons_ne_nil a as, List.forall_mem_cons.2 ⟨ha, has⟩⟩

theorem Agree.sepBy {x : Symbol} (h : Agree n 1 r s (fun a _ => R a)) :
    Agree n 0 (sepBy r (symbol x)) (sepBy s (symbol x)) (fun as _ => ∀ a ∈ as, R a) := by
  unfold Rule.sepBy
  refine h.sepBy1.optional.map fun o _ ho => ?_
  cases o with
  | none => exact fun a ha => nomatch ha
  | some as => exact (ho as rfl).2

/-- A rule between two symbols starts behind the first of them. -/
theorem Agree.between {x y : Symbol} (h : Agree (n - 1) k r s (fun a _ => R a)) :
    Agree n 1 (between x y r) (between x y s) (fun a _ => R a) := by
  unfold Rule.between
  refine (agree_symbol x).seq fun _ _ _ => h.lax.bind fun a _ ha => ?_
  exact (agree_symbol y).lax.map fun _ _ _ => ha

theorem Agree.withSpan (h : Agree n k r s (fun a _ => R a)) :
    Agree n k (withSpan r) (withSpan s) (fun a _ => R a.1) := by
  intro ts hts
  have hr := h ts hts
  refine ⟨by unfold Rule.withSpan; rw [hr.same], fun hok => ?_⟩
  unfold Rule.withSpan at hok
  split at hok
  · rename_i a rest hint heq
    cases hok
    exact hr.read heq
  · cases hok

end GrowthFlow.Lang.Rule
