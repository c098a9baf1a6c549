import GrowthFlow.Flow.Poly
import GrowthFlow.Proofs.Sets

/-!
# What a polynomial is worth

A polynomial is judged by its value under every selection, a choice at some of the indices: the largest
scalar among the monomials whose demands the selection meets. Choice vectors are the selections that the
analysis itself evaluates at; partial ones are what tells two normal forms apart.

Values are compared through their upper bounds. `Below σ ms t` says that `t` bounds every monomial that
counts, and each operation on lists of monomials is described by what it does to these bounds. The
operations only ever fail to be homomorphic in one place: a product with a polynomial that is not zero but
of which nothing counts is worth nothing, even where the other factor is unbounded (`value_mul`).
-/

namespace GrowthFlow

/-! ## Scalars -/

namespace Scalar

theorem mem_all (a : Scalar) : a ∈ all := by cases a <;> decide

/-- There are five scalars, so a property of all of them can be checked. -/
instance (P : Scalar → Prop) [DecidablePred P] : Decidable (∀ a, P a) :=
  decidable_of_iff (∀ a ∈ all, P a) ⟨fun h a => h a (mem_all a), fun h a _ => h a⟩

theorem le_refl (a : Scalar) : a ≤ a := Nat.le_refl _

theorem le_trans {a b c : Scalar} (h : a ≤ b) (h' : b ≤ c) : a ≤ c := Nat.le_trans h h'

instance : @Trans Scalar Scalar Scalar LE.le LE.le LE.le := ⟨le_trans⟩

theorem le_antisymm {a b : Scalar} (h : a ≤ b) (h' : b ≤ a) : a = b :=
  rank_injective (Nat.le_antisymm h h')

@[simp] theorem o_le (a : Scalar) : o ≤ a := Nat.zero_le _

@[simp] theorem le_i (a : Scalar) : a ≤ i := by cases a <;> decide

theorem add_le_iff {a b t : Scalar} : a + b ≤ t ↔ a ≤ t ∧ b ≤ t := by
  rw [le_iff_rank, rank_add]
  exact Nat.max_le

theorem le_add_left (a b : Scalar) : a ≤ a + b := (add_le_iff.mp (le_refl _)).1

theorem le_add_right (a b : Scalar) : b ≤ a + b := (add_le_iff.mp (le_refl _)).2

theorem add_self (a : Scalar) : a + a = a := by cases a <;> rfl

theorem add_o (a : Scalar) : a + o = a := by cases a <;> rfl

theorem add_eq_or (a b : Scalar) : a + b = a ∨ a + b = b := by
  rw [add_def]
  split
  · exact .inr rfl
  · exact .inl rfl

/-- A scalar is determined by what bounds it. -/
theorem eq_of_le_iff {a b : Scalar} (h : ∀ t, a ≤ t ↔ b ≤ t) : a = b :=
  le_antisymm ((h b).mpr (le_refl b)) ((h a).mp (le_refl a))

/-- A scalar is determined by what it bounds, apart from `o`. -/
theorem eq_of_ge_iff {a b : Scalar} (h : ∀ t, t ≠ o → (t ≤ a ↔ t ≤ b)) : a = b := by
  have hle : ∀ {a b : Scalar}, (∀ t, t ≠ o → t ≤ a → t ≤ b) → a ≤ b := by
    intro a b h
    by_cases ho : a = o
    · exact ho ▸ o_le b
    · exact h a ho (le_refl a)
  exact le_antisymm (hle fun t ht => (h t ht).mp) (hle fun t ht => (h t ht).mpr)

theorem le_add_iff {a b t : Scalar} : t ≤ a + b ↔ t ≤ a ∨ t ≤ b := by
  revert a b t
  decide

theorem mul_le_mul {a a' b b' : Scalar} (h : a ≤ a') (h' : b ≤ b') : a * b ≤ a' * b' := by
  revert a a' b b'
  decide

theorem mul_assoc (a b c : Scalar) : a * b * c = a * (b * c) := by
  revert a b c
  decide

theorem mul_comm (a b : Scalar) : a * b = b * a := by
  revert a b
  decide

theorem mul_add (a b c : Scalar) : a * (b + c) = a * b + a * c := by
  revert a b c
  decide

theorem add_comm (a b : Scalar) : a + b = b + a := by
  revert a b
  decide

theorem add_assoc (a b c : Scalar) : a + b + c = a + (b + c) := by
  revert a b c
  decide

theorem o_mul {a : Scalar} (h : a ≠ i) : o * a = o := by
  revert a
  decide

theorem mul_o {a : Scalar} (h : a ≠ i) : a * o = o := by
  revert a
  decide

theorem m_mul (a : Scalar) : m * a = a := by
  revert a
  decide

theorem mul_m (a : Scalar) : a * m = a := by
  revert a
  decide

theorem mul_eq_o_iff {a b : Scalar} : a * b = o ↔ (a = o ∧ b ≠ i) ∨ (b = o ∧ a ≠ i) := by
  revert a b
  decide

theorem mul_eq_i_iff {a b : Scalar} : a * b = i ↔ a = i ∨ b = i := by
  revert a b
  decide

theorem i_le_iff {a : Scalar} : i ≤ a ↔ a = i := by
  revert a
  decide

theorem ne_o_of_le {a t : Scalar} (ht : t ≠ o) (h : t ≤ a) : a ≠ o := by
  revert a t
  decide

theorem eq_p_of_le {a : Scalar} (h : p ≤ a) (hi : a ≠ i) : a = p := by
  revert a
  decide

theorem add_eq_i_iff {a b : Scalar} : a + b = i ↔ a = i ∨ b = i := by
  revert a b
  decide

/-- The largest of several scalars. -/
def sum (ss : List Scalar) : Scalar := ss.foldl (· + ·) o

theorem foldl_add_le_iff {t : Scalar} : ∀ (ss : List Scalar) (a : Scalar),
    ss.foldl (· + ·) a ≤ t ↔ a ≤ t ∧ ∀ s ∈ ss, s ≤ t
  | [], a => by simp
  | s :: ss, a => by
      rw [List.foldl_cons, foldl_add_le_iff ss, add_le_iff, List.forall_mem_cons, and_assoc]

theorem sum_le_iff {ss : List Scalar} {t : Scalar} : sum ss ≤ t ↔ ∀ s ∈ ss, s ≤ t := by
  rw [sum, foldl_add_le_iff]
  simp

theorem le_sum {ss : List Scalar} {s : Scalar} (h : s ∈ ss) : s ≤ sum ss :=
  sum_le_iff.mp (le_refl _) s h

/-- A largest scalar is one of them, unless there is nothing but `o`. -/
theorem sum_mem {ss : List Scalar} (h : sum ss ≠ o) : sum ss ∈ ss := by
  have key : ∀ (ss : List Scalar) (a : Scalar),
      ss.foldl (· + ·) a = a ∨ ss.foldl (· + ·) a ∈ ss := by
    intro ss
    induction ss with
    | nil => intro a; exact .inl rfl
    | cons s ss ih =>
        intro a
        rw [List.foldl_cons]
        rcases ih (a + s) with heq | hmem
        · rw [heq]
          rcases add_eq_or a s with h | h
          · exact .inl h
          · exact .inr (h.symm ▸ List.mem_cons_self)
        · exact .inr (List.mem_cons_of_mem _ hmem)
  rcases key ss o with heq | hmem
  · exact absurd heq h
  · exact hmem

/-- Above `o`, what is below the largest is below one of them. -/
theorem le_sum_iff {ss : List Scalar} {t : Scalar} (ht : t ≠ o) : t ≤ sum ss ↔ ∃ s ∈ ss, t ≤ s := by
  constructor
  · intro h
    exact ⟨sum ss, sum_mem (ne_o_of_le ht h), h⟩
  · rintro ⟨s, hs, h⟩
    exact le_trans h (le_sum hs)

theorem sum_eq_i_iff {ss : List Scalar} : sum ss = i ↔ i ∈ ss := by
  constructor
  · intro h
    rw [← h]
    exact sum_mem (by rw [h]; decide)
  · intro h
    exact le_antisymm (le_i _) (le_sum h)

/-- A running maximum bounds what it has seen. -/
theorem le_running {f s : Nat → Scalar} (hstart : s 0 = f 0)
    (hstep : ∀ k, s (k + 1) = s k + f (k + 1)) {k j : Nat} (hkj : k ≤ j) : f k ≤ s j := by
  induction j with
  | zero =>
      rw [Nat.le_zero.mp hkj, hstart]
      exact le_refl _
  | succ j ih =>
      rw [hstep]
      rcases Nat.lt_or_ge j k with hlt | hge
      · rw [Nat.le_antisymm hkj hlt]
        exact le_add_right _ _
      · exact le_trans (ih hge) (le_add_left _ _)

/-- A running maximum is one of what it has seen. -/
theorem exists_running_eq {f s : Nat → Scalar} (hstart : s 0 = f 0)
    (hstep : ∀ k, s (k + 1) = s k + f (k + 1)) : ∀ j, ∃ k, k ≤ j ∧ s j = f k
  | 0 => ⟨0, Nat.le_refl 0, hstart⟩
  | j + 1 => by
      obtain ⟨k, hk, heq⟩ := exists_running_eq hstart hstep j
      rw [hstep]
      rcases add_eq_or (s j) (f (j + 1)) with h | h
      · exact ⟨k, Nat.le_succ_of_le hk, h.trans heq⟩
      · exact ⟨j + 1, Nat.le_refl _, h⟩

/-- A row of scalars is multiplied by a matrix again and again. If a bound of the first rows is attained
by one that has a successor among them, it bounds all rows. -/
theorem rows_le_of_stop {α : Type} {zs : List α} {f : Nat → α → Scalar} {A : α → α → Scalar}
    (hstep : ∀ k, ∀ y ∈ zs, f (k + 1) y = sum (zs.map fun z => f k z * A z y)) {s : α → Scalar}
    {j : Nat} (hle : ∀ k, k ≤ j + 1 → ∀ y ∈ zs, f k y ≤ s y)
    (hmem : ∀ y ∈ zs, ∃ k, k ≤ j ∧ s y = f k y) : ∀ k, ∀ y ∈ zs, f k y ≤ s y
  | 0, y, hy => hle 0 (Nat.zero_le _) y hy
  | k + 1, y, hy => by
      rw [hstep k y hy, sum_le_iff, List.forall_mem_map]
      intro z hz
      -- What row `k` has at `z`, an early row has too, and the row behind that one is still bounded.
      obtain ⟨l, hl, heq⟩ := hmem z hz
      calc f k z * A z y
          ≤ f l z * A z y :=
            mul_le_mul (heq ▸ rows_le_of_stop hstep hle hmem k z hz) (le_refl _)
        _ ≤ f (l + 1) y := by
            rw [hstep l y hy]
            exact le_sum (List.mem_map.mpr ⟨z, hz, rfl⟩)
        _ ≤ s y := hle (l + 1) (Nat.succ_le_succ hl) y hy

end Scalar

/-! ## Selections -/

/-- A choice at some of the indices. -/
abbrev Selection := Nat → Option Nat

namespace Selection

/-- The choices that a vector makes. -/
def ofVector (v : List Nat) : Selection := fun k => v[k]?

/-- Whether every demand of a list is met. -/
def meets (σ : Selection) (ds : List Delta) : Bool := ds.all fun d => σ d.index == some d.value

theorem meets_iff {σ : Selection} {ds : List Delta} :
    σ.meets ds = true ↔ ∀ d ∈ ds, σ d.index = some d.value := by
  simp [meets]

@[simp] theorem meets_nil (σ : Selection) : σ.meets [] = true := rfl

theorem meets_cons (σ : Selection) (d : Delta) (ds : List Delta) :
    σ.meets (d :: ds) = (σ d.index == some d.value && σ.meets ds) := rfl

/-- Fewer demands are met more easily. -/
theorem meets_mono {σ : Selection} {ds es : List Delta} (h : ∀ d ∈ ds, d ∈ es)
    (hes : σ.meets es = true) : σ.meets ds = true :=
  meets_iff.mpr fun d hd => meets_iff.mp hes d (h d hd)

end Selection

/-- Demands in the order of their indices, one to an index. -/
def Sorted (ds : List Delta) : Prop := ds.Pairwise fun d e => d.index < e.index

/-- Among sorted demands, an index has one. -/
theorem Sorted.unique {ds : List Delta} (hs : Sorted ds) {d e : Delta} (hd : d ∈ ds) (he : e ∈ ds)
    (hindex : d.index = e.index) : d = e := by
  induction ds with
  | nil => exact absurd hd List.not_mem_nil
  | cons x ds ih =>
      have hx := List.pairwise_cons.mp hs
      rcases List.mem_cons.mp hd with hdx | hd'
      · rcases List.mem_cons.mp he with hex | he'
        · rw [hdx, hex]
        · have := hx.1 e he'
          rw [← hdx] at this
          omega
      · rcases List.mem_cons.mp he with hex | he'
        · have := hx.1 d hd'
          rw [← hex] at this
          omega
        · exact ih hx.2 hd' he'

/-- An inserted demand stands beside the others; a contradiction is never met. -/
theorem any_meets_insertDelta? (σ : Selection) (d : Delta) (ds : List Delta) :
    (insertDelta? d ds).any σ.meets = (σ d.index == some d.value && σ.meets ds) := by
  induction ds with
  | nil => simp [insertDelta?, Selection.meets]
  | cons e es ih =>
      rw [insertDelta?]
      split
      · rfl
      · split
        · -- behind `e`, whose demand is made in any case
          cases hins : insertDelta? d es with
          | none =>
              rw [hins, Option.any_none] at ih
              show false = (_ && (_ && σ.meets es))
              rw [Bool.and_left_comm, ← ih, Bool.and_false]
          | some fs =>
              rw [hins, Option.any_some] at ih
              show (_ && σ.meets fs) = (_ && (_ && σ.meets es))
              rw [ih, Bool.and_left_comm]
        · have hindex : d.index = e.index := by omega
          split
          · rename_i hvalue
            show (_ && σ.meets es) = (_ && (_ && σ.meets es))
            rw [hindex, hvalue, ← Bool.and_assoc, Bool.and_self]
          · rename_i hvalue
            show false = (_ && (_ && σ.meets es))
            rw [hindex]
            by_cases he : σ e.index = some e.value
            · simp [he, Ne.symm hvalue]
            · simp [he]

theorem mem_insertDelta? {d x : Delta} : ∀ {ds es : List Delta}, insertDelta? d ds = some es →
    x ∈ es → x = d ∨ x ∈ ds
  | [], es, h, hx => by
      rw [insertDelta?, Option.some.injEq] at h
      subst h
      exact .inl (List.mem_singleton.mp hx)
  | e :: ds, es, h, hx => by
      rw [insertDelta?] at h
      split at h
      · rw [Option.some.injEq] at h
        subst h
        exact List.mem_cons.mp hx
      · split at h
        · obtain ⟨fs, hfs, rfl⟩ := Option.map_eq_some_iff.mp h
          rcases List.mem_cons.mp hx with rfl | hx
          · exact .inr List.mem_cons_self
          · rcases mem_insertDelta? hfs hx with rfl | hx
            · exact .inl rfl
            · exact .inr (List.mem_cons_of_mem _ hx)
        · split at h
          · rw [Option.some.injEq] at h
            subst h
            exact .inr hx
          · exact absurd h (by simp)

theorem sorted_insertDelta? {d : Delta} : ∀ {ds es : List Delta}, Sorted ds →
    insertDelta? d ds = some es → Sorted es
  | [], es, _, h => by
      rw [insertDelta?, Option.some.injEq] at h
      subst h
      exact List.pairwise_singleton ..
  | e :: ds, es, hs, h => by
      have hcons := List.pairwise_cons.mp hs
      rw [insertDelta?] at h
      split at h
      · rename_i hlt
        rw [Option.some.injEq] at h
        subst h
        refine List.pairwise_cons.mpr ⟨?_, hs⟩
        intro x hx
        rcases List.mem_cons.mp hx with rfl | hx
        · exact hlt
        · exact Nat.lt_trans hlt (hcons.1 x hx)
      · split at h
        · rename_i hgt
          obtain ⟨fs, hfs, rfl⟩ := Option.map_eq_some_iff.mp h
          refine List.pairwise_cons.mpr ⟨?_, sorted_insertDelta? hcons.2 hfs⟩
          intro x hx
          rcases mem_insertDelta? hfs hx with rfl | hx
          · exact hgt
          · exact hcons.1 x hx
        · split at h
          · rw [Option.some.injEq] at h
            subst h
            exact hs
          · exact absurd h (by simp)

/-! ## Monomials -/

namespace Monomial

/-- What a monomial is worth under a selection. -/
def value (σ : Selection) (m : Monomial) : Scalar := if σ.meets m.deltas then m.scalar else .o

theorem value_le_iff {σ : Selection} {m : Monomial} {t : Scalar} :
    m.value σ ≤ t ↔ (σ.meets m.deltas = true → m.scalar ≤ t) := by
  rw [value]
  split
  · rename_i h
    exact ⟨fun hle _ => hle, fun hle => hle h⟩
  · rename_i h
    exact ⟨fun _ hmet => absurd hmet h, fun _ => Scalar.o_le t⟩

@[simp] theorem value_zero (σ : Selection) : zero.value σ = .o := rfl

theorem value_of_scalar_eq_o {σ : Selection} {m : Monomial} (h : m.scalar = .o) :
    m.value σ = .o := by
  rw [value, h, ite_self]

theorem value_insert (σ : Selection) (m : Monomial) (d : Delta) :
    (m.insert d).value σ = if σ d.index == some d.value then m.value σ else .o := by
  unfold insert
  split
  · rename_i h
    rw [value_of_scalar_eq_o h, value_zero, ite_self]
  · have hmeets := any_meets_insertDelta? σ d m.deltas
    cases hins : insertDelta? d m.deltas with
    | none =>
        rw [hins, Option.any_none] at hmeets
        rw [value_zero, value]
        cases hd : σ d.index == some d.value with
        | false => rfl
        | true =>
            rw [hd, Bool.true_and] at hmeets
            rw [← hmeets]
            rfl
    | some ds =>
        rw [hins, Option.any_some] at hmeets
        show (if σ.meets ds then m.scalar else .o) = _
        rw [hmeets, value]
        cases σ d.index == some d.value <;> rfl

theorem value_foldl_insert (σ : Selection) (ds : List Delta) (m : Monomial) :
    (ds.foldl insert m).value σ = if σ.meets ds then m.value σ else .o := by
  induction ds generalizing m with
  | nil => rfl
  | cons d ds ih =>
      rw [List.foldl_cons, ih, value_insert, Selection.meets_cons]
      cases σ d.index == some d.value
      · rw [Bool.false_and]
        exact ite_self _
      · rfl

theorem value_ofDeltas (σ : Selection) (s : Scalar) (ds : List Delta) :
    (ofDeltas s ds).value σ = if σ.meets ds then s else .o :=
  value_foldl_insert σ ds (ofScalar s)

theorem value_withScalar (σ : Selection) (m : Monomial) (s : Scalar) :
    (m.withScalar s).value σ = if σ.meets m.deltas then s else .o :=
  value_ofDeltas σ s m.deltas

theorem mul_def (a b : Monomial) : a * b =
    if a.scalar * b.scalar = .o then zero
    else b.deltas.foldl insert ⟨a.scalar * b.scalar, a.deltas⟩ := rfl

/-- A product counts when both factors do. -/
theorem value_mul (σ : Selection) (a b : Monomial) :
    (a * b).value σ =
      if σ.meets a.deltas && σ.meets b.deltas then a.scalar * b.scalar else .o := by
  rw [mul_def]
  split
  · rename_i h
    rw [value_zero, h, ite_self]
  · rw [value_foldl_insert, Bool.and_comm]
    cases σ.meets b.deltas <;> rfl

/-- A monomial with sorted demands, each of which is one of `P`. -/
structure Formed (P : Delta → Prop) (m : Monomial) : Prop where
  sorted : Sorted m.deltas
  demands : ∀ d ∈ m.deltas, P d

theorem formed_nil {P : Delta → Prop} (s : Scalar) : Formed P ⟨s, []⟩ :=
  ⟨List.Pairwise.nil, fun _ hd => absurd hd List.not_mem_nil⟩

theorem Formed.insert {P : Delta → Prop} {m : Monomial} {d : Delta} (h : m.Formed P) (hd : P d) :
    (m.insert d).Formed P := by
  unfold Monomial.insert
  split
  · exact formed_nil .o
  · split
    · rename_i ds hds
      refine ⟨sorted_insertDelta? h.sorted hds, ?_⟩
      intro x hx
      rcases mem_insertDelta? hds hx with rfl | hx
      · exact hd
      · exact h.demands x hx
    · exact formed_nil .o

theorem Formed.foldl_insert {P : Delta → Prop} {ds : List Delta} (hds : ∀ d ∈ ds, P d)
    {m : Monomial} (h : m.Formed P) : (ds.foldl Monomial.insert m).Formed P := by
  induction ds generalizing m with
  | nil => exact h
  | cons d ds ih =>
      rw [List.forall_mem_cons] at hds
      exact ih hds.2 (h.insert hds.1)

theorem formed_ofDeltas {P : Delta → Prop} (s : Scalar) {ds : List Delta} (hds : ∀ d ∈ ds, P d) :
    (ofDeltas s ds).Formed P :=
  Formed.foldl_insert hds (formed_nil s)

theorem Formed.mul {P : Delta → Prop} {a b : Monomial} (ha : a.Formed P) (hb : b.Formed P) :
    (a * b).Formed P := by
  rw [mul_def]
  split
  · exact formed_nil .o
  · exact Formed.foldl_insert hb.demands ⟨ha.sorted, ha.demands⟩

end Monomial

/-! ## Lists of monomials -/

/-- Whether a scalar bounds every monomial that counts. -/
def Below (σ : Selection) (ms : List Monomial) (t : Scalar) : Prop := ∀ m ∈ ms, m.value σ ≤ t

theorem below_cons {σ : Selection} {m : Monomial} {ms : List Monomial} {t : Scalar} :
    Below σ (m :: ms) t ↔ m.value σ ≤ t ∧ Below σ ms t := List.forall_mem_cons

theorem deltas_connected {ds es : List Delta} (h : ¬ ds < es) (h' : ¬ es < ds) : ds = es :=
  Ordered.Total.connected h h'

theorem below_insertMonomial {σ : Selection} {m : Monomial} {t : Scalar} {ns : List Monomial} :
    Below σ (insertMonomial m ns) t ↔ m.value σ ≤ t ∧ Below σ ns t := by
  induction ns with
  | nil => exact below_cons
  | cons n ns ih =>
      rw [insertMonomial]
      split
      · exact below_cons
      · split
        · rw [below_cons, ih, below_cons]
          exact and_left_comm
        · -- the same demands: the larger scalar counts for both
          rename_i hmn hnm
          have heq := deltas_connected hmn hnm
          rw [below_cons, below_cons, ← and_assoc]
          simp only [Monomial.value_le_iff, Scalar.add_le_iff, heq, imp_and]

theorem below_mergeMonomials {σ : Selection} {t : Scalar} {ms ns : List Monomial} :
    Below σ (mergeMonomials ms ns) t ↔ Below σ ms t ∧ Below σ ns t := by
  induction ms with
  | nil => exact ⟨fun h => ⟨fun _ hm => absurd hm List.not_mem_nil, h⟩, fun h => h.2⟩
  | cons m ms ih =>
      show Below σ (insertMonomial m (mergeMonomials ms ns)) t ↔ _
      rw [below_insertMonomial, ih, below_cons, and_assoc]

/-- What holds of the monomials of a list, and of sums of them, holds after one more is added. -/
theorem forall_mem_insertMonomial {Q : Monomial → Prop}
    (hQ : ∀ a b, Q a → Q b → a.deltas = b.deltas → Q ⟨a.scalar + b.scalar, b.deltas⟩)
    {m : Monomial} {ns : List Monomial} (hm : Q m) (hns : ∀ n ∈ ns, Q n) :
    ∀ x ∈ insertMonomial m ns, Q x := by
  induction ns with
  | nil => exact fun x hx => List.mem_singleton.mp hx ▸ hm
  | cons n ns ih =>
      rw [insertMonomial]
      have hns' := List.forall_mem_cons.mp hns
      split
      · exact List.forall_mem_cons.mpr ⟨hm, hns⟩
      · split
        · exact List.forall_mem_cons.mpr ⟨hns'.1, ih hns'.2⟩
        · rename_i hmn hnm
          have heq := deltas_connected hmn hnm
          exact List.forall_mem_cons.mpr ⟨hQ m n hm hns'.1 heq, hns'.2⟩

theorem forall_mem_mergeMonomials {Q : Monomial → Prop}
    (hQ : ∀ a b, Q a → Q b → a.deltas = b.deltas → Q ⟨a.scalar + b.scalar, b.deltas⟩)
    {ms ns : List Monomial} (hms : ∀ m ∈ ms, Q m) (hns : ∀ n ∈ ns, Q n) :
    ∀ x ∈ mergeMonomials ms ns, Q x := by
  induction ms with
  | nil => exact hns
  | cons m ms ih =>
      have hms' := List.forall_mem_cons.mp hms
      exact forall_mem_insertMonomial hQ hms'.1 (ih hms'.2)

end GrowthFlow
