import GrowthFlow.Proofs.Value

/-!
# Polynomials by their values

Dropping superfluous monomials never changes a value: whatever makes a monomial superfluous counts at
least as often and for at least as much, and a chain of such monomials has to end. From this the value of
every operation follows.

A polynomial is *proper* over a set of demands when none of its monomials is zero and all their demands are
sorted and in the set. Every operation keeps that, so the indices that occur in a flow are those of the
statements it came from.
-/

namespace GrowthFlow

/-! ## Superfluous monomials -/

/-- Among sorted demands, those of a part come in the same order. -/
theorem sublist_of_sorted : ∀ {ds es : List Delta}, Sorted ds → Sorted es → (∀ d ∈ ds, d ∈ es) →
    ds.Sublist es
  | [], es, _, _, _ => List.nil_sublist es
  | d :: _, [], _, _, h => absurd (h d List.mem_cons_self) List.not_mem_nil
  | d :: ds, e :: es, hds, hes, h => by
      have hd := List.pairwise_cons.mp hds
      have he := List.pairwise_cons.mp hes
      rcases List.mem_cons.mp (h d List.mem_cons_self) with rfl | hmem
      · refine (sublist_of_sorted hd.2 he.2 ?_).cons_cons d
        intro x hx
        rcases List.mem_cons.mp (h x (List.mem_cons_of_mem _ hx)) with rfl | hx'
        · exact absurd (hd.1 x hx) (Nat.lt_irrefl _)
        · exact hx'
      · -- `e` comes before all of `d :: ds`, so it is none of them
        refine (sublist_of_sorted hds he.2 ?_).cons e
        intro x hx
        have hle : d.index ≤ x.index := by
          rcases List.mem_cons.mp hx with rfl | hx'
          · exact Nat.le_refl _
          · exact Nat.le_of_lt (hd.1 x hx')
        rcases List.mem_cons.mp (h x hx) with rfl | hx'
        · have := he.1 d hmem
          omega
        · exact hx'

namespace Monomial

theorem absorbs_iff {a b : Monomial} :
    a.absorbs b = true ↔ (∀ d ∈ a.deltas, d ∈ b.deltas) ∧ b.scalar ≤ a.scalar := by
  simp [absorbs, contains]

theorem absorbs_refl (a : Monomial) : a.absorbs a = true :=
  absorbs_iff.mpr ⟨fun _ hd => hd, Scalar.le_refl _⟩

theorem absorbs_trans {a b c : Monomial} (h : a.absorbs b = true) (h' : b.absorbs c = true) :
    a.absorbs c = true := by
  rw [absorbs_iff] at h h' ⊢
  exact ⟨fun d hd => h'.1 d (h.1 d hd), Scalar.le_trans h'.2 h.2⟩

theorem value_le_of_absorbs {a b : Monomial} (σ : Selection) (h : a.absorbs b = true) :
    b.value σ ≤ a.value σ := by
  rw [absorbs_iff] at h
  rw [value_le_iff]
  intro hmet
  rw [value, if_pos (Selection.meets_mono h.1 hmet)]
  exact h.2

/-- What falls when a monomial gives way to one that makes it superfluous: the number of demands, or else
the distance of the scalar from `i`. -/
def slack (m : Monomial) : Nat := 5 * m.deltas.length + (4 - m.scalar.rank)

theorem slack_lt_of_absorbs {a b : Monomial} (ha : Sorted a.deltas) (hb : Sorted b.deltas)
    (h : a.absorbs b = true) (hne : a ≠ b) : a.slack < b.slack := by
  obtain ⟨hsub, hle⟩ := absorbs_iff.mp h
  have hsublist := sublist_of_sorted ha hb hsub
  have hrank : b.scalar.rank ≤ a.scalar.rank := hle
  have hmax : a.scalar.rank ≤ 4 := Scalar.le_i a.scalar
  unfold slack
  rcases Nat.lt_or_ge a.deltas.length b.deltas.length with hlt | hge
  · -- a demand less outweighs any scalar
    omega
  · have hdeltas : a.deltas = b.deltas := hsublist.eq_of_length_le hge
    have hscalar : a.scalar.rank ≠ b.scalar.rank := by
      intro heq
      have := Scalar.rank_injective heq
      cases a
      cases b
      simp_all
    rw [hdeltas]
    omega

end Monomial

theorem mem_dropAbsorbed {m : Monomial} {ms : List Monomial} :
    m ∈ dropAbsorbed ms ↔ m ∈ ms ∧ ∀ n ∈ ms, n.absorbs m = true → n = m := by
  unfold dropAbsorbed
  rw [List.mem_filter]
  simp only [Bool.not_eq_true', List.any_eq_false, Bool.and_eq_true, bne_iff_ne, not_and]
  refine and_congr_right fun _ => forall_congr' fun n => imp_congr_right fun _ => ?_
  constructor
  · intro h habs
    exact Classical.byContradiction fun hne => h hne habs
  · intro h hne habs
    exact hne (h habs)

/-- Something that is kept makes each monomial superfluous, if it is not kept itself. -/
theorem exists_mem_dropAbsorbed {ms : List Monomial} (hs : ∀ m ∈ ms, Sorted m.deltas) :
    ∀ (k : Nat) {m : Monomial}, m.slack < k → m ∈ ms →
      ∃ n ∈ dropAbsorbed ms, n.absorbs m = true
  | 0, _, hk, _ => absurd hk (Nat.not_lt_zero _)
  | k + 1, m, hk, hm => by
      -- By induction on the slack: what makes `m` superfluous has less of it.
      by_cases hkept : ∀ n ∈ ms, n.absorbs m = true → n = m
      · exact ⟨m, mem_dropAbsorbed.mpr ⟨hm, hkept⟩, m.absorbs_refl⟩
      · simp only [Classical.not_forall] at hkept
        obtain ⟨n, hn, habs, hne⟩ := hkept
        have hlt := Monomial.slack_lt_of_absorbs (hs n hn) (hs m hm) habs hne
        obtain ⟨x, hx, hxabs⟩ := exists_mem_dropAbsorbed hs k (by omega) hn
        exact ⟨x, hx, Monomial.absorbs_trans hxabs habs⟩

theorem below_dropAbsorbed {σ : Selection} {t : Scalar} {ms : List Monomial}
    (hs : ∀ m ∈ ms, Sorted m.deltas) : Below σ (dropAbsorbed ms) t ↔ Below σ ms t := by
  constructor
  · intro h m hm
    obtain ⟨n, hn, habs⟩ := exists_mem_dropAbsorbed hs (m.slack + 1) (Nat.lt_succ_self _) hm
    exact Scalar.le_trans (Monomial.value_le_of_absorbs σ habs) (h n hn)
  · intro h m hm
    exact h m (mem_dropAbsorbed.mp hm).1

/-! ## Sums -/

namespace Poly

/-- What a polynomial is worth under a selection. -/
def value (σ : Selection) (p : Poly) : Scalar := .sum (p.monomials.map (·.value σ))

theorem eval_eq_value (v : List Nat) (p : Poly) : p.eval v = p.value (.ofVector v) := rfl

theorem value_le_iff {σ : Selection} {p : Poly} {t : Scalar} :
    p.value σ ≤ t ↔ Below σ p.monomials t := by
  rw [value, Scalar.sum_le_iff, List.forall_mem_map]
  rfl

/-- A monomial that counts is worth no more than the polynomial. -/
theorem le_value {σ : Selection} {p : Poly} {m : Monomial} (hm : m ∈ p.monomials)
    (hmet : σ.meets m.deltas = true) : m.scalar ≤ p.value σ :=
  Monomial.value_le_iff.mp (value_le_iff.mp (Scalar.le_refl _) m hm) hmet

/-- Unless a polynomial is worth nothing, one of its monomials counts for all it is worth. -/
theorem exists_monomial {σ : Selection} {p : Poly} (h : p.value σ ≠ .o) :
    ∃ m ∈ p.monomials, σ.meets m.deltas = true ∧ m.scalar = p.value σ := by
  obtain ⟨m, hm, hval⟩ := List.mem_map.mp (Scalar.sum_mem h)
  rw [show Scalar.sum _ = p.value σ from rfl, Monomial.value] at hval
  split at hval
  · rename_i hmet
    exact ⟨m, hm, hmet, hval⟩
  · exact absurd hval.symm h

/-- No monomial is zero, and all demands are sorted and among `P`. -/
def Proper (P : Delta → Prop) (p : Poly) : Prop :=
  ∀ m ∈ p.monomials, m.scalar ≠ .o ∧ m.Formed P

theorem Proper.mono {P Q : Delta → Prop} {p : Poly} (h : p.Proper P) (hPQ : ∀ d, P d → Q d) :
    p.Proper Q :=
  fun m hm => ⟨(h m hm).1, (h m hm).2.sorted, fun d hd => hPQ d ((h m hm).2.demands d hd)⟩

/-- What demands nothing is worth the same under every choice. -/
theorem Proper.value_eq {p : Poly} (h : p.Proper fun _ => False) (σ τ : Selection) :
    p.value σ = p.value τ := by
  have hvalue : ∀ m ∈ p.monomials, m.value σ = m.value τ := by
    intro m hm
    have hnil : m.deltas = [] :=
      List.eq_nil_iff_forall_not_mem.mpr fun d hd => (h m hm).2.demands d hd
    unfold Monomial.value
    rw [hnil, Selection.meets_nil, Selection.meets_nil]
  unfold value
  rw [List.map_congr_left hvalue]

theorem isZero_iff {p : Poly} : p.isZero = true ↔ p.monomials = [] := List.isEmpty_iff

@[simp] theorem value_zero (σ : Selection) : zero.value σ = .o := rfl

theorem proper_zero (P : Delta → Prop) : zero.Proper P :=
  fun _ hm => absurd hm List.not_mem_nil

/-- The sum of two scalars under the same demands is as proper as they are. -/
theorem proper_step {P : Delta → Prop} (a b : Monomial) (ha : a.scalar ≠ .o ∧ a.Formed P)
    (hb : b.scalar ≠ .o ∧ b.Formed P) (_ : a.deltas = b.deltas) :
    (a.scalar + b.scalar) ≠ .o ∧ Monomial.Formed P ⟨a.scalar + b.scalar, b.deltas⟩ := by
  refine ⟨?_, hb.2.sorted, hb.2.demands⟩
  intro h
  have hle : a.scalar + b.scalar ≤ .o := h ▸ Scalar.le_refl _
  exact ha.1 (Scalar.le_antisymm (Scalar.add_le_iff.mp hle).1 (Scalar.o_le _))

theorem proper_dropAbsorbed {P : Delta → Prop} {ms : List Monomial}
    (h : ∀ m ∈ ms, m.scalar ≠ .o ∧ m.Formed P) : Proper P ⟨dropAbsorbed ms⟩ :=
  fun m hm => h m (mem_dropAbsorbed.mp hm).1

theorem proper_filter {P : Delta → Prop} {ms : List Monomial} (h : ∀ m ∈ ms, m.Formed P) :
    ∀ m ∈ mergeMonomials (ms.filter (!·.isZero)) [], m.scalar ≠ .o ∧ m.Formed P := by
  refine forall_mem_mergeMonomials proper_step ?_ (fun _ hm => absurd hm List.not_mem_nil)
  intro m hm
  rw [List.mem_filter] at hm
  exact ⟨by simpa [Monomial.isZero] using hm.2, h m hm.1⟩

theorem proper_ofMonomials {P : Delta → Prop} {ms : List Monomial} (h : ∀ m ∈ ms, m.Formed P) :
    (ofMonomials ms).Proper P :=
  proper_dropAbsorbed (proper_filter h)

theorem value_ofMonomials_le_iff {P : Delta → Prop} {ms : List Monomial}
    (h : ∀ m ∈ ms, m.Formed P) {σ : Selection} {t : Scalar} :
    (ofMonomials ms).value σ ≤ t ↔ Below σ ms t := by
  have hsorted := fun m hm => (proper_filter h m hm).2.sorted
  rw [value_le_iff, ofMonomials, below_dropAbsorbed hsorted, below_mergeMonomials]
  constructor
  · intro hle m hm
    by_cases hz : m.isZero = true
    · rw [Monomial.value_of_scalar_eq_o (beq_iff_eq.mp hz)]
      exact Scalar.o_le t
    · exact hle.1 m (List.mem_filter.mpr ⟨hm, by simpa using hz⟩)
  · intro hle
    refine ⟨?_, fun _ hm => absurd hm List.not_mem_nil⟩
    exact fun m hm => hle m (List.mem_filter.mp hm).1

theorem add_def (p q : Poly) : p + q =
    if p.isZero then q
    else if q.isZero then p
    else ⟨dropAbsorbed (mergeMonomials p.monomials q.monomials)⟩ := rfl

theorem Proper.add {P : Delta → Prop} {p q : Poly} (hp : p.Proper P) (hq : q.Proper P) :
    (p + q).Proper P := by
  rw [add_def]
  split
  · exact hq
  · split
    · exact hp
    · exact proper_dropAbsorbed (forall_mem_mergeMonomials proper_step hp hq)

theorem value_eq_o_of_isZero {p : Poly} (h : p.isZero = true) (σ : Selection) : p.value σ = .o := by
  rw [value, isZero_iff.mp h]
  rfl

/-- A sum is worth the larger of the two. -/
theorem value_add {P : Delta → Prop} {p q : Poly} (hp : p.Proper P) (hq : q.Proper P)
    (σ : Selection) : (p + q).value σ = p.value σ + q.value σ := by
  apply Scalar.eq_of_le_iff
  intro t
  rw [Scalar.add_le_iff, add_def]
  split
  · rename_i h
    simp [value_eq_o_of_isZero h]
  · split
    · rename_i h
      simp [value_eq_o_of_isZero h]
    · have hsorted := fun m hm =>
        (forall_mem_mergeMonomials proper_step hp hq m hm).2.sorted
      rw [value_le_iff, below_dropAbsorbed hsorted, below_mergeMonomials, value_le_iff,
        value_le_iff]

/-! ## Products -/

/-- Whether a polynomial is not zero and yet nothing of it counts. -/
def silent (σ : Selection) (p : Poly) : Bool := !p.isZero && p.value σ == .o

theorem factors_formed {P : Delta → Prop} {p : Poly} (hp : p.Proper P) :
    ∀ m ∈ p.factors, m.Formed P := by
  intro m hm
  unfold factors at hm
  split at hm
  · rw [List.mem_singleton.mp hm]
    exact Monomial.formed_nil .o
  · exact (hp m hm).2

/-- A factor that counts is worth no more than the polynomial. -/
theorem scalar_le_value {σ : Selection} {p : Poly} {m : Monomial} (hm : m ∈ p.factors)
    (hmet : σ.meets m.deltas = true) : m.scalar ≤ p.value σ := by
  unfold factors at hm
  split at hm
  · rw [List.mem_singleton.mp hm]
    exact Scalar.o_le _
  · exact le_value hm hmet

/-- Unless a polynomial is silent, one of its factors counts for all it is worth. -/
theorem exists_factor {σ : Selection} {p : Poly} (h : p.silent σ = false) :
    ∃ m ∈ p.factors, σ.meets m.deltas = true ∧ m.scalar = p.value σ := by
  unfold factors
  split
  · rename_i hz
    exact ⟨.zero, List.mem_singleton_self _, rfl, (value_eq_o_of_isZero hz σ).symm⟩
  · rename_i hz
    refine exists_monomial fun ho => ?_
    simp [silent, hz, ho] at h

/-- Of a silent polynomial no factor counts. -/
theorem not_meets_of_silent {P : Delta → Prop} {σ : Selection} {p : Poly} (hp : p.Proper P)
    (h : p.silent σ = true) {m : Monomial} (hm : m ∈ p.factors) : ¬ σ.meets m.deltas = true := by
  intro hmet
  simp only [silent, Bool.and_eq_true, Bool.not_eq_true', beq_iff_eq] at h
  have hle := scalar_le_value hm hmet
  unfold factors at hm
  rw [h.1] at hm
  rw [h.2] at hle
  exact (hp m hm).1 (Scalar.le_antisymm hle (Scalar.o_le _))

/-- The products of the factors of `p` with one monomial. -/
def row (p : Poly) (n : Monomial) : Poly := ofMonomials (p.factors.map (· * n))

theorem mul_def (p q : Poly) :
    p * q = ⟨dropAbsorbed ((q.factors.map fun n => (p.row n).monomials).foldr mergeMonomials [])⟩ :=
  rfl

theorem row_formed {P : Delta → Prop} {p : Poly} {n : Monomial} (hp : p.Proper P)
    (hn : n.Formed P) : ∀ m ∈ p.factors.map (· * n), m.Formed P := by
  intro m hm
  obtain ⟨a, ha, rfl⟩ := List.mem_map.mp hm
  exact (factors_formed hp a ha).mul hn

theorem proper_rows {P : Delta → Prop} {p : Poly} (hp : p.Proper P) :
    ∀ {ns : List Monomial}, (∀ n ∈ ns, n.Formed P) →
      ∀ m ∈ (ns.map fun n => (p.row n).monomials).foldr mergeMonomials [],
        m.scalar ≠ .o ∧ m.Formed P
  | [], _ => fun _ hm => absurd hm List.not_mem_nil
  | n :: ns, hns => by
      have hns := List.forall_mem_cons.mp hns
      exact forall_mem_mergeMonomials proper_step (proper_ofMonomials (row_formed hp hns.1))
        (proper_rows hp hns.2)

theorem Proper.mul {P : Delta → Prop} {p q : Poly} (hp : p.Proper P) (hq : q.Proper P) :
    (p * q).Proper P :=
  proper_dropAbsorbed (proper_rows hp (factors_formed hq))

theorem below_rows {P : Delta → Prop} {p : Poly} (hp : p.Proper P) {σ : Selection} {t : Scalar} :
    ∀ {ns : List Monomial}, (∀ n ∈ ns, n.Formed P) →
      (Below σ ((ns.map fun n => (p.row n).monomials).foldr mergeMonomials []) t ↔
        ∀ n ∈ ns, ∀ m ∈ p.factors, (m * n).value σ ≤ t)
  | [], _ => by
      constructor
      · exact fun _ _ hn => absurd hn List.not_mem_nil
      · exact fun _ _ hm => absurd hm List.not_mem_nil
  | n :: ns, hns => by
      have hns := List.forall_mem_cons.mp hns
      rw [List.map_cons, List.foldr_cons, below_mergeMonomials, below_rows hp hns.2,
        List.forall_mem_cons, ← value_le_iff]
      rw [show (p.row n).value σ ≤ t ↔ _ from value_ofMonomials_le_iff (row_formed hp hns.1)]
      exact and_congr_left fun _ => List.forall_mem_map

theorem value_mul_le_iff {P : Delta → Prop} {p q : Poly} (hp : p.Proper P) (hq : q.Proper P)
    {σ : Selection} {t : Scalar} :
    (p * q).value σ ≤ t ↔ ∀ n ∈ q.factors, ∀ m ∈ p.factors, (m * n).value σ ≤ t := by
  have hsorted := fun m hm => (proper_rows hp (factors_formed hq) m hm).2.sorted
  rw [value_le_iff, mul_def, below_dropAbsorbed hsorted, below_rows hp (factors_formed hq)]

/-- **The value of a product.** It is the product of the values, except that a silent factor makes the
product worth nothing. -/
theorem value_mul {P : Delta → Prop} {p q : Poly} (hp : p.Proper P) (hq : q.Proper P)
    (σ : Selection) :
    (p * q).value σ = if p.silent σ || q.silent σ then .o else p.value σ * q.value σ := by
  apply Scalar.eq_of_le_iff
  intro t
  rw [value_mul_le_iff hp hq]
  split
  · -- One factor is silent, so of no product both parts count.
    rename_i h
    refine iff_of_true ?_ (Scalar.o_le t)
    intro n hn m hm
    rw [Monomial.value_mul]
    rcases Bool.or_eq_true_iff.mp h with h | h
    · simp [not_meets_of_silent hp h hm]
    · simp [not_meets_of_silent hq h hn]
  · rename_i h
    rw [Bool.or_eq_true_iff, not_or, Bool.not_eq_true, Bool.not_eq_true] at h
    constructor
    · -- The product of the two largest factors is among the products.
      intro hle
      obtain ⟨m, hm, hmet, hmval⟩ := exists_factor h.1
      obtain ⟨n, hn, hnet, hnval⟩ := exists_factor h.2
      have := hle n hn m hm
      rwa [Monomial.value_mul, hmet, hnet, hmval, hnval] at this
    · intro hle n hn m hm
      rw [Monomial.value_mul]
      split
      · rename_i hmet
        rw [Bool.and_eq_true_iff] at hmet
        exact Scalar.le_trans
          (Scalar.mul_le_mul (scalar_le_value hm hmet.1) (scalar_le_value hn hmet.2)) hle
      · exact Scalar.o_le t

/-- Where no factor is unbounded, silence makes no difference. -/
theorem value_mul_of_ne_i {P : Delta → Prop} {p q : Poly} (hp : p.Proper P) (hq : q.Proper P)
    {σ : Selection} (hpi : p.value σ ≠ .i) (hqi : q.value σ ≠ .i) :
    (p * q).value σ = p.value σ * q.value σ := by
  rw [value_mul hp hq]
  split
  · rename_i h
    symm
    rw [Scalar.mul_eq_o_iff]
    simp only [silent, Bool.or_eq_true, Bool.and_eq_true, beq_iff_eq] at h
    rcases h with h | h
    · exact .inl ⟨h.2, hqi⟩
    · exact .inr ⟨h.2, hpi⟩
  · rfl

/-- A product is unbounded where one factor is and the other is not silent. -/
theorem value_mul_eq_i_iff {P : Delta → Prop} {p q : Poly} (hp : p.Proper P) (hq : q.Proper P)
    {σ : Selection} :
    (p * q).value σ = .i ↔
      (p.value σ = .i ∧ q.silent σ = false) ∨ (p.silent σ = false ∧ q.value σ = .i) := by
  have hnot : ∀ r : Poly, r.value σ = .i → r.silent σ = false := by
    intro r hr
    simp [silent, hr]
  rw [value_mul hp hq]
  cases hps : p.silent σ with
  | true =>
      constructor
      · exact fun h => absurd h (by simp)
      · rintro (h | h)
        · exact absurd (hnot p h.1) (by simp [hps])
        · exact absurd h.1 (by simp)
  | false =>
      cases hqs : q.silent σ with
      | true =>
          constructor
          · exact fun h => absurd h (by simp)
          · rintro (h | h)
            · exact absurd h.2 (by simp)
            · exact absurd (hnot q h.2) (by simp [hqs])
      | false => simp [Scalar.mul_eq_i_iff]

/-! ## Sums over a list -/

/-- The sum of one polynomial for each member of a list. -/
def sumOver {α : Type} (zs : List α) (f : α → Poly) : Poly :=
  zs.foldl (fun acc z => acc + f z) .zero

section SumOver

variable {α : Type} {P : Delta → Prop} {f : α → Poly}

theorem proper_foldl_add : ∀ {zs : List α} {acc : Poly}, acc.Proper P →
    (∀ z ∈ zs, (f z).Proper P) → (zs.foldl (fun acc z => acc + f z) acc).Proper P
  | [], _, hacc, _ => hacc
  | z :: zs, acc, hacc, hzs => by
      have hzs := List.forall_mem_cons.mp hzs
      rw [List.foldl_cons]
      exact proper_foldl_add (hacc.add hzs.1) hzs.2

theorem proper_sumOver {zs : List α} (h : ∀ z ∈ zs, (f z).Proper P) : (sumOver zs f).Proper P :=
  proper_foldl_add (proper_zero P) h

theorem value_foldl_add (σ : Selection) : ∀ {zs : List α} {acc : Poly}, acc.Proper P →
    (∀ z ∈ zs, (f z).Proper P) →
    (zs.foldl (fun acc z => acc + f z) acc).value σ =
      (zs.map fun z => (f z).value σ).foldl (· + ·) (acc.value σ)
  | [], _, _, _ => rfl
  | z :: zs, acc, hacc, hzs => by
      have hzs := List.forall_mem_cons.mp hzs
      rw [List.foldl_cons, value_foldl_add σ (hacc.add hzs.1) hzs.2, value_add hacc hzs.1]
      rfl

theorem value_sumOver {zs : List α} (h : ∀ z ∈ zs, (f z).Proper P) (σ : Selection) :
    (sumOver zs f).value σ = .sum (zs.map fun z => (f z).value σ) :=
  value_foldl_add σ (proper_zero P) h

end SumOver

/-! ## Constants, choices and escalation -/

theorem proper_ofScalar {P : Delta → Prop} (s : Scalar) : (ofScalar s).Proper P := by
  refine proper_ofMonomials ?_
  intro m hm
  rw [List.mem_singleton.mp hm]
  exact Monomial.formed_nil s

theorem proper_unit {P : Delta → Prop} : unit.Proper P := proper_ofScalar .m

theorem value_unit (σ : Selection) : unit.value σ = .m := rfl

theorem silent_zero (σ : Selection) : zero.silent σ = false := rfl

theorem silent_unit (σ : Selection) : unit.silent σ = false := rfl

theorem choice_formed {P : Delta → Prop} {k : Nat} {scalars : List Scalar}
    (h : ∀ x, x < scalars.length → P ⟨x, k⟩) :
    ∀ m ∈ scalars.mapIdx fun x s => Monomial.ofDeltas s [⟨x, k⟩], m.Formed P := by
  intro m hm
  obtain ⟨x, hx, rfl⟩ := List.mem_mapIdx.mp hm
  exact Monomial.formed_ofDeltas _ (fun d hd => List.mem_singleton.mp hd ▸ h x hx)

theorem proper_ofChoice {P : Delta → Prop} {k : Nat} {scalars : List Scalar}
    (h : ∀ x, x < scalars.length → P ⟨x, k⟩) : (ofChoice k scalars).Proper P :=
  proper_ofMonomials (choice_formed h)

/-- A choice is worth the scalar of the value that was chosen. -/
theorem value_ofChoice (σ : Selection) {k x : Nat} (hx : σ k = some x) (scalars : List Scalar) :
    (ofChoice k scalars).value σ = scalars[x]?.getD .o := by
  apply Scalar.eq_of_le_iff
  intro t
  rw [ofChoice, value_ofMonomials_le_iff (choice_formed (P := fun _ => True) fun _ _ => trivial)]
  have hvalue : ∀ (y : Nat) (s : Scalar),
      (Monomial.ofDeltas s [⟨y, k⟩]).value σ = if x = y then s else .o := by
    intro y s
    rw [Monomial.value_ofDeltas]
    simp [Selection.meets, hx]
  constructor
  · intro h
    cases hs : scalars[x]? with
    | none => exact Scalar.o_le t
    | some s =>
        obtain ⟨hlt, hget⟩ := List.getElem?_eq_some_iff.mp hs
        have := h _ (List.mem_mapIdx.mpr ⟨x, hlt, rfl⟩)
        rwa [hvalue, if_pos rfl, hget] at this
  · intro h m hm
    obtain ⟨y, hy, rfl⟩ := List.mem_mapIdx.mp hm
    rw [hvalue]
    split
    · rename_i hxy
      subst hxy
      rwa [List.getElem?_eq_getElem hy] at h
    · exact Scalar.o_le t

/-- A choice is worth no more than the largest of its scalars, also where nothing was chosen. -/
theorem value_ofChoice_le {scalars : List Scalar} {t : Scalar} (h : ∀ s ∈ scalars, s ≤ t) (k : Nat)
    (σ : Selection) : (ofChoice k scalars).value σ ≤ t := by
  rw [ofChoice, value_ofMonomials_le_iff (choice_formed (P := fun _ => True) fun _ _ => trivial)]
  intro m hm
  obtain ⟨y, hy, rfl⟩ := List.mem_mapIdx.mp hm
  rw [Monomial.value_ofDeltas]
  split
  · exact h _ (List.getElem_mem hy)
  · exact Scalar.o_le t

theorem escalate_formed {P : Delta → Prop} {f : Scalar → Bool} {p : Poly} (hp : p.Proper P) :
    ∀ n ∈ p.monomials.map fun m => if f m.scalar then m.withScalar .i else m, n.Formed P := by
  intro n hn
  obtain ⟨m, hm, rfl⟩ := List.mem_map.mp hn
  split
  · exact Monomial.formed_ofDeltas .i (hp m hm).2.demands
  · exact (hp m hm).2

theorem Proper.escalate {P : Delta → Prop} {p : Poly} (f : Scalar → Bool) (hp : p.Proper P) :
    (p.escalate f).Proper P :=
  proper_ofMonomials (escalate_formed hp)

theorem mem_promoted {f : Scalar → Bool} {p : Poly} {ds : List Delta} :
    ds ∈ p.promoted f ↔ ∃ m ∈ p.monomials, f m.scalar = true ∧ m.deltas = ds := by
  simp [promoted, and_assoc]

/-- Escalation makes a polynomial unbounded where something promoted counts, and leaves it alone
elsewhere. -/
theorem value_escalate {P : Delta → Prop} {f : Scalar → Bool} {p : Poly} (hp : p.Proper P)
    (σ : Selection) :
    (p.escalate f).value σ = if (p.promoted f).any σ.meets then .i else p.value σ := by
  apply Scalar.eq_of_le_iff
  intro t
  rw [Poly.escalate, value_ofMonomials_le_iff (escalate_formed hp)]
  have hvalue : ∀ m : Monomial, (if f m.scalar then m.withScalar .i else m).value σ =
      if f m.scalar && σ.meets m.deltas then .i else m.value σ := by
    intro m
    cases hf : f m.scalar with
    | false => rfl
    | true =>
        rw [if_pos rfl, Monomial.value_withScalar, Bool.true_and]
        split
        · rfl
        · rename_i h
          rw [Monomial.value, if_neg h]
  split
  · rename_i h
    obtain ⟨ds, hds, hmet⟩ := List.any_eq_true.mp h
    obtain ⟨m, hm, hf, rfl⟩ := mem_promoted.mp hds
    constructor
    · intro hle
      have := hle _ (List.mem_map.mpr ⟨m, hm, rfl⟩)
      rwa [hvalue, hf, hmet] at this
    · intro hle n _
      exact Scalar.le_trans (Scalar.le_i _) hle
  · rename_i h
    rw [value_le_iff]
    have hsame : ∀ m ∈ p.monomials,
        (if f m.scalar then m.withScalar .i else m).value σ = m.value σ := by
      intro m hm
      rw [hvalue, if_neg]
      intro hand
      rw [Bool.and_eq_true_iff] at hand
      exact h (List.any_eq_true.mpr ⟨m.deltas, mem_promoted.mpr ⟨m, hm, hand.1, rfl⟩, hand.2⟩)
    constructor
    · intro hle m hm
      rw [← hsame m hm]
      exact hle _ (List.mem_map.mpr ⟨m, hm, rfl⟩)
    · intro hle n hn
      obtain ⟨m, hm, rfl⟩ := List.mem_map.mp hn
      rw [hsame m hm]
      exact hle m hm

theorem value_escalate_eq_i_iff {P : Delta → Prop} {f : Scalar → Bool} {p : Poly} {σ : Selection}
    (hp : p.Proper P) :
    (p.escalate f).value σ = .i ↔ (p.promoted f).any σ.meets = true ∨ p.value σ = .i := by
  rw [value_escalate hp]
  split
  · rename_i h
    exact ⟨fun _ => .inl h, fun _ => rfl⟩
  · rename_i h
    exact ⟨.inr, fun hor => hor.resolve_left h⟩

/-- As long as a polynomial is bounded, something promoted counts exactly if its scalar is one that is
promoted, provided that with a scalar every larger one is. -/
theorem any_promoted_iff {P : Delta → Prop} {f : Scalar → Bool} {p : Poly} {σ : Selection}
    (hp : p.Proper P) (hi : p.value σ ≠ .i)
    (hf : ∀ a b, a ≠ .o → f a = true → a ≤ b → b ≠ .i → f b = true) :
    (p.promoted f).any σ.meets = true ↔ p.value σ ≠ .o ∧ f (p.value σ) = true := by
  rw [List.any_eq_true]
  constructor
  · rintro ⟨ds, hds, hmet⟩
    obtain ⟨m, hm, hfm, rfl⟩ := mem_promoted.mp hds
    have hle := le_value hm hmet
    have hne := (hp m hm).1
    refine ⟨?_, hf _ _ hne hfm hle hi⟩
    intro ho
    exact hne (Scalar.le_antisymm (ho ▸ hle) (Scalar.o_le _))
  · rintro ⟨ho, hfv⟩
    obtain ⟨m, hm, hmet, heq⟩ := exists_monomial ho
    exact ⟨m.deltas, mem_promoted.mpr ⟨m, hm, by rw [heq]; exact hfv, rfl⟩, hmet⟩

theorem mem_infinities {p : Poly} {ds : List Delta} :
    ds ∈ p.infinities [] ↔ ∃ m ∈ p.monomials, m.scalar = .i ∧ m.deltas = ds := by
  simp [infinities, and_assoc]

/-- A polynomial is unbounded exactly where the demands of one of its infinities are met. -/
theorem value_eq_i_iff {σ : Selection} {p : Poly} :
    p.value σ = .i ↔ ∃ ds ∈ p.infinities [], σ.meets ds = true := by
  constructor
  · intro h
    obtain ⟨m, hm, hmet, hi⟩ := exists_monomial (σ := σ) (p := p) (by rw [h]; decide)
    exact ⟨m.deltas, mem_infinities.mpr ⟨m, hm, hi.trans h, rfl⟩, hmet⟩
  · rintro ⟨ds, hds, hmet⟩
    obtain ⟨m, hm, hi, rfl⟩ := mem_infinities.mp hds
    exact Scalar.le_antisymm (Scalar.le_i _) (hi ▸ le_value hm hmet)

/-- What has no monomial `i` is bounded under every choice. -/
theorem value_ne_i_of_hasInfinity {p : Poly} (h : p.hasInfinity = false) (σ : Selection) :
    p.value σ ≠ .i := by
  intro hi
  obtain ⟨ds, hds, _⟩ := value_eq_i_iff.mp hi
  obtain ⟨m, hm, hscalar, _⟩ := mem_infinities.mp hds
  have hnone := List.any_eq_false.mp h m hm
  exact hnone (beq_iff_eq.mpr hscalar)

end Poly

end GrowthFlow
