import Mathlib.Data.List.Sort
import GrowthFlow.Proofs.PolyValue

/-!
# The normal form of polynomials

A closure is found complete when the next power changes no polynomial, and "changes" means that the list of
monomials is another one. So a polynomial must have one list only. This module says which one that is, that
every operation leaves it, and that it is unique.

Uniqueness rests on the superfluous monomials being gone. Look at a monomial of a normal form under its own
demands and no others: whatever else counts there demands less, so it must be worth less, or the monomial
would be superfluous beside it. The polynomial is then worth exactly that one scalar (`value_own`). Another
normal form of the same worth has a monomial for it with no more demands, and the argument applied to that
one leads back (`mem_of_value_eq`). Vectors that choose at every index would not do: `m` and the sum of `m`
under each value of an index agree on all of them. It takes partial choices to tell the two apart.
-/

namespace GrowthFlow

open Ordered (lt_asymm)

/-! ## Increasing by demands -/

namespace Monomial

/-- The order in which a polynomial lists its monomials. -/
def Before (m n : Monomial) : Prop := m.deltas < n.deltas

instance : DecidableRel Before := fun m n => inferInstanceAs (Decidable (m.deltas < n.deltas))

instance : Std.Irrefl Before := ⟨fun m => Ordered.Total.irrefl m.deltas⟩

instance : Std.Antisymm Before := ⟨fun _ _ h h' => absurd h' (lt_asymm h)⟩

end Monomial

theorem increasing_insertMonomial (m : Monomial) {ns : List Monomial}
    (h : ns.Pairwise Monomial.Before) : (insertMonomial m ns).Pairwise Monomial.Before := by
  induction ns with
  | nil => exact List.pairwise_singleton ..
  | cons n ns ih =>
      have hn := List.pairwise_cons.mp h
      rw [insertMonomial]
      split
      · rename_i hmn
        refine List.pairwise_cons.mpr ⟨?_, h⟩
        intro x hx
        rcases List.mem_cons.mp hx with rfl | hx
        · exact hmn
        · exact Ordered.Total.trans hmn (hn.1 x hx)
      · split
        · -- behind `n`, and so is whatever `m` is summed with
          rename_i hnm
          refine List.pairwise_cons.mpr ⟨?_, ih hn.2⟩
          exact forall_mem_insertMonomial (fun _ _ _ hb _ => hb) hnm hn.1
        · exact List.pairwise_cons.mpr ⟨hn.1, hn.2⟩

theorem increasing_mergeMonomials (ms : List Monomial) {ns : List Monomial}
    (h : ns.Pairwise Monomial.Before) : (mergeMonomials ms ns).Pairwise Monomial.Before := by
  induction ms with
  | nil => exact h
  | cons m ms ih => exact increasing_insertMonomial m ih

/-- Rows that are merged one after another make an increasing list. -/
theorem increasing_rows (rows : List (List Monomial)) :
    (rows.foldr mergeMonomials []).Pairwise Monomial.Before := by
  induction rows with
  | nil => exact List.Pairwise.nil
  | cons row rows ih => exact increasing_mergeMonomials row ih

/-! ## What every operation gives -/

namespace Poly

/-- The normal form: increasing by demands, and each monomial counts for something, has its demands in
order and is not superfluous beside another one. -/
structure Normal (p : Poly) : Prop where
  increasing : p.monomials.Pairwise Monomial.Before
  nonzero : ∀ m ∈ p.monomials, m.scalar ≠ .o
  sorted : ∀ m ∈ p.monomials, Sorted m.deltas
  irredundant : ∀ m ∈ p.monomials, ∀ n ∈ p.monomials, n.absorbs m = true → n = m

instance (ds : List Delta) : Decidable (Sorted ds) :=
  inferInstanceAs (Decidable (ds.Pairwise fun d e => d.index < e.index))

instance (p : Poly) : Decidable p.Normal :=
  decidable_of_iff
    (p.monomials.Pairwise Monomial.Before ∧ (∀ m ∈ p.monomials, m.scalar ≠ .o) ∧
      (∀ m ∈ p.monomials, Sorted m.deltas) ∧
      ∀ m ∈ p.monomials, ∀ n ∈ p.monomials, n.absorbs m = true → n = m)
    ⟨fun h => ⟨h.1, h.2.1, h.2.2.1, h.2.2.2⟩,
      fun h => ⟨h.increasing, h.nonzero, h.sorted, h.irredundant⟩⟩

theorem Normal.proper {p : Poly} (h : p.Normal) : p.Proper fun _ => True :=
  fun m hm => ⟨h.nonzero m hm, h.sorted m hm, fun _ _ => trivial⟩

theorem formed_of_sorted {ms : List Monomial} (h : ∀ m ∈ ms, Sorted m.deltas) :
    ∀ m ∈ ms, m.Formed fun _ => True :=
  fun m hm => ⟨h m hm, fun _ _ => trivial⟩

/-- Whatever increases is in normal form once the superfluous monomials are left out. -/
theorem normal_dropAbsorbed {P : Delta → Prop} {ms : List Monomial}
    (hinc : ms.Pairwise Monomial.Before) (hms : ∀ m ∈ ms, m.scalar ≠ .o ∧ m.Formed P) :
    Normal ⟨dropAbsorbed ms⟩ where
  increasing := List.Pairwise.filter _ hinc
  nonzero m hm := (hms m (mem_dropAbsorbed.mp hm).1).1
  sorted m hm := (hms m (mem_dropAbsorbed.mp hm).1).2.sorted
  irredundant _ hm n hn := (mem_dropAbsorbed.mp hm).2 n (mem_dropAbsorbed.mp hn).1

theorem normal_zero : zero.Normal :=
  normal_dropAbsorbed (P := fun _ => True) List.Pairwise.nil fun _ hm => absurd hm List.not_mem_nil

theorem normal_ofMonomials {ms : List Monomial} (h : ∀ m ∈ ms, Sorted m.deltas) :
    (ofMonomials ms).Normal :=
  normal_dropAbsorbed (increasing_mergeMonomials _ List.Pairwise.nil)
    (proper_filter (formed_of_sorted h))

theorem normal_unit : unit.Normal := by
  refine normal_ofMonomials fun m hm => ?_
  rw [List.mem_singleton.mp hm]
  exact List.Pairwise.nil

theorem Normal.add {p q : Poly} (hp : p.Normal) (hq : q.Normal) : (p + q).Normal := by
  rw [add_def]
  split
  · exact hq
  · split
    · exact hp
    · exact normal_dropAbsorbed (increasing_mergeMonomials _ hq.increasing)
        (forall_mem_mergeMonomials proper_step hp.proper hq.proper)

theorem Normal.mul {p q : Poly} (hp : p.Normal) (hq : q.Normal) : (p * q).Normal :=
  normal_dropAbsorbed (increasing_rows _) (proper_rows hp.proper (factors_formed hq.proper))

theorem Normal.escalate {p : Poly} (hp : p.Normal) (f : Scalar → Bool) : (p.escalate f).Normal :=
  normal_ofMonomials fun n hn => (escalate_formed hp.proper n hn).sorted

theorem normal_sumOver {α : Type} {f : α → Poly} {zs : List α} (h : ∀ z ∈ zs, (f z).Normal) :
    (sumOver zs f).Normal := by
  have hfold : ∀ (zs : List α) (acc : Poly), acc.Normal → (∀ z ∈ zs, (f z).Normal) →
      (zs.foldl (fun acc z => acc + f z) acc).Normal := by
    intro zs
    induction zs with
    | nil => exact fun acc hacc _ => hacc
    | cons z zs ih =>
        intro acc hacc hzs
        rw [List.forall_mem_cons] at hzs
        exact ih _ (hacc.add hzs.1) hzs.2
  exact hfold zs .zero normal_zero h

end Poly

/-! ## Partial choices -/

/-- Demands that do not contradict each other: a partial choice. -/
def Consistent (ds : List Delta) : Prop := ∀ d ∈ ds, ∀ e ∈ ds, d.index = e.index → d = e

theorem Sorted.consistent {ds : List Delta} (h : Sorted ds) : Consistent ds :=
  fun _ hd _ he => h.unique hd he

namespace Selection

/-- The choices that a list demands, and no others. -/
def ofDemands (ds : List Delta) : Selection := fun k => (ds.find? (·.index == k)).map (·.value)

theorem ofDemands_eq_iff {ds : List Delta} (h : Consistent ds) {e : Delta} :
    ofDemands ds e.index = some e.value ↔ e ∈ ds := by
  unfold ofDemands
  rw [Option.map_eq_some_iff]
  constructor
  · rintro ⟨d, hfind, hvalue⟩
    have hindex : d.index = e.index := by simpa using List.find?_some hfind
    have hde : d = e := by
      cases d
      cases e
      simp_all
    exact hde ▸ List.mem_of_find?_eq_some hfind
  · intro he
    cases hfind : ds.find? (·.index == e.index) with
    | none =>
        have hnone := List.find?_eq_none.mp hfind e he
        exact absurd BEq.rfl hnone
    | some d =>
        have hindex : d.index = e.index := by simpa using List.find?_some hfind
        have hde := h d (List.mem_of_find?_eq_some hfind) e he hindex
        exact ⟨d, rfl, by rw [hde]⟩

/-- A partial choice meets the demands that are among its own. -/
theorem meets_ofDemands {ds es : List Delta} (h : Consistent ds) :
    (ofDemands ds).meets es = true ↔ ∀ e ∈ es, e ∈ ds := by
  rw [meets_iff]
  exact forall_congr' fun e => imp_congr_right fun _ => ofDemands_eq_iff h

end Selection

namespace Poly

/-- Under its own demands, a monomial of a normal form is all that the polynomial is worth. -/
theorem Normal.value_own {p : Poly} (hp : p.Normal) {m : Monomial} (hm : m ∈ p.monomials) :
    p.value (.ofDemands m.deltas) = m.scalar := by
  have hown := (hp.sorted m hm).consistent
  apply Scalar.le_antisymm
  · rw [value_le_iff]
    intro n hn
    rw [Monomial.value_le_iff, Selection.meets_ofDemands hown]
    intro hsub
    -- If `n` were worth more, it would make `m` superfluous.
    by_cases hle : n.scalar ≤ m.scalar
    · exact hle
    · have hge : m.scalar ≤ n.scalar := Nat.le_of_not_le hle
      have hnm := hp.irredundant m hm n hn (Monomial.absorbs_iff.mpr ⟨hsub, hge⟩)
      exact absurd (hnm ▸ Scalar.le_refl _) hle
  · exact le_value hm ((Selection.meets_ofDemands hown).mpr fun _ he => he)

/-- What `p` is worth under the demands of its monomial `m`, a normal form of the same worth gets from a
monomial with no other demands. -/
theorem Normal.exists_counterpart {p q : Poly} (hp : p.Normal)
    (h : ∀ ds, Sorted ds → p.value (.ofDemands ds) = q.value (.ofDemands ds)) {m : Monomial}
    (hm : m ∈ p.monomials) :
    ∃ n ∈ q.monomials, (∀ d ∈ n.deltas, d ∈ m.deltas) ∧ n.scalar = m.scalar := by
  have hsorted := hp.sorted m hm
  have hvalue : q.value (.ofDemands m.deltas) = m.scalar := by
    rw [← h m.deltas hsorted]
    exact hp.value_own hm
  obtain ⟨n, hn, hmet, hscalar⟩ :=
    exists_monomial (σ := .ofDemands m.deltas) (by rw [hvalue]; exact hp.nonzero m hm)
  exact ⟨n, hn, (Selection.meets_ofDemands hsorted.consistent).mp hmet, hscalar.trans hvalue⟩

theorem Normal.mem_of_value_eq {p q : Poly} (hp : p.Normal) (hq : q.Normal)
    (h : ∀ ds, Sorted ds → p.value (.ofDemands ds) = q.value (.ofDemands ds)) {m : Monomial}
    (hm : m ∈ p.monomials) : m ∈ q.monomials := by
  obtain ⟨n, hn, hsub, hscalar⟩ := hp.exists_counterpart h hm
  obtain ⟨k, hk, hsub', hscalar'⟩ := hq.exists_counterpart (fun ds hds => (h ds hds).symm) hn
  -- The counterpart of the counterpart makes `m` superfluous, so it is `m`, and nothing was lost.
  have hkm : k = m := by
    refine hp.irredundant m hm k hk (Monomial.absorbs_iff.mpr ⟨fun d hd => hsub d (hsub' d hd), ?_⟩)
    rw [hscalar', hscalar]
    exact Scalar.le_refl _
  rw [hkm] at hsub'
  have hdeltas : n.deltas = m.deltas :=
    (sublist_of_sorted (hq.sorted n hn) (hp.sorted m hm) hsub).antisymm
      (sublist_of_sorted (hp.sorted m hm) (hq.sorted n hn) hsub')
  have hnm : n = m := by
    cases n
    cases m
    simp_all
  exact hnm ▸ hn

/-- Two normal forms that are worth the same under every partial choice are equal. -/
theorem Normal.ext_demands {p q : Poly} (hp : p.Normal) (hq : q.Normal)
    (h : ∀ ds, Sorted ds → p.value (.ofDemands ds) = q.value (.ofDemands ds)) : p = q := by
  have hmonomials : p.monomials = q.monomials := by
    refine hp.increasing.eq_of_mem_iff hq.increasing fun m => ?_
    exact ⟨hp.mem_of_value_eq hq h, hq.mem_of_value_eq hp fun ds hds => (h ds hds).symm⟩
  cases p
  cases q
  cases hmonomials
  rfl

theorem Normal.ext {p q : Poly} (hp : p.Normal) (hq : q.Normal)
    (h : ∀ σ, p.value σ = q.value σ) : p = q :=
  hp.ext_demands hq fun ds _ => h (.ofDemands ds)

theorem value_ofMonomials {ms : List Monomial} (h : ∀ m ∈ ms, Sorted m.deltas) (σ : Selection) :
    (ofMonomials ms).value σ = .sum (ms.map (·.value σ)) := by
  apply Scalar.eq_of_le_iff
  intro t
  rw [value_ofMonomials_le_iff (formed_of_sorted h), Scalar.sum_le_iff, List.forall_mem_map]
  rfl

/-- A sum of monomials does not depend on their order, nor on how often one is given. -/
theorem ofMonomials_congr {ms ns : List Monomial} (hms : ∀ m ∈ ms, Sorted m.deltas)
    (hmem : ∀ m, m ∈ ns ↔ m ∈ ms) : ofMonomials ns = ofMonomials ms := by
  have hns : ∀ m ∈ ns, Sorted m.deltas := fun m hm => hms m ((hmem m).mp hm)
  refine (normal_ofMonomials hns).ext (normal_ofMonomials hms) fun σ => ?_
  apply Scalar.eq_of_le_iff
  intro t
  rw [value_ofMonomials_le_iff (formed_of_sorted hns),
    value_ofMonomials_le_iff (formed_of_sorted hms)]
  exact forall_congr' fun m => imp_congr_left (hmem m)

end Poly

end GrowthFlow
