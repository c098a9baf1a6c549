import GrowthFlow.Proofs.NormalForm

/-!
# One form for every monomial

A monomial is built by adding its demands one after the other, and its demands are compared as lists. So the
order in which they come, and how often each one comes, must leave no trace.

Insertion is not looked at again for this. A monomial is *reduced* when its demands are sorted and zero
makes none, and two reduced monomials that are worth the same under every selection are equal
(`Reduced.eq_of_value_eq`): under the demands of the first, and no others, the second still counts, so it
makes no other demand, and the same holds the other way round. What a list of demands is worth, and what a
product is worth, is known and mentions no order.

An unbounded scalar is the one exception to the laws of products. It outlives a factor that is zero, but
not a contradiction between the demands, so with it the grouping of a product matters.
-/

namespace GrowthFlow

/-- Demands are a partial choice unless two of them ask for different values at one index. -/
theorem consistent_iff {ds : List Delta} :
    Consistent ds ↔ ¬ ∃ d ∈ ds, ∃ e ∈ ds, d.index = e.index ∧ d.value ≠ e.value := by
  constructor
  · rintro h ⟨d, hd, e, he, hindex, hvalue⟩
    exact hvalue (congrArg Delta.value (h d hd e he hindex))
  · intro h d hd e he hindex
    by_cases hvalue : d.value = e.value
    · cases d
      cases e
      simp_all
    · exact absurd ⟨d, hd, e, he, hindex, hvalue⟩ h

namespace Selection

theorem meets_append (σ : Selection) (ds es : List Delta) :
    σ.meets (ds ++ es) = (σ.meets ds && σ.meets es) := List.all_append

/-- What a selection meets does not depend on the order of the demands or on their number. -/
theorem meets_congr (σ : Selection) {ds es : List Delta} (h : ∀ d, d ∈ ds ↔ d ∈ es) :
    σ.meets ds = σ.meets es := by
  rw [Bool.eq_iff_iff]
  exact ⟨meets_mono fun d hd => (h d).mpr hd, meets_mono fun d hd => (h d).mp hd⟩

/-- Demands that contradict each other are never met. -/
theorem meets_of_not_consistent (σ : Selection) {ds : List Delta} (h : ¬ Consistent ds) :
    σ.meets ds = false := by
  rw [consistent_iff, not_not] at h
  obtain ⟨d, hd, e, he, hindex, hvalue⟩ := h
  rw [← Bool.not_eq_true, meets_iff]
  intro hmet
  have hde : some d.value = some e.value := by rw [← hmet d hd, ← hmet e he, hindex]
  exact hvalue (Option.some.inj hde)

end Selection

namespace Monomial

/-! ## Reduced monomials -/

/-- The demands are sorted, and zero makes none. -/
structure Reduced (m : Monomial) : Prop where
  sorted : Sorted m.deltas
  bare : m.scalar = .o → m.deltas = []

theorem reduced_ofScalar (s : Scalar) : (ofScalar s).Reduced := ⟨List.Pairwise.nil, fun _ => rfl⟩

theorem reduced_zero : zero.Reduced := reduced_ofScalar .o

theorem Reduced.insert {m : Monomial} (h : m.Reduced) (d : Delta) : (m.insert d).Reduced := by
  unfold Monomial.insert
  split
  · exact reduced_zero
  · rename_i hs
    split
    · rename_i ds hds
      exact ⟨sorted_insertDelta? h.sorted hds, fun ho => absurd ho hs⟩
    · exact reduced_zero

theorem Reduced.foldl_insert {m : Monomial} (h : m.Reduced) (ds : List Delta) :
    (ds.foldl Monomial.insert m).Reduced := by
  induction ds generalizing m with
  | nil => exact h
  | cons d ds ih => exact ih (h.insert d)

theorem reduced_ofDeltas (s : Scalar) (ds : List Delta) : (ofDeltas s ds).Reduced :=
  (reduced_ofScalar s).foldl_insert ds

theorem Reduced.mul {a : Monomial} (ha : a.Reduced) (b : Monomial) : (a * b).Reduced := by
  rw [mul_def]
  split
  · exact reduced_zero
  · rename_i hs
    have hstart : Reduced ⟨a.scalar * b.scalar, a.deltas⟩ := ⟨ha.sorted, fun ho => absurd ho hs⟩
    exact hstart.foldl_insert b.deltas

/-! ## Equal values, equal monomials -/

/-- Under its own demands a monomial is worth its scalar. -/
theorem Reduced.value_own {m : Monomial} (h : m.Reduced) :
    m.value (.ofDemands m.deltas) = m.scalar := by
  rw [value, if_pos ((Selection.meets_ofDemands h.sorted.consistent).mpr fun _ he => he)]

/-- A monomial that counts under a partial choice demands nothing beyond it and gives its scalar. -/
theorem part_of_value {m : Monomial} {ds : List Delta} (hds : Consistent ds)
    (h : m.value (.ofDemands ds) ≠ .o) :
    (∀ d ∈ m.deltas, d ∈ ds) ∧ m.value (.ofDemands ds) = m.scalar := by
  rw [value] at h ⊢
  split at h
  · rename_i hmet
    rw [if_pos hmet]
    exact ⟨(Selection.meets_ofDemands hds).mp hmet, rfl⟩
  · exact absurd rfl h

theorem Reduced.eq_of_value_eq {a b : Monomial} (ha : a.Reduced) (hb : b.Reduced)
    (h : ∀ σ, a.value σ = b.value σ) : a = b := by
  have hown : a.scalar = b.value (.ofDemands a.deltas) := by rw [← h, ha.value_own]
  have hown' : b.scalar = a.value (.ofDemands b.deltas) := by rw [h, hb.value_own]
  obtain ⟨hscalar, hdeltas⟩ : a.scalar = b.scalar ∧ a.deltas = b.deltas := by
    by_cases ho : a.scalar = .o
    · have ho' : b.scalar = .o := hown'.trans (value_of_scalar_eq_o ho)
      rw [ho, ho', ha.bare ho, hb.bare ho']
      exact ⟨rfl, rfl⟩
    · -- each of the two counts under the demands of the other
      obtain ⟨hba, hb_value⟩ := part_of_value ha.sorted.consistent (hown ▸ ho)
      have hscalar : a.scalar = b.scalar := hown.trans hb_value
      have ho' : b.scalar ≠ .o := hscalar ▸ ho
      obtain ⟨hab, -⟩ := part_of_value hb.sorted.consistent (hown' ▸ ho')
      have hsub := sublist_of_sorted ha.sorted hb.sorted hab
      exact ⟨hscalar, hsub.antisymm (sublist_of_sorted hb.sorted ha.sorted hba)⟩
  cases a
  cases b
  exact congrArg₂ Monomial.mk hscalar hdeltas

/-! ## A list of demands -/

/-- Which demands there are decides, not their order or number. -/
theorem ofDeltas_congr (s : Scalar) {ds es : List Delta} (h : ∀ d, d ∈ ds ↔ d ∈ es) :
    ofDeltas s ds = ofDeltas s es := by
  refine (reduced_ofDeltas s ds).eq_of_value_eq (reduced_ofDeltas s es) fun σ => ?_
  rw [value_ofDeltas, value_ofDeltas, σ.meets_congr h]

theorem ofDeltas_eq_zero {s : Scalar} {ds : List Delta} (h : s = .o ∨ ¬ Consistent ds) :
    ofDeltas s ds = zero := by
  refine (reduced_ofDeltas s ds).eq_of_value_eq reduced_zero fun σ => ?_
  rw [value_ofDeltas, value_zero]
  rcases h with rfl | h
  · exact ite_self _
  · rw [σ.meets_of_not_consistent h]
    rfl

theorem scalar_ofDeltas {s : Scalar} {ds : List Delta} (hs : s ≠ .o) (h : Consistent ds) :
    (ofDeltas s ds).scalar = s ∧ ∀ d ∈ (ofDeltas s ds).deltas, d ∈ ds := by
  have hmet : (Selection.ofDemands ds).meets ds = true :=
    (Selection.meets_ofDemands h).mpr fun _ hd => hd
  have hvalue : (ofDeltas s ds).value (.ofDemands ds) = s := by rw [value_ofDeltas, if_pos hmet]
  obtain ⟨hpart, hscalar⟩ := part_of_value h (hvalue.symm ▸ hs)
  exact ⟨hscalar.symm.trans hvalue, hpart⟩

/-- Under demands that can be met together, the demands are the listed ones. -/
theorem mem_ofDeltas_iff {s : Scalar} {ds : List Delta} (hs : s ≠ .o) (h : Consistent ds)
    {d : Delta} : d ∈ (ofDeltas s ds).deltas ↔ d ∈ ds := by
  obtain ⟨hscalar, hpart⟩ := scalar_ofDeltas hs h
  refine ⟨hpart d, fun hd => ?_⟩
  -- the built monomial counts under its own demands, so they meet the listed ones
  have hreduced := reduced_ofDeltas s ds
  have hown := hreduced.value_own
  rw [hscalar, value_ofDeltas] at hown
  split at hown
  · rename_i hmet
    exact (Selection.meets_ofDemands hreduced.sorted.consistent).mp hmet d hd
  · exact absurd hown.symm hs

/-! ## Products -/

/-- A monomial that some scalar and some list of demands give. -/
def Built (m : Monomial) : Prop := ∃ s ds, m = ofDeltas s ds

theorem Built.reduced {m : Monomial} (h : m.Built) : m.Reduced := by
  obtain ⟨s, ds, rfl⟩ := h
  exact reduced_ofDeltas s ds

/-- A product is the product of the scalars under the demands of both. -/
theorem Reduced.mul_eq_ofDeltas {a : Monomial} (ha : a.Reduced) (b : Monomial) :
    a * b = ofDeltas (a.scalar * b.scalar) (a.deltas ++ b.deltas) := by
  refine (ha.mul b).eq_of_value_eq (reduced_ofDeltas _ _) fun σ => ?_
  rw [value_mul, value_ofDeltas, σ.meets_append]

theorem Reduced.mul_comm {a b : Monomial} (ha : a.Reduced) (hb : b.Reduced) : a * b = b * a := by
  refine (ha.mul b).eq_of_value_eq (hb.mul a) fun σ => ?_
  rw [value_mul, value_mul, Bool.and_comm, Scalar.mul_comm]

/-- Without an unbounded factor, a product is worth the product of what the factors are worth. -/
theorem value_mul_of_bounded (σ : Selection) {a b : Monomial} (ha : a.scalar ≠ .i)
    (hb : b.scalar ≠ .i) : (a * b).value σ = a.value σ * b.value σ := by
  rw [value_mul, value, value]
  cases σ.meets a.deltas
  · cases σ.meets b.deltas
    · rfl
    · exact (Scalar.o_mul hb).symm
  · cases σ.meets b.deltas
    · exact (Scalar.mul_o ha).symm
    · rfl

theorem Reduced.mul_bounded {a b : Monomial} (hreduced : a.Reduced) (ha : a.scalar ≠ .i)
    (hb : b.scalar ≠ .i) : (a * b).scalar ≠ .i := by
  rw [← (hreduced.mul b).value_own, value_mul]
  split
  · rw [Ne, Scalar.mul_eq_i_iff]
    exact fun h => h.elim ha hb
  · exact Scalar.noConfusion

theorem Reduced.mul_assoc {a b c : Monomial} (ha : a.Reduced) (hb : b.Reduced)
    (ha' : a.scalar ≠ .i) (hb' : b.scalar ≠ .i) (hc' : c.scalar ≠ .i) :
    a * b * c = a * (b * c) := by
  refine ((ha.mul b).mul c).eq_of_value_eq (ha.mul (b * c)) fun σ => ?_
  calc (a * b * c).value σ
      = a.value σ * b.value σ * c.value σ := by
        rw [value_mul_of_bounded σ (ha.mul_bounded ha' hb') hc', value_mul_of_bounded σ ha' hb']
    _ = a.value σ * (b.value σ * c.value σ) := Scalar.mul_assoc ..
    _ = (a * (b * c)).value σ := by
        rw [value_mul_of_bounded σ ha' (hb.mul_bounded hb' hc'), value_mul_of_bounded σ hb' hc']

-- The grouping matters beside an unbounded scalar: the demands of `a` and `b` contradict each other, but
-- in the second grouping those of `b` are gone before they meet those of `a`.
example :
    let a : Monomial := ⟨.i, [⟨0, 0⟩]⟩
    let b : Monomial := ⟨.m, [⟨1, 0⟩]⟩
    a * b * zero = zero ∧ a * (b * zero) = a := by
  decide

/-- **The order of the demands leaves no trace.** A scalar under a list of demands is zero if the scalar is
or if two of the demands contradict each other; otherwise it keeps the scalar and makes exactly the listed
demands, each once and in the order of their indices. So it depends only on which demands are listed.
Products of such monomials are such monomials again and commute; without an unbounded factor they may be
grouped at will. -/
theorem built_in_any_order :
    (∀ (s : Scalar) (ds : List Delta),
      ((s = .o ∨ ∃ d ∈ ds, ∃ e ∈ ds, d.index = e.index ∧ d.value ≠ e.value) →
        ofDeltas s ds = ⟨.o, []⟩) ∧
      ((s ≠ .o ∧ ¬ ∃ d ∈ ds, ∃ e ∈ ds, d.index = e.index ∧ d.value ≠ e.value) →
        (ofDeltas s ds).scalar = s ∧ Sorted (ofDeltas s ds).deltas ∧
          ∀ d, d ∈ (ofDeltas s ds).deltas ↔ d ∈ ds) ∧
      ∀ es : List Delta, (∀ d, d ∈ es ↔ d ∈ ds) → ofDeltas s es = ofDeltas s ds) ∧
    (∀ a b : Monomial, a.Built → b.Built →
      a * b = ofDeltas (a.scalar * b.scalar) (a.deltas ++ b.deltas) ∧ (a * b).Built ∧
        a * b = b * a) ∧
    ∀ a b c : Monomial, a.Built → b.Built → c.Built →
      a.scalar ≠ .i → b.scalar ≠ .i → c.scalar ≠ .i → a * b * c = a * (b * c) := by
  refine ⟨fun s ds => ⟨?_, ?_, ?_⟩, ?_, ?_⟩
  · intro h
    rw [← not_not (a := ∃ d ∈ ds, _), ← consistent_iff] at h
    exact ofDeltas_eq_zero h
  · rintro ⟨hs, h⟩
    rw [← consistent_iff] at h
    exact ⟨(scalar_ofDeltas hs h).1, (reduced_ofDeltas s ds).sorted, fun d => mem_ofDeltas_iff hs h⟩
  · exact fun es h => ofDeltas_congr s h
  · intro a b ha hb
    have hmul := ha.reduced.mul_eq_ofDeltas b
    exact ⟨hmul, ⟨_, _, hmul⟩, ha.reduced.mul_comm hb.reduced⟩
  · intro a b c ha hb _
    exact ha.reduced.mul_assoc hb.reduced

/-- Two demands out of order, one of them made twice. -/
def scrambled : List Delta := [⟨1, 4⟩, ⟨0, 2⟩, ⟨1, 4⟩]

theorem built_in_any_order_scrambled :
    ofDeltas .w (⟨2, 4⟩ :: scrambled) = ⟨.o, []⟩ ∧
    ((ofDeltas .w scrambled).scalar = .w ∧ Sorted (ofDeltas .w scrambled).deltas ∧
      ∀ d, d ∈ (ofDeltas .w scrambled).deltas ↔ d ∈ scrambled) ∧
    ofDeltas .w [⟨0, 2⟩, ⟨1, 4⟩] = ofDeltas .w scrambled ∧
    (ofDeltas .i scrambled * ofDeltas .o [] = ofDeltas .o [] * ofDeltas .i scrambled) ∧
    ofDeltas .w scrambled * ofDeltas .p [⟨0, 3⟩] * ofDeltas .m [⟨2, 4⟩] =
      ofDeltas .w scrambled * (ofDeltas .p [⟨0, 3⟩] * ofDeltas .m [⟨2, 4⟩]) := by
  obtain ⟨hlist, hmul, hassoc⟩ := built_in_any_order
  refine ⟨?_, ?_, ?_, ?_, ?_⟩
  · exact (hlist _ _).1 (.inr (by decide))
  · exact (hlist _ _).2.1 (by decide)
  · refine (hlist _ _).2.2 _ fun d => ?_
    simp only [scrambled, List.mem_cons, List.not_mem_nil, or_false]
    grind
  · exact (hmul _ _ ⟨_, _, rfl⟩ ⟨_, _, rfl⟩).2.2
  · exact hassoc _ _ _ ⟨_, _, rfl⟩ ⟨_, _, rfl⟩ ⟨_, _, rfl⟩ (by decide) (by decide) (by decide)

end Monomial

end GrowthFlow
