import Mathlib.Data.List.Basic
import GrowthFlow.Choice.Graph
import GrowthFlow.Flow.Matrix
import GrowthFlow.Proofs.Sets

/-!
# Moving the choice indices

Choice indices are numbers only to be told apart and to be put in order. If every index is moved up by the
same amount, the order of demands stays and no two of them become equal, so every operation on monomials,
polynomials, matrices and witness graphs does the same as before, on moved operands.

This holds without any assumption on the operands. In particular it holds of the contraction of a witness
graph, whose result depends on the order in which the witnesses were added.
-/

namespace GrowthFlow

variable {s : Nat}

theorem filter_map_of {α β : Type} {f : α → β} {p : β → Bool} {q : α → Bool} (h : ∀ x, p (f x) = q x)
    (xs : List α) : (xs.map f).filter p = (xs.filter q).map f := by
  rw [List.filter_map]
  exact congrArg (List.map f) (List.filter_congr fun x _ => h x)

theorem any_map_of {α β : Type} {f : α → β} {p : β → Bool} {q : α → Bool} (h : ∀ x, p (f x) = q x)
    (xs : List α) : (xs.map f).any p = xs.any q := by
  rw [List.any_map]
  exact congrArg xs.any (funext h)

/-- A fold commutes with a map that its steps commute with. -/
theorem foldl_map_of {α β γ δ : Type} {f : α → β → α} {f' : γ → δ → γ} {g : α → γ} {h : β → δ}
    (hstep : ∀ a b, g (f a b) = f' (g a) (h b)) (bs : List β) (a : α) :
    g (bs.foldl f a) = (bs.map h).foldl f' (g a) := by
  rw [List.foldl_map]
  exact (List.foldl_hom g fun a b => (hstep a b).symm).symm

/-! ## Demands -/

namespace Delta

/-- The demand with its index moved up. -/
def shift (s : Nat) (d : Delta) : Delta := ⟨d.value, d.index + s⟩

theorem shift_injective (s : Nat) : Function.Injective (shift s) := by
  intro d e h
  cases d
  cases e
  simp only [shift, mk.injEq] at h ⊢
  omega

theorem shift_inj {d e : Delta} : d.shift s = e.shift s ↔ d = e := (shift_injective s).eq_iff

theorem shift_lt_iff {d e : Delta} : d.shift s < e.shift s ↔ d < e := by
  rw [Ordered.delta_lt_iff, Ordered.delta_lt_iff]
  simp only [shift]
  omega

end Delta

/-- The demands with their indices moved up. -/
def Witness.shift (s : Nat) (w : Witness) : Witness := w.map (Delta.shift s)

namespace Witness

theorem shift_injective (s : Nat) : Function.Injective (shift s) :=
  List.map_injective_iff.mpr (Delta.shift_injective s)

theorem shift_inj {v w : Witness} : shift s v = shift s w ↔ v = w := (shift_injective s).eq_iff

@[simp] theorem length_shift (w : Witness) : (shift s w).length = w.length := List.length_map _

theorem shift_lt_iff {v w : Witness} : shift s v < shift s w ↔ v < w := by
  induction v generalizing w with
  | nil => cases w <;> simp [shift]
  | cons d v ih =>
      cases w with
      | nil => simp [shift]
      | cons e w =>
          have htail : List.map (Delta.shift s) v < List.map (Delta.shift s) w ↔ v < w := ih
          simp only [shift, List.map_cons, List.cons_lt_cons_iff, Delta.shift_lt_iff, Delta.shift_inj,
            htail]

theorem contains_shift (w : Witness) (d : Delta) : (shift s w).contains (d.shift s) = w.contains d := by
  rw [Bool.eq_iff_iff, List.contains_iff_mem, List.contains_iff_mem]
  exact List.mem_map_of_injective (Delta.shift_injective s)

theorem shift_by_zero (w : Witness) : shift 0 w = w := List.map_id w

end Witness

theorem insertDelta?_shift (d : Delta) (ds : List Delta) :
    insertDelta? (d.shift s) (Witness.shift s ds) = (insertDelta? d ds).map (Witness.shift s) := by
  induction ds with
  | nil => rfl
  | cons e es ih =>
      have hindex : ∀ a b : Delta, (a.shift s).index < (b.shift s).index ↔ a.index < b.index := by
        intro a b
        simp only [Delta.shift]
        omega
      have hvalue : ∀ a : Delta, (a.shift s).value = a.value := fun _ => rfl
      show insertDelta? (d.shift s) (e.shift s :: Witness.shift s es) = _
      simp only [insertDelta?, hindex, hvalue, ih]
      split
      · rfl
      · split
        · cases insertDelta? d es with
          | none => rfl
          | some fs => rfl
        · split
          · rfl
          · rfl

/-! ## Monomials -/

namespace Monomial

/-- The monomial with its indices moved up. -/
def shift (s : Nat) (m : Monomial) : Monomial := ⟨m.scalar, Witness.shift s m.deltas⟩

theorem shift_injective (s : Nat) : Function.Injective (shift s) := by
  intro m n h
  cases m
  cases n
  simp only [shift, mk.injEq] at h
  rw [h.1, Witness.shift_injective s h.2]

theorem shift_by_zero (m : Monomial) : m.shift 0 = m :=
  congrArg (Monomial.mk m.scalar) (Witness.shift_by_zero m.deltas)

theorem shift_insert (m : Monomial) (d : Delta) : (m.insert d).shift s = (m.shift s).insert (d.shift s) := by
  have hinsert : insertDelta? (d.shift s) (m.shift s).deltas =
      (insertDelta? d m.deltas).map (Witness.shift s) := insertDelta?_shift d m.deltas
  have hscalar : (m.shift s).scalar = m.scalar := rfl
  unfold insert
  rw [hinsert, hscalar]
  split
  · rfl
  · cases insertDelta? d m.deltas with
    | none => rfl
    | some ds => rfl

theorem shift_foldl_insert (ds : List Delta) (m : Monomial) :
    (ds.foldl insert m).shift s = (Witness.shift s ds).foldl insert (m.shift s) :=
  foldl_map_of shift_insert ds m

theorem shift_ofDeltas (t : Scalar) (ds : List Delta) :
    (ofDeltas t ds).shift s = ofDeltas t (Witness.shift s ds) :=
  shift_foldl_insert ds (ofScalar t)

theorem shift_mul (m n : Monomial) : (m * n).shift s = m.shift s * n.shift s := by
  show (Monomial.mul m n).shift s = Monomial.mul (m.shift s) (n.shift s)
  unfold Monomial.mul
  show _ = if m.scalar * n.scalar = .o then zero else _
  split
  · rfl
  · exact shift_foldl_insert n.deltas ⟨m.scalar * n.scalar, m.deltas⟩

theorem absorbs_shift (m n : Monomial) : (m.shift s).absorbs (n.shift s) = m.absorbs n := by
  have hcontains : (n.shift s).contains (m.shift s) = n.contains m := by
    unfold contains
    show (List.map (Delta.shift s) m.deltas).all ((Witness.shift s n.deltas).contains ·) = _
    rw [List.all_map]
    exact congrArg (m.deltas.all ·) (funext fun d => Witness.contains_shift n.deltas d)
  unfold absorbs
  rw [hcontains]
  rfl

end Monomial

theorem insertMonomial_shift (m : Monomial) (ms : List Monomial) :
    insertMonomial (m.shift s) (ms.map (Monomial.shift s)) =
      (insertMonomial m ms).map (Monomial.shift s) := by
  induction ms with
  | nil => rfl
  | cons n ns ih =>
      have hlt : ∀ a b : Monomial, (a.shift s).deltas < (b.shift s).deltas ↔ a.deltas < b.deltas :=
        fun _ _ => Witness.shift_lt_iff
      rw [List.map_cons, insertMonomial, insertMonomial]
      simp only [hlt, ih]
      split
      · rfl
      · split
        · rfl
        · rfl

theorem mergeMonomials_shift (ms ns : List Monomial) :
    mergeMonomials (ms.map (Monomial.shift s)) (ns.map (Monomial.shift s)) =
      (mergeMonomials ms ns).map (Monomial.shift s) := by
  unfold mergeMonomials
  induction ms with
  | nil => rfl
  | cons m ms ih => rw [List.map_cons, List.foldr_cons, ih, insertMonomial_shift, List.foldr_cons]

theorem dropAbsorbed_shift (ms : List Monomial) :
    dropAbsorbed (ms.map (Monomial.shift s)) = (dropAbsorbed ms).map (Monomial.shift s) := by
  have hne : ∀ m n : Monomial, (m.shift s != n.shift s) = (m != n) := by
    intro m n
    rw [Bool.eq_iff_iff, bne_iff_ne, bne_iff_ne, ne_eq, ne_eq, (Monomial.shift_injective s).eq_iff]
  refine filter_map_of (fun m => ?_) ms
  rw [any_map_of (q := fun n => n != m && n.absorbs m) fun n => by rw [hne, Monomial.absorbs_shift]]

/-! ## Polynomials -/

namespace Poly

/-- The polynomial with its indices moved up. -/
def shift (s : Nat) (p : Poly) : Poly := ⟨p.monomials.map (Monomial.shift s)⟩

theorem shift_injective (s : Nat) : Function.Injective (shift s) := by
  intro p q h
  cases p
  cases q
  simp only [shift, mk.injEq] at h
  rw [List.map_injective_iff.mpr (Monomial.shift_injective s) h]

theorem shift_by_zero (p : Poly) : p.shift 0 = p :=
  congrArg Poly.mk (List.map_id'' Monomial.shift_by_zero p.monomials)

theorem isZero_shift (p : Poly) : (p.shift s).isZero = p.isZero := List.isEmpty_map

theorem shift_ofMonomials (ms : List Monomial) :
    (ofMonomials ms).shift s = ofMonomials (ms.map (Monomial.shift s)) := by
  have hfilter : (ms.map (Monomial.shift s)).filter (fun m => !m.isZero) =
      (ms.filter fun m => !m.isZero).map (Monomial.shift s) := filter_map_of (fun _ => rfl) ms
  have hmerge := mergeMonomials_shift (s := s) (ms.filter fun m => !m.isZero) []
  unfold ofMonomials
  rw [hfilter]
  refine congrArg mk ?_
  rw [← dropAbsorbed_shift, ← hmerge, List.map_nil]

theorem shift_zero : zero.shift s = zero := rfl

theorem shift_unit : unit.shift s = unit := rfl

theorem shift_ofChoice (k : Nat) (scalars : List Scalar) :
    (ofChoice k scalars).shift s = ofChoice (k + s) scalars := by
  unfold ofChoice
  rw [shift_ofMonomials, List.mapIdx_eq_zipIdx_map, List.mapIdx_eq_zipIdx_map, List.map_map]
  exact congrArg ofMonomials (List.map_congr_left fun x _ => Monomial.shift_ofDeltas x.1 [⟨x.2, k⟩])

theorem shift_add (p q : Poly) : (p + q).shift s = p.shift s + q.shift s := by
  show (Poly.add p q).shift s = Poly.add (p.shift s) (q.shift s)
  unfold Poly.add
  rw [isZero_shift, isZero_shift]
  split
  · rfl
  · split
    · rfl
    · show mk _ = mk (dropAbsorbed (mergeMonomials (p.monomials.map _) (q.monomials.map _)))
      rw [mergeMonomials_shift, dropAbsorbed_shift]

theorem factors_shift (p : Poly) : (p.shift s).factors = p.factors.map (Monomial.shift s) := by
  unfold factors
  rw [isZero_shift]
  split
  · rfl
  · rfl

theorem shift_mul (p q : Poly) : (p * q).shift s = p.shift s * q.shift s := by
  show (Poly.mul p q).shift s = Poly.mul (p.shift s) (q.shift s)
  have hrow : ∀ n : Monomial, (ofMonomials ((p.shift s).factors.map (· * n.shift s))).monomials =
      (ofMonomials (p.factors.map (· * n))).monomials.map (Monomial.shift s) := by
    intro n
    have hproducts : (p.shift s).factors.map (· * n.shift s) =
        (p.factors.map (· * n)).map (Monomial.shift s) := by
      rw [factors_shift, List.map_map, List.map_map]
      exact List.map_congr_left fun m _ => (Monomial.shift_mul m n).symm
    rw [hproducts, ← shift_ofMonomials]
    rfl
  have hmerge : ∀ ns : List Monomial, ((ns.map (Monomial.shift s)).map fun n =>
        (ofMonomials ((p.shift s).factors.map (· * n))).monomials).foldr mergeMonomials [] =
      ((ns.map fun n => (ofMonomials (p.factors.map (· * n))).monomials).foldr mergeMonomials []).map
        (Monomial.shift s) := by
    intro ns
    induction ns with
    | nil => rfl
    | cons n ns ih =>
        rw [List.map_cons, List.map_cons, List.map_cons, List.foldr_cons, List.foldr_cons, ih, hrow,
          mergeMonomials_shift]
  show _ = mk (dropAbsorbed (((q.shift s).factors.map fun n =>
    (ofMonomials ((p.shift s).factors.map (· * n))).monomials).foldr mergeMonomials []))
  rw [factors_shift q, hmerge, dropAbsorbed_shift]
  rfl

theorem shift_escalate (f : Scalar → Bool) (p : Poly) :
    (p.escalate f).shift s = (p.shift s).escalate f := by
  unfold escalate
  rw [shift_ofMonomials]
  show _ = ofMonomials ((p.monomials.map (Monomial.shift s)).map _)
  rw [List.map_map, List.map_map]
  refine congrArg ofMonomials (List.map_congr_left fun m _ => ?_)
  show Monomial.shift s (if f m.scalar then m.withScalar .i else m) =
    if f m.scalar then (m.shift s).withScalar .i else m.shift s
  split
  · exact Monomial.shift_ofDeltas .i m.deltas
  · rfl

theorem promoted_shift (f : Scalar → Bool) (p : Poly) :
    (p.shift s).promoted f = (p.promoted f).map (Witness.shift s) := by
  have hfilter : (p.shift s).monomials.filter (fun m => f m.scalar) =
      (p.monomials.filter fun m => f m.scalar).map (Monomial.shift s) :=
    filter_map_of (fun _ => rfl) p.monomials
  unfold promoted
  rw [hfilter, List.map_map, List.map_map]
  rfl

theorem infinities_shift (extra : List Scalar) (p : Poly) :
    (p.shift s).infinities extra = (p.infinities extra).map (Witness.shift s) :=
  promoted_shift (fun t => t == .i || extra.contains t) p

theorem shift_foldl_add {α : Type} (f : α → Poly) (zs : List α) (acc : Poly) :
    (zs.foldl (fun acc z => acc + f z) acc).shift s =
      zs.foldl (fun acc z => acc + (f z).shift s) (acc.shift s) :=
  (List.foldl_hom (shift s) fun acc z => (shift_add acc (f z)).symm).symm

end Poly

/-! ## Matrices -/

namespace FlowMatrix

/-- The matrix with its indices moved up. -/
def shift (s : Nat) (M : FlowMatrix) : FlowMatrix := M.map fun _ _ p => p.shift s

@[simp] theorem size_shift (M : FlowMatrix) : (M.shift s).size = M.size := size_ofFn ..

theorem get_of_size_le {M : FlowMatrix} {i j : Nat} (h : M.size ≤ i ∨ M.size ≤ j) :
    M.get i j = .zero := by
  unfold get
  rcases hrow : M.rows[i]? with _ | row
  · rfl
  · have hi := (List.getElem?_eq_some_iff.mp hrow).1
    have hlength := M.square row (List.mem_of_getElem? hrow)
    have hj : row.length ≤ j := by
      rw [hlength]
      exact h.resolve_left (Nat.not_le_of_lt hi)
    simp [List.getElem?_eq_none hj]

theorem get_shift (M : FlowMatrix) (i j : Nat) : (M.shift s).get i j = (M.get i j).shift s := by
  by_cases h : i < M.size ∧ j < M.size
  · exact get_ofFn _ h.1 h.2
  · have hout : M.size ≤ i ∨ M.size ≤ j := by omega
    rw [get_of_size_le (by rwa [size_shift]), get_of_size_le hout, Poly.shift_zero]

/-- A matrix given by its entries is moved by moving the entries. -/
theorem shift_ofFn (n : Nat) (f : Nat → Nat → Poly) :
    (ofFn n f).shift s = ofFn n fun i j => (f i j).shift s := by
  refine ext_get (by rw [size_shift, size_ofFn, size_ofFn]) fun i j hi hj => ?_
  rw [size_shift, size_ofFn] at hi hj
  rw [get_shift, get_ofFn f hi hj, get_ofFn _ hi hj]

theorem shift_injective (s : Nat) : Function.Injective (shift s) := by
  intro M N h
  have hsize : M.size = N.size := by rw [← size_shift (s := s) M, h, size_shift]
  refine ext_get hsize fun i j _ _ => Poly.shift_injective s ?_
  rw [← get_shift, ← get_shift, h]

theorem shift_by_zero (M : FlowMatrix) : M.shift 0 = M :=
  ext_get M.size_shift fun i j _ _ => by rw [get_shift, Poly.shift_by_zero]

theorem shift_identity (n : Nat) : (identity n).shift s = identity n := by
  unfold identity
  rw [shift_ofFn]
  refine congrArg (ofFn n) (funext fun i => funext fun j => ?_)
  split
  · exact Poly.shift_unit
  · exact Poly.shift_zero

theorem shift_add (M N : FlowMatrix) : (M + N).shift s = M.shift s + N.shift s := by
  show (FlowMatrix.add M N).shift s = FlowMatrix.add (M.shift s) (N.shift s)
  unfold FlowMatrix.add
  rw [shift_ofFn, size_shift, size_shift]
  refine congrArg (ofFn _) (funext fun i => funext fun j => ?_)
  rw [get_shift, get_shift, Poly.shift_add]

theorem shift_mul (M N : FlowMatrix) : (M * N).shift s = M.shift s * N.shift s := by
  show (FlowMatrix.mul M N).shift s = FlowMatrix.mul (M.shift s) (N.shift s)
  unfold FlowMatrix.mul
  rw [shift_ofFn, size_shift]
  refine congrArg (ofFn _) (funext fun i => funext fun j => ?_)
  rw [Poly.shift_foldl_add]
  simp only [get_shift, Poly.shift_mul, Poly.shift_zero]

theorem shift_resize (M : FlowMatrix) (n : Nat) : (M.resize n).shift s = (M.shift s).resize n := by
  unfold resize
  rw [shift_ofFn, size_shift]
  refine congrArg (ofFn n) (funext fun i => funext fun j => ?_)
  split
  · rw [get_shift]
  · rw [← get_shift, shift_identity]

theorem sumPowers_shift (M : FlowMatrix) (limit : Nat) (sum power : FlowMatrix) :
    (M.shift s).sumPowers limit (sum.shift s) (power.shift s) =
      ((M.sumPowers limit sum power).1, (M.sumPowers limit sum power).2.shift s) := by
  induction limit generalizing sum power with
  | zero => rfl
  | succ limit ih =>
      rw [sumPowers, sumPowers]
      simp only [← shift_mul, ← shift_add, (shift_injective s).eq_iff, ih]
      split
      · rfl
      · rfl

theorem closureWithin?_shift (limit : Nat) (M : FlowMatrix) :
    (M.shift s).closureWithin? limit = (M.closureWithin? limit).map (shift s) := by
  have hsum := sumPowers_shift (s := s) M limit (identity M.size) (identity M.size)
  rw [shift_identity] at hsum
  unfold closureWithin?
  rw [size_shift, hsum]
  rcases M.sumPowers limit (identity M.size) (identity M.size) with ⟨_ | _, F⟩
  · rfl
  · rfl

end FlowMatrix

/-! ## Witness graphs -/

namespace Witness

theorem difference?_shift : ∀ v w : Witness,
    (shift s v).difference? (shift s w) = (v.difference? w).map (· + s)
  | [], _ => rfl
  | _ :: _, [] => rfl
  | d :: v, e :: w => by
      have hindex : (d.shift s).index = (e.shift s).index ↔ d.index = e.index := by
        simp only [Delta.shift]
        omega
      have ih := difference?_shift v w
      show difference? (d.shift s :: shift s v) (e.shift s :: shift s w) = _
      rw [difference?, difference?]
      simp only [Delta.shift_inj, hindex, shift_inj, ih]
      split
      · rfl
      · split
        · rfl
        · rfl

theorem difference?_shift_beq (v w : Witness) (k : Nat) :
    ((shift s v).difference? (shift s w) == some (k + s)) = (v.difference? w == some k) := by
  rw [difference?_shift, Bool.eq_iff_iff, beq_iff_eq, beq_iff_eq]
  cases v.difference? w with
  | none => simp
  | some l => simp

theorem without_shift (w : Witness) (k : Nat) : (shift s w).without (k + s) = shift s (w.without k) := by
  refine filter_map_of (fun d => ?_) w
  rw [Bool.eq_iff_iff, bne_iff_ne, bne_iff_ne]
  simp only [Delta.shift]
  omega

theorem contains_map_shift (ws : List Witness) (w : Witness) :
    (ws.map (shift s)).contains (shift s w) = ws.contains w := by
  rw [Bool.eq_iff_iff, List.contains_iff_mem, List.contains_iff_mem]
  exact List.mem_map_of_injective (shift_injective s)

end Witness

namespace WitnessGraph

/-- The graph with its indices moved up. -/
def shift (s : Nat) (g : WitnessGraph) : WitnessGraph := ⟨g.degree, g.members.map (Witness.shift s)⟩

theorem shift_injective (s : Nat) : Function.Injective (shift s) := by
  intro g h heq
  cases g
  cases h
  simp only [shift, mk.injEq] at heq
  rw [heq.1, List.map_injective_iff.mpr (Witness.shift_injective s) heq.2]

theorem shift_insert (g : WitnessGraph) (w : Witness) :
    (g.insert w).shift s = (g.shift s).insert (Witness.shift s w) := by
  unfold insert
  show _ = if (g.members.map (Witness.shift s)).contains (Witness.shift s w) then _ else _
  rw [Witness.contains_map_shift]
  split
  · rfl
  · exact congrArg (mk g.degree) List.map_append

theorem isFull_shift (g : WitnessGraph) (w : Witness) (k : Nat) :
    (g.shift s).isFull (Witness.shift s w) (k + s) = g.isFull w k := by
  unfold isFull neighbours
  show ((List.filter _ (g.members.map (Witness.shift s))).length + 1 == g.degree) = _
  rw [filter_map_of fun v => Witness.difference?_shift_beq w v k, List.length_map]

theorem widen_shift (g : WitnessGraph) (k : Nat) (group : List Witness) :
    (g.shift s).widen (k + s) (group.map (Witness.shift s)) =
      (g.widen k group).map (Witness.shift s) := by
  have hequal : ∀ v w : Witness, (Witness.shift s w == Witness.shift s v) = (w == v) := by
    intro v w
    rw [Bool.eq_iff_iff, beq_iff_eq, beq_iff_eq, Witness.shift_inj]
  have hmember : ∀ v, ((group.map (Witness.shift s)).any fun w =>
      w == Witness.shift s v || w.difference? (Witness.shift s v) == some (k + s)) =
        group.any fun w => w == v || w.difference? v == some k := fun v =>
    any_map_of (fun w => by rw [hequal, Witness.difference?_shift_beq]) group
  exact filter_map_of (f := Witness.shift s) (p := fun v =>
    (group.map (Witness.shift s)).any fun w => w == v || w.difference? v == some (k + s)) hmember
    g.members

theorem reach_shift (g : WitnessGraph) (k fuel : Nat) (group : List Witness) :
    (g.shift s).reach (k + s) fuel (group.map (Witness.shift s)) =
      (g.reach k fuel group).map (Witness.shift s) := by
  induction fuel generalizing group with
  | zero => rfl
  | succ fuel ih =>
      rw [reach, reach]
      simp only [widen_shift, List.length_map, ih]
      split
      · rfl
      · rfl

theorem shift_contractAt (g : WitnessGraph) (w : Witness) (k : Nat) :
    (g.contractAt w k).shift s = (g.shift s).contractAt (Witness.shift s w) (k + s) := by
  have hreach := reach_shift (s := s) g k g.members.length [w]
  have hlength : (g.shift s).members.length = g.members.length := List.length_map _
  have hcontains : (g.shift s).members.contains (Witness.shift s w) = g.members.contains w :=
    Witness.contains_map_shift g.members w
  have hrest : ∀ group : List Witness,
      (g.shift s).members.filter (fun v => !(group.map (Witness.shift s)).contains v) =
        (g.members.filter fun v => !group.contains v).map (Witness.shift s) := fun group =>
    filter_map_of (fun v => by rw [Witness.contains_map_shift]) g.members
  rw [List.map_singleton] at hreach
  unfold contractAt
  simp only [hcontains, isFull_shift, hlength, hreach, hrest, Witness.without_shift]
  split
  · exact shift_insert _ _
  · rfl

theorem shift_contractNode (g : WitnessGraph) (w : Witness) :
    (g.contractNode w).shift s = (g.shift s).contractNode (Witness.shift s w) :=
  foldl_map_of (fun g d => shift_contractAt g w d.index) w g

theorem shift_contractLevel (g : WitnessGraph) (length : Nat) :
    (g.contractLevel length).shift s = (g.shift s).contractLevel length := by
  -- the witnesses of one length come in the same order
  have hlevel : (g.shift s).members.filter (fun w => w.length == length) =
      (g.members.filter fun w => w.length == length).map (Witness.shift s) :=
    filter_map_of (fun w => by rw [Witness.length_shift]) g.members
  unfold contractLevel
  rw [hlevel]
  exact foldl_map_of shift_contractNode _ g

theorem maxLength_shift (g : WitnessGraph) : (g.shift s).maxLength = g.maxLength := by
  unfold maxLength
  show (g.members.map (Witness.shift s)).foldl _ 0 = _
  rw [List.foldl_map]
  simp only [Witness.length_shift]

theorem shift_contractOnce (g : WitnessGraph) : g.contractOnce.shift s = (g.shift s).contractOnce := by
  unfold contractOnce
  rw [maxLength_shift]
  exact (List.foldl_hom (shift s) fun g n => (shift_contractLevel g (n + 1)).symm).symm

theorem shift_contractWithin (n : Nat) (g : WitnessGraph) :
    (g.contractWithin n).shift s = (g.shift s).contractWithin n := by
  induction n generalizing g with
  | zero => rfl
  | succ n ih =>
      rw [contractWithin, contractWithin]
      simp only [← shift_contractOnce, (shift_injective s).eq_iff, ← ih]
      split
      · rfl
      · rfl

theorem weight_shift (g : WitnessGraph) : (g.shift s).weight = g.weight := by
  unfold weight
  show (g.members.map (Witness.shift s)).foldl _ 0 = _
  rw [List.foldl_map]
  simp only [Witness.length_shift]

/-- **The contraction of a moved graph is the moved contraction.** -/
theorem shift_contract (g : WitnessGraph) : g.contract.shift s = (g.shift s).contract := by
  unfold contract
  rw [shift_contractWithin, weight_shift]

theorem coversAll_shift (g : WitnessGraph) : (g.shift s).coversAll = g.coversAll :=
  Witness.contains_map_shift g.members []

end WitnessGraph

end GrowthFlow
