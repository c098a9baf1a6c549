import GrowthFlow.Flow.Bound
import GrowthFlow.Proofs.EarlyExit

/-!
# The reported bound says what flows

The bound of a variable lists what flows into it as `m`, as `w` and as `p`, and has no place for `i`: a flow
that is unbounded under the first choice would drop out of it without a trace. This does not happen. A
function has a bound only if its walk was not cut short, so its relation is the one of a complete walk and
its choices are exact; the first of them lies in a box, hence it leaves nothing unbounded.

What remains is to read the bound back. The sets of a bound are those of a column of cells
(`mem_part_foldl_add`), each variable has one column because the relation names it once
(`Bounds.get?_ofCells`), and a cell is what its entry is worth, apart from the diagonal
(`Poly.evalOr_eq`).
-/

namespace GrowthFlow

open Lang

/-! ## Tables -/

namespace Assoc

variable {α : Type} {key : String} {value : α}

theorem get?_foldl_set_of_not_mem : ∀ (pairs : List (String × α)) {t : Assoc α},
    key ∉ pairs.map (·.1) → get? (pairs.foldl (fun t (k, v) => set k v t) t) key = get? t key
  | [], _, _ => rfl
  | (k, v) :: pairs, t, h => by
      rw [List.map_cons, List.mem_cons, not_or] at h
      rw [List.foldl_cons, get?_foldl_set_of_not_mem pairs h.2, get?_set, if_neg h.1]

theorem get?_foldl_set : ∀ (pairs : List (String × α)) {t : Assoc α},
    (∀ v, (key, v) ∈ pairs → v = value) → (key, value) ∈ pairs →
    get? (pairs.foldl (fun t (k, v) => set k v t) t) key = some value
  | (k, v) :: pairs, t, hsame, h => by
      by_cases hlater : key ∈ pairs.map (·.1)
      · -- the key comes again, with the same value
        obtain ⟨⟨k', v'⟩, hmem, hkey⟩ := List.mem_map.mp hlater
        have hmem : (key, v') ∈ pairs := hkey ▸ hmem
        rw [hsame v' (List.mem_cons_of_mem _ hmem)] at hmem
        exact get?_foldl_set pairs (fun u hu => hsame u (List.mem_cons_of_mem _ hu)) hmem
      · rcases List.mem_cons.mp h with heq | hmem
        · cases heq
          rw [List.foldl_cons, get?_foldl_set_of_not_mem pairs hlater, get?_set, if_pos rfl]
        · exact absurd (List.mem_map_of_mem hmem) hlater

/-- A key that always comes with the same value has that value. -/
theorem get?_ofPairs {pairs : List (String × α)} (hsame : ∀ v, (key, v) ∈ pairs → v = value)
    (h : (key, value) ∈ pairs) : get? (ofPairs pairs) key = some value :=
  get?_foldl_set pairs hsame h

end Assoc

/-! ## The sets of a bound -/

namespace Bound

/-- The variables that a bound lists for a scalar. -/
def part (b : Bound) : Scalar → List String
  | .m => b.linear
  | .w => b.weak
  | .p => b.poly
  | .o | .i => []

theorem mem_part_add {b : Bound} {s t : Scalar} {x y : String} (ho : s ≠ .o) (hi : s ≠ .i) :
    x ∈ (b.add t y).part s ↔ x ∈ b.part s ∨ (y = x ∧ t = s) := by
  cases s with
  | o => exact absurd rfl ho
  | i => exact absurd rfl hi
  | m | w | p => cases t <;> simp [add, part, Ordered.mem_insert_iff, or_comm, eq_comm]

/-- A bound lists for a scalar the variables that flow in with it. -/
theorem mem_part_foldl_add {s : Scalar} {x : String} (ho : s ≠ .o) (hi : s ≠ .i) :
    ∀ (flows : List (String × Scalar)) {b : Bound},
      x ∈ (flows.foldl (fun b (source, t) => b.add t source) b).part s ↔
        x ∈ b.part s ∨ (x, s) ∈ flows
  | [], b => by simp
  | (y, t) :: flows, b => by
      rw [List.foldl_cons, mem_part_foldl_add ho hi flows, mem_part_add ho hi, or_assoc, List.mem_cons,
        Prod.mk.injEq, eq_comm (a := y), eq_comm (a := t)]

end Bound

/-- A variable with one column has the bound that is read off it. -/
theorem Bounds.get?_ofCells_of_unique {c : Cells} {j : Nat} {x : String} (hj : c.vars[j]? = some x)
    (hone : ∀ l, c.vars[l]? = some x → l = j) :
    Assoc.get? (Bounds.ofCells c) x =
      some ((c.column j).foldl (fun b (source, s) => b.add s source) .empty) := by
  refine Assoc.get?_ofPairs (fun b hb => ?_)
    (List.mem_map.mpr ⟨(x, j), List.mem_zipIdx_iff_getElem?.mpr hj, rfl⟩)
  obtain ⟨⟨y, l⟩, hl, heq⟩ := List.mem_map.mp hb
  cases heq
  rw [hone l (List.mem_zipIdx_iff_getElem?.mp hl)]

theorem Bounds.get?_ofCells {c : Cells} (hnd : c.vars.Nodup) {j : Nat} {x : String}
    (hj : c.vars[j]? = some x) :
    Assoc.get? (Bounds.ofCells c) x =
      some ((c.column j).foldl (fun b (source, s) => b.add s source) .empty) :=
  Bounds.get?_ofCells_of_unique hj fun _ hl => (FlowMatrix.place_eq_iff hnd hl hj).mpr rfl

/-! ## Cells -/

/-- The scalar of a cell is what the polynomial is worth, or `least` if it is not zero and nothing of it
counts. -/
theorem Poly.evalOr_eq (least : Scalar) (c : List Nat) (p : Poly) : p.evalOr least c =
    if p.isZero = false ∧ ∀ m ∈ p.monomials, m.isMet c = false then least else p.eval c := by
  unfold evalOr
  cases hzero : p.isZero with
  | true =>
      have hnil : p.monomials = [] := List.isEmpty_iff.mp hzero
      rw [if_pos rfl, if_neg fun h => Bool.noConfusion h.1, eval, hnil]
      rfl
  | false =>
      rw [if_neg Bool.false_ne_true]
      have hmem : ∀ m, m ∈ p.monomials.filter (·.isMet c) ↔ m ∈ p.monomials ∧ m.isMet c = true :=
        fun m => List.mem_filter
      cases hmet : p.monomials.filter (·.isMet c) with
      | nil =>
          have hnone : ∀ m ∈ p.monomials, m.isMet c = false := fun m hm =>
            Bool.eq_false_iff.mpr fun h => absurd ((hmem m).mpr ⟨hm, h⟩) (hmet ▸ List.not_mem_nil)
          rw [if_pos ⟨rfl, hnone⟩]
          rfl
      | cons n ns =>
          have hn := (hmem n).mp (hmet ▸ List.mem_cons_self)
          rw [if_neg fun h => absurd hn.2 (by rw [h.2 n hn.1]; decide)]
          -- the monomials that do not count add only `o`
          have hsum : (ns.map (·.scalar)).foldl (· + ·) n.scalar =
              Scalar.sum ((p.monomials.filter (·.isMet c)).map (·.scalar)) := by
            rw [hmet, Scalar.sum, List.map_cons, List.foldl_cons]
            congr 1
          show (ns.map (·.scalar)).foldl (· + ·) n.scalar = Scalar.sum (p.monomials.map (·.eval c))
          rw [hsum]
          apply Scalar.eq_of_le_iff
          intro t
          rw [Scalar.sum_le_iff, Scalar.sum_le_iff, List.forall_mem_map, List.forall_mem_map]
          refine ⟨fun h m hm => ?_, fun h m hm => ?_⟩
          · unfold Monomial.eval
            split
            · rename_i hc
              exact h m ((hmem m).mpr ⟨hm, hc⟩)
            · exact Scalar.o_le t
          · obtain ⟨hm, hc⟩ := (hmem m).mp hm
            have := h m hm
            rwa [Monomial.eval, if_pos hc] at this

namespace Relation

variable {R : Relation} {c : List Nat} {i j : Nat} {u v : String}

/-- The scalar of a relation in row `i` and column `j` under a choice. -/
def cell (R : Relation) (c : List Nat) (i j : Nat) : Scalar :=
  (R.get i j).evalOr (if i = j then .m else .o) c

theorem getElem?_apply (hi : i < R.vars.length) :
    (R.apply c).rows[i]? = some ((List.range R.vars.length).map (R.cell c i)) := by
  rw [apply, List.getElem?_map, List.getElem?_range hi]
  rfl

theorem cell_apply (hi : i < R.vars.length) (hj : j < R.vars.length) :
    (R.apply c).rows[i]?.bind (·[j]?) = some (R.cell c i j) := by
  rw [getElem?_apply hi, Option.bind_some, List.getElem?_map, List.getElem?_range hj]
  rfl

/-- Off the diagonal a cell is what the entry is worth; on it, an entry of which nothing counts is `m`. -/
theorem cell_eq : R.cell c i j =
    if i = j ∧ (R.get i j).isZero = false ∧ ∀ m ∈ (R.get i j).monomials, m.isMet c = false then .m
    else (R.get i j).eval c := by
  rw [cell, Poly.evalOr_eq]
  by_cases hij : i = j
  · simp only [hij, if_true, true_and]
  · simp only [hij, if_false, false_and]
    split
    · -- nothing counts, so the entry is worth `o`
      rename_i h
      symm
      refine Scalar.le_antisymm (Poly.value_le_iff.mpr fun m hm => ?_) (Scalar.o_le _)
      show m.eval c ≤ .o
      rw [Monomial.eval, h.2 m hm]
      exact Scalar.le_refl _
    · rfl

theorem cell_ne_i (h : (R.get i j).eval c ≠ .i) : R.cell c i j ≠ .i := by
  rw [cell_eq]
  split
  · decide
  · exact h

/-- The scalars of a column are its cells, each with the variable of its row. -/
theorem mem_column_apply_iff (hj : j < R.vars.length) {s : Scalar} :
    (u, s) ∈ (R.apply c).column j ↔ ∃ i, R.vars[i]? = some u ∧ R.cell c i j = s := by
  have hrow : ∀ k, (((List.range R.vars.length).map (R.cell c k))[j]?).getD .o = R.cell c k j := by
    intro k
    rw [List.getElem?_map, List.getElem?_range hj]
    rfl
  unfold Cells.column
  rw [List.mem_map]
  constructor
  · rintro ⟨⟨x, row⟩, hmem, heq⟩
    obtain ⟨k, hk⟩ := List.mem_iff_getElem?.mp hmem
    obtain ⟨hx, hrows⟩ := List.getElem?_zip_eq_some.mp hk
    obtain ⟨hux, hs⟩ := Prod.mk.inj heq
    have hplace : R.vars[k]? = some u := hx.trans (congrArg some hux)
    rw [getElem?_apply (List.getElem?_eq_some_iff.mp hplace).1] at hrows
    cases hrows
    exact ⟨k, hplace, (hrow k).symm.trans hs⟩
  · rintro ⟨i, hi, rfl⟩
    refine ⟨(u, (List.range R.vars.length).map (R.cell c i)), ?_, congrArg (Prod.mk u) (hrow i)⟩
    exact List.mem_iff_getElem?.mpr
      ⟨i, List.getElem?_zip_eq_some.mpr ⟨hi, getElem?_apply (List.getElem?_eq_some_iff.mp hi).1⟩⟩

theorem mem_column_apply (hnd : R.vars.Nodup) (hi : R.vars[i]? = some u) (hj : j < R.vars.length)
    {s : Scalar} : (u, s) ∈ (R.apply c).column j ↔ R.cell c i j = s := by
  rw [mem_column_apply_iff hj]
  constructor
  · rintro ⟨k, hk, hs⟩
    -- a variable has one place
    rw [← (FlowMatrix.place_eq_iff hnd hk hi).mpr rfl]
    exact hs
  · exact fun hs => ⟨i, hi, hs⟩

/-- **The bound of a variable** under a choice lists another one for `m`, `w` or `p` exactly if the cell
between the two is that. -/
theorem mem_part_bound (hnd : R.vars.Nodup) (hi : R.vars[i]? = some u) (hj : R.vars[j]? = some v) :
    ∃ b, Assoc.get? (Bounds.ofCells (R.apply c)) v = some b ∧
      ∀ s, s ≠ .o → s ≠ .i → (u ∈ b.part s ↔ R.cell c i j = s) := by
  have hlt : j < R.vars.length := (List.getElem?_eq_some_iff.mp hj).1
  refine ⟨_, Bounds.get?_ofCells hnd hj, fun s ho hinf => ?_⟩
  have hempty : u ∉ Bound.empty.part s := by cases s <;> exact List.not_mem_nil
  rw [Bound.mem_part_foldl_add ho hinf, or_iff_right hempty, mem_column_apply hnd hi hlt]

end Relation

/-! ## Walks that are not cut short -/

/-- A run after which not every choice is covered is the complete run: it had no reason to stop. -/
theorem Plan.run_of_uncovered {opts : Options} {p : Plan} {w w' : Walk} {T : Relation}
    (h : p.run opts w = (.ok T, w')) (hw' : w'.covered = false) :
    w.covered = false ∧ p.run { opts with complete := true } w = (.ok T, w') := by
  have hgoes : ∀ {w : Walk} {opts : Options}, w.covered = false → w.stops opts = false :=
    fun hw => by rw [Walk.stops, hw, Bool.false_and]
  induction p generalizing w w' T with
  | simple s e =>
      obtain ⟨w₁, hrun, _, _, hcovered, _⟩ := run_simple opts s e w
      cases hrun.symm.trans h
      exact ⟨hcovered.symm.trans hw', h⟩
  | andThen p q ihp ihq =>
      obtain ⟨R, S, w₁, hp, hq, rfl⟩ := exists_run_andThen (hgoes hw') h
      obtain ⟨hw₁, hq'⟩ := ihq hq hw'
      obtain ⟨hw, hp'⟩ := ihp hp hw₁
      exact ⟨hw, run_andThen_of_ok hp' (hgoes hw₁) hq' rfl⟩
  | either p q ihp ihq =>
      obtain ⟨R, S, w₁, hp, hq, rfl⟩ := exists_run_either (hgoes hw') h
      obtain ⟨hw₁, hq'⟩ := ihq hq hw'
      obtain ⟨hw, hp'⟩ := ihp hp hw₁
      exact ⟨hw, run_either_of_ok hp' (hgoes hw₁) hq' (hgoes hw')⟩
  | loop guard p ih =>
      obtain ⟨R, F, w₁, hp, hF, rfl, rfl⟩ := exists_run_loop (hgoes hw') h
      -- what the loop reports covers no less than its body did
      have hw₁ : w₁.covered = false := by
        rw [← Bool.not_eq_true]
        exact fun hcov => absurd (Walk.covered_promote _ hcov) (by rw [hw']; decide)
      obtain ⟨hw, hp'⟩ := ih hp hw₁
      exact ⟨hw, run_loop_of_ok hp' (hgoes hw₁) hF rfl rfl⟩

/-- An outcome with a choice left: it comes from a complete walk, its relation is proper, and its first
choice leaves nothing unbounded. -/
theorem outcome_finite {opts : Options} {p : Plan} (hp : p.WellFormed) {start : Nat}
    {vars : List String} (hnd : vars.Nodup) {out : Outcome}
    (h : outcome opts vars (p.run opts { index := start }) = .ok out) (hout : out.isInfinite = false) :
    (out.relation.Proper fun d => d.index < out.index) ∧
      ∃ c, out.choices.first? = some c ∧ IsVector choiceValues out.index c ∧
        ¬ out.relation.Unbounded (.ofVector c) := by
  obtain ⟨hcovered, hchoices⟩ := Bool.or_eq_false_iff.mp hout
  rcases hrun : p.run opts { index := start } with ⟨_ | T, w⟩
  · rw [hrun] at h
    cases h
  · have hw : w.covered = false := by
      rw [hrun, outcome] at h
      split at h
      · cases h
        exact hcovered
      · split at h
        · cases h
          exact hcovered
        · cases h
    have hgoes : w.stops opts = false := by rw [Walk.stops, hw, Bool.false_and]
    obtain ⟨_, hfull⟩ := Plan.run_of_uncovered hrun hw
    obtain ⟨hflow, hindex, _⟩ := Plan.run_complete rfl p hfull
    rw [hrun, outcome, hgoes, if_neg Bool.false_ne_true] at h
    have hproper : ((Relation.identity vars).compose T).Proper fun d => d.index < w.index := by
      rw [hindex]
      exact ((Relation.proper_identity hnd).compose (Plan.flow_proper hp hflow)).mono
        fun d hd => hd.2.1
    have hfits := Relation.fits_witnesses hproper
    have hdomain : choiceValues ≠ [] := by decide
    obtain ⟨choices, hfound, hexact⟩ := Choices.exact_of_fits hdomain hfits
    have hfound' : ((Relation.identity vars).compose T).choices choiceValues w.index [] =
      .ok choices := hfound
    simp only [hfound'] at h
    cases h
    refine ⟨hproper, ?_⟩
    -- a box is left, so some vector is safe, and the first choice is too
    obtain ⟨v, hv⟩ : ∃ v, IsSafe choiceValues w.index _ v :=
      Classical.byContradiction fun hnone => absurd
        ((hexact.isInfinite_iff hdomain hfits).mpr fun v hv => hnone ⟨v, hv⟩) (by rw [hchoices]; decide)
    obtain ⟨c, hfirst, hsafe⟩ := hexact.first_safe hdomain hfits hv
    exact ⟨c, hfirst, hsafe.vector,
      fun hu => hsafe.uncovered ((Relation.covers_witnesses_iff hproper.nodup).mpr hu)⟩

/-! ## Functions -/

/-- The variables of a function come in increasing order. -/
theorem increasing_names (f : Function) : Ordered.Increasing f.names := by
  have hadd : ∀ (x : String) {xs : Names}, Ordered.Increasing xs → Ordered.Increasing (Names.add x xs) := by
    intro x xs h
    unfold Names.add
    split
    · exact h
    · exact Ordered.increasing_insert x h
  unfold Function.names
  induction f.params with
  | nil => exact increasing_namesAll f.body
  | cons p ps ih => exact hadd p.name ih

/-- What is said about a function that has a bound. -/
theorem resultOf_finite {opts : Options} {name : String} {out : Outcome} {r : FunctionResult}
    (h : (resultOf opts name out).result.1 = .ok r) (hr : r.infinite = false) :
    out.isInfinite = false ∧ ∃ c, out.choices.first? = some c ∧
      r = { name, infinite := out.isInfinite, index := out.index, vars := out.relation.vars,
            bounds := some (Bounds.ofCells (out.relation.apply c)), choices := some out.choices,
            relation := some out.relation } := by
  have hout : out.isInfinite = false := (infinite_of_resultOf h).symm.trans hr
  refine ⟨hout, ?_⟩
  unfold resultOf firstBounds? at h
  rw [if_neg (ne_of_eq_of_ne hout Bool.false_ne_true)] at h
  cases hfirst : out.choices.first? with
  | none =>
      simp only [hfirst, Option.map_none] at h
      cases h
  | some c =>
      simp only [hfirst, Option.map_some] at h
      cases h
      exact ⟨c, rfl, rfl⟩

/-- **A reported bound is finite and faithful.** Whatever the options, if the analysis of a function says that
it has a bound, then there is a first choice, and under it no entry of the relation is `i`. The bound of a
variable lists another one for `m`, `w` or `p` exactly if the cell between the two is that. A cell is what
the entry is worth under the choice, except that on the diagonal a polynomial that is not zero and of which
nothing counts is `m`. -/
theorem finite_result_faithful {opts : Options} {f : Function} {r : FunctionResult}
    (h : (analyzeFunction opts f).result.1 = .ok r) (hr : r.infinite = false) :
    ∃ R choices bounds c, r.relation = some R ∧ r.choices = some choices ∧ r.bounds = some bounds ∧
      choices.first? = some c ∧ IsVector choiceValues r.index c ∧
      (∀ p ∈ R.matrix.entries, p.eval c ≠ .i) ∧
      ∀ i j u v, R.vars[i]? = some u → R.vars[j]? = some v →
        ∃ s b, (R.apply c).rows[i]?.bind (·[j]?) = some s ∧ Assoc.get? bounds v = some b ∧
          (u ∈ b.linear ↔ s = .m) ∧ (u ∈ b.weak ↔ s = .w) ∧ (u ∈ b.poly ↔ s = .p) ∧ s ≠ .i ∧
          s = if i = j ∧ (R.get i j).isZero = false ∧
                ∀ m ∈ (R.get i j).monomials, m.isMet c = false then .m
              else (R.get i j).eval c := by
  obtain ⟨_, out, hout, hresult⟩ := analyzeFunction_ok_iff.mp h
  obtain ⟨hfinite, c, hfirst, rfl⟩ := resultOf_finite hresult hr
  obtain ⟨hproper, c', hfirst', hvector, hbounded⟩ :=
    outcome_finite (Plan.wellFormed_ofStmts opts f.body) (increasing_names f).nodup hout hfinite
  cases hfirst.symm.trans hfirst'
  have hentries : ∀ p ∈ out.relation.matrix.entries, p.eval c ≠ .i := by
    intro p hp hi
    obtain ⟨x, _, y, _, rfl⟩ := (Relation.mem_matrix_entries hproper.nodup).mp hp
    exact hbounded ⟨x, y, hi⟩
  refine ⟨out.relation, out.choices, _, c, rfl, rfl, rfl, hfirst, hvector, hentries, ?_⟩
  intro i j u v hi hj
  have hi' := (List.getElem?_eq_some_iff.mp hi).1
  have hj' := (List.getElem?_eq_some_iff.mp hj).1
  obtain ⟨b, hb, hpart⟩ := Relation.mem_part_bound (c := c) hproper.nodup hi hj
  have hentry : (out.relation.get i j).eval c ≠ .i :=
    hentries _ (FlowMatrix.mem_entries.mpr ⟨i, j, out.relation.size_eq ▸ hi',
      out.relation.size_eq ▸ hj', rfl⟩)
  exact ⟨_, b, Relation.cell_apply hi' hj', hb, hpart .m (by decide) (by decide),
    hpart .w (by decide) (by decide), hpart .p (by decide) (by decide), Relation.cell_ne_i hentry,
    Relation.cell_eq⟩

namespace Doubling

/-- The first loop and the assignment behind it as the body of a function. -/
def resetting : Function := ⟨["int"], "f", [], doubling.take 2⟩

/-- Under the first choice nothing of the relation counts but what `b` keeps. -/
def resettingResult : FunctionResult :=
  { name := "f", infinite := false, index := 1, vars := ["a", "b"]
    bounds := some [("a", ⟨["a"], [], []⟩), ("b", ⟨["b"], [], []⟩)]
    choices := some ⟨[[[0, 2]]], 1⟩
    relation := some relation }

theorem outcome_resetting : outcome options ["a", "b"]
    ((Plan.ofStmts options resetting.body).run options { index := 0 }) =
      .ok ⟨relation, 1, ⟨[[[0, 2]]], 1⟩, false⟩ := by
  have hplan : Plan.ofStmts options resetting.body = .andThen (.andThen .skip (sumLoop "a" "b"))
      (.simple (.assign "a" (.const 1)) (.flow (.zero ["a"]))) := rfl
  have hassign : (Plan.andThen (.andThen .skip (sumLoop "a" "b"))
      (.simple (.assign "a" (.const 1)) (.flow (.zero ["a"])))).run options { index := 0 } =
        (.ok relation, firstWalk) :=
    Plan.run_andThen_of_ok run_first rfl rfl (by decide +kernel)
  have hrelation : (Relation.identity ["a", "b"]).compose relation = relation := by decide +kernel
  have hchoices : relation.choices choiceValues 1 [] = .ok ⟨[[[0, 2]]], 1⟩ := by decide +kernel
  rw [hplan, hassign]
  exact outcome_of_ok rfl hrelation hchoices

theorem analyze_resetting : (analyzeFunction options resetting).result.1 = .ok resettingResult := by
  refine analyzeFunction_ok_iff.mpr ⟨by decide, ⟨relation, 1, ⟨[[[0, 2]]], 1⟩, false⟩, ?_,
    by decide +kernel⟩
  rw [show resetting.names = ["a", "b"] by decide +kernel]
  exact outcome_resetting

end Doubling

/-- The relation has an `i` in each entry, and none of them counts under the first choice. What `a` held
is gone, yet the bound of `a` lists it: nothing of the entry counts, and it lies on the diagonal. -/
theorem finite_result_faithful_resetting :
    (analyzeFunction Doubling.options Doubling.resetting).result.1 = .ok Doubling.resettingResult ∧
    Doubling.resettingResult.infinite = false ∧
    ∃ bounds b, Doubling.resettingResult.bounds = some bounds ∧ Assoc.get? bounds "a" = some b ∧
      "a" ∈ b.linear ∧ (Doubling.relation.get 0 0).eval [0] = .o := by
  refine ⟨Doubling.analyze_resetting, rfl, ?_⟩
  obtain ⟨R, choices, bounds, c, hR, hchoices, hbounds, hfirst, _, _, hcells⟩ :=
    finite_result_faithful Doubling.analyze_resetting rfl
  cases hR
  cases hchoices
  obtain rfl : c = [0] := Option.some.inj (hfirst.symm.trans (by decide))
  obtain ⟨s, b, hs, hb, hlinear, _⟩ := hcells 0 0 "a" "a" rfl rfl
  have hcell : s = .m := Option.some.inj (hs.symm.trans (by decide +kernel))
  exact ⟨bounds, b, hbounds, hb, hlinear.mpr hcell, by decide +kernel⟩

end GrowthFlow
