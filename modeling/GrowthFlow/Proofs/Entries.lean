import GrowthFlow.Flow.Relation
import GrowthFlow.Proofs.PolyValue

/-!
# Relations by the names of their variables

A relation is laid out by the places of its variables, and every operation that combines two relations
first brings them to a common layout. None of this shows when entries are looked up by name: an unknown
variable keeps its value, so a relation has an entry between any two names, and extending it changes no
entry.

In this view composition is one formula for all four cases of the alignment (`entry_compose`): the sum,
over the variables of both relations, of the products of entries.
-/

namespace GrowthFlow

/-- The entry between two names where nothing flows: a variable keeps its value. -/
def unchanged (x y : String) : Poly := if x = y then .unit else .zero

/-- The names of both lists, those of the first before the others. -/
def unionNames (xs ys : List String) : List String := xs ++ ys.filter (!xs.contains ·)

theorem mem_unionNames {xs ys : List String} {x : String} :
    x ∈ unionNames xs ys ↔ x ∈ xs ∨ x ∈ ys := by
  unfold unionNames
  rw [List.mem_append, List.mem_filter]
  by_cases h : x ∈ xs
  · simp [h]
  · simp [h]

theorem nodup_unionNames {xs ys : List String} (hxs : xs.Nodup) (hys : ys.Nodup) :
    (unionNames xs ys).Nodup := by
  unfold unionNames
  rw [List.nodup_append]
  refine ⟨hxs, List.Pairwise.filter _ hys, ?_⟩
  rintro x hx y hy rfl
  have := (List.mem_filter.mp hy).2
  simp [hx] at this

theorem unionNames_self (xs : List String) : unionNames xs xs = xs := by
  have hfilter : xs.filter (!xs.contains ·) = [] := by
    rw [List.filter_eq_nil_iff]
    intro x hx
    simp [hx]
  rw [unionNames, hfilter, List.append_nil]

namespace FlowMatrix

/-- The entry of a matrix between two names, given the names of its rows and columns. -/
def between (M : FlowMatrix) (vars : List String) (x y : String) : Poly :=
  match vars.idxOf? x, vars.idxOf? y with
  | some i, some j => M.get i j
  | _, _ => unchanged x y

end FlowMatrix

/-- In a list without repeats a name has one place. -/
theorem idxOf?_iff {vars : List String} (hnd : vars.Nodup) {x : String} {i : Nat} :
    vars.idxOf? x = some i ↔ vars[i]? = some x := by
  rw [List.idxOf?_eq_some_iff, List.getElem?_eq_some_iff]
  constructor
  · rintro ⟨hi, hx, _⟩
    exact ⟨hi, hx⟩
  · rintro ⟨hi, hx⟩
    refine ⟨hi, hx, ?_⟩
    intro j hj heq
    have hne := List.pairwise_iff_getElem.mp hnd j i (by omega) hi hj
    exact hne (heq.trans hx.symm)

theorem exists_place {vars : List String} {x : String} (h : x ∈ vars) :
    ∃ i, i < vars.length ∧ vars[i]? = some x := by
  obtain ⟨i, hi⟩ := List.mem_iff_getElem?.mp h
  exact ⟨i, (List.getElem?_eq_some_iff.mp hi).1, hi⟩

/-- What is done at each place of a list is done for each of its members. -/
theorem map_range_length {α β : Type} (zs : List α) {f : α → β} {g : Nat → β}
    (h : ∀ k z, zs[k]? = some z → g k = f z) : (List.range zs.length).map g = zs.map f := by
  refine List.ext_getElem (by simp) fun k hk hk' => ?_
  rw [List.length_map] at hk'
  rw [List.getElem_map, List.getElem_map, List.getElem_range]
  exact h k zs[k] (List.getElem?_eq_getElem hk')

/-- A sum over the places of a list is a sum over its members. -/
theorem sumOver_range {α : Type} (zs : List α) {f : α → Poly} {g : Nat → Poly}
    (h : ∀ k z, zs[k]? = some z → g k = f z) :
    Poly.sumOver (List.range zs.length) g = Poly.sumOver zs f := by
  have hmap : ∀ {β : Type} (ys : List β) (e : β → Poly),
      Poly.sumOver ys e = (ys.map e).foldl (· + ·) .zero := fun _ _ => List.foldl_map.symm
  rw [hmap, hmap, map_range_length zs h]

namespace FlowMatrix

variable {vars : List String} {x y : String}

theorem between_of_places (hnd : vars.Nodup) {i j : Nat} (hi : vars[i]? = some x)
    (hj : vars[j]? = some y) (M : FlowMatrix) : M.between vars x y = M.get i j := by
  unfold between
  rw [(idxOf?_iff hnd).mpr hi, (idxOf?_iff hnd).mpr hj]

theorem between_of_not_mem (M : FlowMatrix) (h : x ∉ vars ∨ y ∉ vars) :
    M.between vars x y = unchanged x y := by
  unfold between
  rcases h with h | h
  · rw [List.idxOf?_eq_none_iff.mpr h]
  · rw [List.idxOf?_eq_none_iff.mpr h]
    split
    · rename_i heq
      exact absurd heq (by simp)
    · rfl

theorem between_ofFn (hnd : vars.Nodup) {i j : Nat} (hi : vars[i]? = some x)
    (hj : vars[j]? = some y) (f : Nat → Nat → Poly) :
    (ofFn vars.length f).between vars x y = f i j := by
  rw [between_of_places hnd hi hj]
  exact get_ofFn f (List.getElem?_eq_some_iff.mp hi).1 (List.getElem?_eq_some_iff.mp hj).1

/-- In a list without repeats, two places are the same exactly when the names are. -/
theorem place_eq_iff (hnd : vars.Nodup) {i j : Nat} (hi : vars[i]? = some x)
    (hj : vars[j]? = some y) : i = j ↔ x = y := by
  constructor
  · rintro rfl
    rw [hi, Option.some.injEq] at hj
    exact hj
  · rintro rfl
    rw [← idxOf?_iff hnd] at hi hj
    rw [hi, Option.some.injEq] at hj
    exact hj

theorem between_identity (hnd : vars.Nodup) :
    (identity vars.length).between vars x y = unchanged x y := by
  by_cases hmem : x ∈ vars ∧ y ∈ vars
  · obtain ⟨i, _, hi⟩ := exists_place hmem.1
    obtain ⟨j, _, hj⟩ := exists_place hmem.2
    unfold identity
    rw [between_ofFn hnd hi hj]
    simp only [place_eq_iff hnd hi hj]
    rfl
  · exact between_of_not_mem _ (Decidable.not_and_iff_not_or_not.mp hmem)

/-- A matrix is laid out from its own entries. -/
theorem ofFn_get {M : FlowMatrix} {n : Nat} (hsize : M.size = n) : ofFn n M.get = M := by
  refine ext_get (by rw [size_ofFn, hsize]) ?_
  intro i j hi hj
  rw [size_ofFn] at hi hj
  exact get_ofFn M.get hi hj

/-- The entries are what stands at the places. -/
theorem mem_entries {M : FlowMatrix} {p : Poly} :
    p ∈ M.entries ↔ ∃ i j, i < M.size ∧ j < M.size ∧ M.get i j = p := by
  unfold entries
  rw [List.mem_flatten]
  constructor
  · rintro ⟨row, hrow, hp⟩
    obtain ⟨i, hi⟩ := List.mem_iff_getElem?.mp hrow
    obtain ⟨j, hj⟩ := List.mem_iff_getElem?.mp hp
    have hi' : i < M.size := (List.getElem?_eq_some_iff.mp hi).1
    have hj' : j < M.size :=
      Nat.lt_of_lt_of_eq (List.getElem?_eq_some_iff.mp hj).1 (M.square row hrow)
    exact ⟨i, j, hi', hj', by simp [get, hi, hj]⟩
  · rintro ⟨i, j, hi, hj, rfl⟩
    have hi' : i < M.rows.length := hi
    have hrow := List.getElem_mem hi'
    have hj' : j < M.rows[i].length := Nat.lt_of_lt_of_eq hj (M.square _ hrow).symm
    exact ⟨M.rows[i], hrow, by simp [get, hi', hj']⟩

theorem size_mul (M N : FlowMatrix) : (M * N).size = M.size := size_ofFn ..

theorem size_add (M N : FlowMatrix) : (M + N).size = min M.size N.size := size_ofFn ..

/-- The product of two matrices, by name. -/
theorem between_mul (hnd : vars.Nodup) {M N : FlowMatrix} (hM : M.size = vars.length)
    (hx : x ∈ vars) (hy : y ∈ vars) :
    (M * N).between vars x y =
      .sumOver vars fun z => M.between vars x z * N.between vars z y := by
  obtain ⟨i, _, hi⟩ := exists_place hx
  obtain ⟨j, _, hj⟩ := exists_place hy
  have hdef : M * N = ofFn vars.length fun i j =>
      Poly.sumOver (List.range vars.length) fun k => M.get i k * N.get k j := by
    rw [← hM]
    rfl
  rw [hdef, between_ofFn hnd hi hj]
  refine sumOver_range vars fun k z hk => ?_
  rw [between_of_places hnd hi hk, between_of_places hnd hk hj]

/-- The sum of two matrices, by name. -/
theorem between_add (hnd : vars.Nodup) {M N : FlowMatrix} (hM : M.size = vars.length)
    (hN : N.size = vars.length) (hx : x ∈ vars) (hy : y ∈ vars) :
    (M + N).between vars x y = M.between vars x y + N.between vars x y := by
  obtain ⟨i, _, hi⟩ := exists_place hx
  obtain ⟨j, _, hj⟩ := exists_place hy
  have hdef : M + N = ofFn vars.length fun i j => M.get i j + N.get i j := by
    show ofFn (min M.size N.size) _ = _
    rw [hM, hN, Nat.min_self]
  rw [hdef, between_ofFn hnd hi hj, between_of_places hnd hi hj, between_of_places hnd hi hj]

end FlowMatrix

namespace Relation

/-- The entry between two names. -/
def entry (R : Relation) (x y : String) : Poly := R.matrix.between R.vars x y

theorem entry_of_places {R : Relation} (hnd : R.vars.Nodup) {x y : String} {i j : Nat}
    (hi : R.vars[i]? = some x) (hj : R.vars[j]? = some y) : R.entry x y = R.get i j :=
  FlowMatrix.between_of_places hnd hi hj R.matrix

theorem entry_of_not_mem {R : Relation} {x y : String} (h : x ∉ R.vars ∨ y ∉ R.vars) :
    R.entry x y = unchanged x y :=
  FlowMatrix.between_of_not_mem R.matrix h

theorem entry_ofFn {vars : List String} (hnd : vars.Nodup) {x y : String} {i j : Nat}
    (hi : vars[i]? = some x) (hj : vars[j]? = some y) (f : Nat → Nat → Poly) :
    (ofFn vars f).entry x y = f i j :=
  FlowMatrix.between_ofFn hnd hi hj f

theorem get_ofFn {vars : List String} {i j : Nat} (f : Nat → Nat → Poly) (hi : i < vars.length)
    (hj : j < vars.length) : (ofFn vars f).get i j = f i j :=
  FlowMatrix.get_ofFn f hi hj

theorem mem_entries_iff {R : Relation} {p : Poly} :
    p ∈ R.matrix.entries ↔ ∃ i < R.vars.length, ∃ j < R.vars.length, R.get i j = p := by
  rw [FlowMatrix.mem_entries, R.size_eq]
  constructor
  · rintro ⟨i, j, hi, hj, h⟩
    exact ⟨i, hi, j, hj, h⟩
  · rintro ⟨i, hi, j, hj, h⟩
    exact ⟨i, j, hi, hj, h⟩

theorem get_mem_entries {R : Relation} {i j : Nat} (hi : i < R.vars.length) (hj : j < R.vars.length) :
    R.get i j ∈ R.matrix.entries :=
  mem_entries_iff.mpr ⟨i, hi, j, hj, rfl⟩

theorem place_of_position {R : Relation} {x : String} {j : Nat} (h : R.position? x = some j) :
    R.vars[j]? = some x := by
  obtain ⟨hlt, hget, _⟩ := List.idxOf?_eq_some_iff.mp h
  exact List.getElem?_eq_some_iff.mpr ⟨hlt, hget⟩

theorem lt_length_of_position {R : Relation} {x : String} {j : Nat} (h : R.position? x = some j) :
    j < R.vars.length :=
  (List.getElem?_eq_some_iff.mp (place_of_position h)).1

/-! ## A common layout -/

theorem mem_unionVariables {R S : Relation} {x : String} :
    x ∈ R.unionVariables S ↔ x ∈ R.vars ∨ x ∈ S.vars :=
  mem_unionNames

theorem nodup_unionVariables {R S : Relation} (hR : R.vars.Nodup) (hS : S.vars.Nodup) :
    (R.unionVariables S).Nodup :=
  nodup_unionNames hR hS

theorem unionVariables_of_vars_eq {R S : Relation} (h : R.vars = S.vars) :
    R.unionVariables S = R.vars := by
  show unionNames R.vars S.vars = R.vars
  rw [← h, unionNames_self]

theorem entry_identity {vars : List String} (hnd : vars.Nodup) (x y : String) :
    (identity vars).entry x y = unchanged x y :=
  FlowMatrix.between_identity hnd

/-- Extending a relation to more variables changes no entry. -/
theorem entry_extend {R : Relation} {rest : List String} (hR : R.vars.Nodup)
    (hnd : (R.vars ++ rest).Nodup) (x y : String) :
    (R.extend (R.vars ++ rest)).entry x y = R.entry x y := by
  by_cases hmem : x ∈ R.vars ++ rest ∧ y ∈ R.vars ++ rest
  · obtain ⟨i, _, hi⟩ := exists_place hmem.1
    obtain ⟨j, _, hj⟩ := exists_place hmem.2
    have hplace : ∀ {z : String} {k : Nat}, (R.vars ++ rest)[k]? = some z → z ∈ R.vars →
        k < R.vars.length := by
      intro z k hk hz
      obtain ⟨l, hl, hget⟩ := exists_place hz
      have hget' : (R.vars ++ rest)[l]? = some z := by
        rw [List.getElem?_append_left hl]
        exact hget
      rw [(FlowMatrix.place_eq_iff hnd hk hget').mpr rfl]
      exact hl
    show (FlowMatrix.resize R.matrix (R.vars ++ rest).length).between (R.vars ++ rest) x y = _
    unfold FlowMatrix.resize
    rw [FlowMatrix.between_ofFn hnd hi hj, R.size_eq]
    split
    · rename_i hlt
      rw [List.getElem?_append_left hlt.1] at hi
      rw [List.getElem?_append_left hlt.2] at hj
      exact (entry_of_places hR hi hj).symm
    · -- one of the two is new
      rename_i hnot
      have hnew : ¬ (x ∈ R.vars ∧ y ∈ R.vars) :=
        fun hold => hnot ⟨hplace hi hold.1, hplace hj hold.2⟩
      rw [entry_of_not_mem (Decidable.not_and_iff_not_or_not.mp hnew),
        ← FlowMatrix.between_of_places hnd hi hj]
      exact FlowMatrix.between_identity hnd
  · -- no variable of the extension, and so none of the relation either
    have hout := Decidable.not_and_iff_not_or_not.mp hmem
    rw [entry_of_not_mem hout, entry_of_not_mem]
    exact hout.imp (fun h hx => h (List.mem_append_left _ hx)) fun h hy => h (List.mem_append_left _ hy)

/-- Another layout with the same variables, or more, changes no entry. -/
theorem entry_realign {S : Relation} {vars : List String} (hnd : vars.Nodup)
    (hsub : ∀ x ∈ S.vars, x ∈ vars) (x y : String) : (S.realign vars).entry x y = S.entry x y := by
  by_cases hmem : x ∈ vars ∧ y ∈ vars
  · obtain ⟨i, _, hi⟩ := exists_place hmem.1
    obtain ⟨j, _, hj⟩ := exists_place hmem.2
    unfold realign
    rw [entry_ofFn hnd hi hj, hi, hj]
    simp only [FlowMatrix.place_eq_iff hnd hi hj]
    rfl
  · have hout := Decidable.not_and_iff_not_or_not.mp hmem
    rw [entry_of_not_mem (R := S.realign vars) hout, entry_of_not_mem]
    exact hout.imp (fun h hx => h (hsub x hx)) fun h hy => h (hsub y hy)

/-- Two relations after alignment: one layout, and the entries they had. -/
theorem align_spec {R S : Relation} (hR : R.vars.Nodup) (hS : S.vars.Nodup) :
    (align R S).1.vars = R.unionVariables S ∧ (align R S).2.vars = R.unionVariables S ∧
      (∀ x y, (align R S).1.entry x y = R.entry x y) ∧
      ∀ x y, (align R S).2.entry x y = S.entry x y := by
  unfold align
  -- One layout already, nothing on the left, nothing on the right, or two layouts to be joined.
  split
  · rename_i heq
    have hunion := unionVariables_of_vars_eq heq
    exact ⟨hunion.symm, hunion ▸ heq.symm, fun _ _ => rfl, fun _ _ => rfl⟩
  · split
    · rename_i hnil
      rw [List.isEmpty_iff] at hnil
      have hunion : R.unionVariables S = S.vars := by
        rw [unionVariables, hnil, List.nil_append, List.filter_eq_self]
        intro x _
        rfl
      refine ⟨hunion.symm, hunion.symm, ?_, fun _ _ => rfl⟩
      intro x y
      rw [entry_identity hS, entry_of_not_mem]
      exact .inl (hnil ▸ List.not_mem_nil)
    · split
      · rename_i hnil
        rw [List.isEmpty_iff] at hnil
        have hunion : R.unionVariables S = R.vars := by
          rw [unionVariables, hnil, List.filter_nil, List.append_nil]
        refine ⟨hunion.symm, hunion.symm, fun _ _ => rfl, ?_⟩
        intro x y
        rw [entry_identity hR, entry_of_not_mem]
        exact .inl (hnil ▸ List.not_mem_nil)
      · have hnd := nodup_unionVariables hR hS
        exact ⟨rfl, rfl, entry_extend hR hnd,
          entry_realign hnd fun x hx => mem_unionVariables.mpr (.inr hx)⟩

/-- Relations with the same layout are composed and summed as matrices. -/
theorem compose_of_vars_eq {R S : Relation} (h : R.vars = S.vars) :
    (R.compose S).vars = R.vars ∧ (R.compose S).matrix = R.matrix * S.matrix := by
  have halign : align R S = (R, S) := if_pos h
  unfold compose
  rw [halign]
  exact ⟨rfl, FlowMatrix.ofFn_get (by rw [FlowMatrix.size_mul, R.size_eq])⟩

theorem sum_of_vars_eq {R S : Relation} (h : R.vars = S.vars) :
    (R.sum S).vars = R.vars ∧ (R.sum S).matrix = R.matrix + S.matrix := by
  have halign : align R S = (R, S) := if_pos h
  unfold sum
  rw [halign]
  refine ⟨rfl, FlowMatrix.ofFn_get ?_⟩
  rw [FlowMatrix.size_add, R.size_eq, S.size_eq, h, Nat.min_self]

theorem vars_compose (R S : Relation) (hR : R.vars.Nodup) (hS : S.vars.Nodup) :
    (R.compose S).vars = R.unionVariables S :=
  (align_spec hR hS).1

theorem vars_sum (R S : Relation) (hR : R.vars.Nodup) (hS : S.vars.Nodup) :
    (R.sum S).vars = R.unionVariables S :=
  (align_spec hR hS).1

/-- A relation laid out from the entries of a matrix of its size has these entries. -/
theorem entry_ofFn_get {vars : List String} {M : FlowMatrix} (hsize : M.size = vars.length)
    (x y : String) : (ofFn vars M.get).entry x y = M.between vars x y := by
  show (FlowMatrix.ofFn vars.length M.get).between vars x y = _
  rw [FlowMatrix.ofFn_get hsize]

/-- **Composition by name**: the sum over the variables of both of what flows through them. -/
theorem entry_compose {R S : Relation} (hR : R.vars.Nodup) (hS : S.vars.Nodup) {x y : String}
    (hx : x ∈ R.unionVariables S) (hy : y ∈ R.unionVariables S) :
    (R.compose S).entry x y =
      .sumOver (R.unionVariables S) fun z => R.entry x z * S.entry z y := by
  obtain ⟨hA, hB, hentryA, hentryB⟩ := align_spec hR hS
  have hnd := nodup_unionVariables hR hS
  unfold compose
  rw [entry_ofFn_get (by rw [FlowMatrix.size_mul, size_eq]), hA]
  have hsize : (align R S).1.matrix.size = (R.unionVariables S).length := by rw [size_eq, hA]
  rw [FlowMatrix.between_mul hnd hsize hx hy]
  congr 1
  funext z
  rw [← hentryA x z, ← hentryB z y, entry, entry, hA, hB]

/-- Summation by name. -/
theorem entry_sum {R S : Relation} (hR : R.vars.Nodup) (hS : S.vars.Nodup) {x y : String}
    (hx : x ∈ R.unionVariables S) (hy : y ∈ R.unionVariables S) :
    (R.sum S).entry x y = R.entry x y + S.entry x y := by
  obtain ⟨hA, hB, hentryA, hentryB⟩ := align_spec hR hS
  have hnd := nodup_unionVariables hR hS
  have hsizeA : (align R S).1.matrix.size = (R.unionVariables S).length := by rw [size_eq, hA]
  have hsizeB : (align R S).2.matrix.size = (R.unionVariables S).length := by rw [size_eq, hB]
  unfold sum
  rw [entry_ofFn_get (by rw [FlowMatrix.size_add, hsizeA, hsizeB, Nat.min_self, hA]), hA,
    FlowMatrix.between_add hnd hsizeA hsizeB hx hy]
  rw [← hentryA x y, ← hentryB x y, entry, entry, hA, hB]

end Relation

end GrowthFlow
