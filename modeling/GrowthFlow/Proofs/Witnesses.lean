import GrowthFlow.Choice.Witness
import GrowthFlow.Proofs.Value

/-!
# Simplifying witnesses changes nothing that they cover

A set of witnesses covers the choice vectors that satisfy one of them. Each of the three rules keeps
exactly these vectors:

* a witness that is dropped contains another one, which is met whenever it is;
* what witnesses have in common that take every value at an index is met only by vectors that meet one of
  them, since the vector has *some* value of the domain there;
* a vector that does not have the only value left at an index meets a witness of length one.

The last two need every index to be one that the vectors have (`Inside`). Nothing else about vectors
matters: all that is asked is which demands can be met, and that at each index some value of the domain can
(`Supplies`). So the same holds of boxes, in which a demand can be met if its value is allowed.
-/

namespace GrowthFlow

/-- Whether a vector satisfies one of the witnesses. -/
def Covers (ws : List Witness) (v : List Nat) : Prop := ∃ w ∈ ws, satisfies v w = true

/-- Demands at indices below `n`. -/
def Inside (n : Nat) (ws : List Witness) : Prop := ∀ w ∈ ws, ∀ d ∈ w, d.index < n

/-- Sorted demands at indices below `n`. -/
def Fits (n : Nat) (ws : List Witness) : Prop :=
  ∀ w ∈ ws, Sorted w ∧ ∀ d ∈ w, d.index < n

/-- The vectors of `n` values of the domain. -/
structure IsVector (domain : List Nat) (n : Nat) (v : List Nat) : Prop where
  length : v.length = n
  mem : ∀ x ∈ v, x ∈ domain

theorem satisfies_iff {v : List Nat} {w : Witness} :
    satisfies v w = true ↔ ∀ d ∈ w, v[d.index]? = some d.value :=
  Selection.meets_iff (σ := .ofVector v)

theorem satisfies_mono {v : List Nat} {w w' : Witness} (h : ∀ d ∈ w, d ∈ w')
    (hv : satisfies v w' = true) : satisfies v w = true :=
  Selection.meets_mono (σ := .ofVector v) h hv

theorem Fits.inside {n : Nat} {ws : List Witness} (h : Fits n ws) : Inside n ws := fun w hw => (h w hw).2

/-- Each witness of the first set is what is left of one of the second. -/
def Thins (vs ws : List Witness) : Prop := ∀ v ∈ vs, ∃ w ∈ ws, v.Sublist w

theorem Thins.refl (ws : List Witness) : Thins ws ws := fun w hw => ⟨w, hw, List.Sublist.refl w⟩

theorem Thins.trans {us vs ws : List Witness} (h : Thins us vs) (h' : Thins vs ws) : Thins us ws := by
  intro u hu
  obtain ⟨v, hv, huv⟩ := h u hu
  obtain ⟨w, hw, hvw⟩ := h' v hv
  exact ⟨w, hw, huv.trans hvw⟩

theorem Thins.inside {n : Nat} {vs ws : List Witness} (h : Thins vs ws) (hws : Inside n ws) : Inside n vs := by
  intro v hv d hd
  obtain ⟨w, hw, hsub⟩ := h v hv
  exact hws w hw d (hsub.subset hd)

theorem Thins.fits {n : Nat} {vs ws : List Witness} (h : Thins vs ws) (hws : Fits n ws) : Fits n vs := by
  intro v hv
  obtain ⟨w, hw, hsub⟩ := h v hv
  exact ⟨List.Pairwise.sublist hsub (hws w hw).1, h.inside hws.inside v hv⟩

theorem Fits.mono {n : Nat} {ws vs : List Witness} (h : Fits n ws) (hsub : ∀ w ∈ vs, w ∈ ws) :
    Fits n vs := fun w hw => h w (hsub w hw)

/-- All demands of one of the witnesses can be met. -/
def Met (Q : Delta → Prop) (ws : List Witness) : Prop := ∃ w ∈ ws, ∀ d ∈ w, Q d

/-- At each of `n` indices, the demand for some value of the domain can be met. -/
def Supplies (domain : List Nat) (n : Nat) (Q : Delta → Prop) : Prop := ∀ k < n, ∃ x ∈ domain, Q ⟨x, k⟩

theorem covers_iff_met {ws : List Witness} {v : List Nat} :
    Covers ws v ↔ Met (fun d => v[d.index]? = some d.value) ws :=
  exists_congr fun _ => and_congr_right fun _ => satisfies_iff

theorem IsVector.supplies {domain : List Nat} {n : Nat} {v : List Nat} (h : IsVector domain n v) :
    Supplies domain n fun d => v[d.index]? = some d.value := by
  intro k hk
  have hlt : k < v.length := h.length.symm ▸ hk
  exact ⟨v[k], h.mem _ (List.getElem_mem hlt), List.getElem?_eq_getElem hlt⟩

/-- A pass over a list that adds to what it keeps nothing but the members of the list. -/
theorem mem_of_mem_foldl {α : Type} {f : List α → α → List α} {x : α}
    (hf : ∀ kept b, x ∈ f kept b → x ∈ kept ∨ x = b) :
    ∀ (bs kept : List α), x ∈ bs.foldl f kept → x ∈ kept ∨ x ∈ bs
  | [], _, h => .inl h
  | b :: bs, kept, h => by
      rcases mem_of_mem_foldl hf bs (f kept b) h with h | h
      · rcases hf kept b h with h | rfl
        · exact .inl h
        · exact .inr List.mem_cons_self
      · exact .inr (List.mem_cons_of_mem _ h)

/-! ## Dropping witnesses that contain another one -/

namespace Witness

theorem mem_of_searchFrom {w : Witness} {d : Delta} : ∀ {fuel base size : Nat},
    w.searchFrom d fuel base size = true → d ∈ w
  | 0, base, _, h => List.mem_of_getElem? (beq_iff_eq.mp h)
  | fuel + 1, base, size, h => by
      rw [searchFrom] at h
      split at h
      · exact List.mem_of_getElem? (beq_iff_eq.mp h)
      · exact mem_of_searchFrom h

theorem mem_of_isPartOf {small large : Witness} (h : small.isPartOf large = true) :
    ∀ d ∈ small, d ∈ large :=
  fun d hd => mem_of_searchFrom (List.all_eq_true.mp h d hd)

end Witness

namespace Witnesses

theorem mem_insertByLength {w x : Witness} {ws : List Witness} :
    x ∈ insertByLength w ws ↔ x = w ∨ x ∈ ws := by
  induction ws with
  | nil => simp [insertByLength]
  | cons v vs ih =>
      rw [insertByLength]
      split
      · exact List.mem_cons
      · rw [List.mem_cons, ih, List.mem_cons]
        exact or_left_comm

@[simp] theorem mem_byLength {x : Witness} {ws : List Witness} : x ∈ byLength ws ↔ x ∈ ws := by
  induction ws with
  | nil => exact Iff.rfl
  | cons w ws ih =>
      show x ∈ insertByLength w (byLength ws) ↔ _
      rw [mem_insertByLength, ih, List.mem_cons]

/-- One more witness beside those that are kept. -/
def keep (kept : List Witness) (w : Witness) : List Witness :=
  if kept.any (·.isPartOf w) then kept else kept ++ [w]

theorem subsume_def (ws : Witnesses) : subsume ws = Ordered.ofList ((byLength ws).foldl keep []) :=
  rfl

theorem mem_keep {x : Witness} (kept : List Witness) (w : Witness) (h : x ∈ keep kept w) :
    x ∈ kept ∨ x = w := by
  unfold keep at h
  split at h
  · exact .inl h
  · rcases List.mem_append.mp h with h | h
    · exact .inl h
    · exact .inr (List.mem_singleton.mp h)

/-- What is kept stays, and every witness contains one that is kept. -/
theorem exists_part_foldl_keep : ∀ (ws kept : List Witness) {w : Witness}, w ∈ kept ∨ w ∈ ws →
    ∃ k ∈ ws.foldl keep kept, ∀ d ∈ k, d ∈ w
  | [], _, w, h => by
      rcases h with h | h
      · exact ⟨w, h, fun _ hd => hd⟩
      · exact absurd h List.not_mem_nil
  | v :: ws, kept, w, h => by
      have hstays : ∀ x ∈ kept, x ∈ keep kept v := by
        intro x hx
        unfold keep
        split
        · exact hx
        · exact List.mem_append_left _ hx
      rcases h with h | h
      · exact exists_part_foldl_keep ws _ (.inl (hstays w h))
      · rcases List.mem_cons.mp h with rfl | h
        · -- `w` itself is looked at: it is kept, or contains one that is
          by_cases hany : kept.any (·.isPartOf w) = true
          · obtain ⟨k, hk, hpart⟩ := List.any_eq_true.mp hany
            obtain ⟨x, hx, hsub⟩ := exists_part_foldl_keep ws _ (.inl (hstays k hk))
            exact ⟨x, hx, fun d hd => Witness.mem_of_isPartOf hpart d (hsub d hd)⟩
          · have hw : w ∈ keep kept w := by
              unfold keep
              rw [if_neg hany]
              exact List.mem_append_right _ (List.mem_singleton_self w)
            exact exists_part_foldl_keep ws _ (.inl hw)
        · exact exists_part_foldl_keep ws _ (.inr h)

theorem mem_of_mem_subsume {x : Witness} {ws : Witnesses} (h : x ∈ subsume ws) : x ∈ ws := by
  rw [subsume_def, Ordered.mem_ofList] at h
  rcases mem_of_mem_foldl mem_keep _ _ h with h | h
  · exact absurd h List.not_mem_nil
  · exact mem_byLength.mp h

variable {domain : List Nat} {n : Nat} {Q : Delta → Prop} {ws : Witnesses}

theorem met_subsume : Met Q (subsume ws) ↔ Met Q ws := by
  constructor
  · rintro ⟨w, hw, hmet⟩
    exact ⟨w, mem_of_mem_subsume hw, hmet⟩
  · rintro ⟨w, hw, hmet⟩
    obtain ⟨k, hk, hpart⟩ := exists_part_foldl_keep _ [] (.inr (mem_byLength.mpr hw))
    refine ⟨k, ?_, fun d hd => hmet d (hpart d hd)⟩
    rw [subsume_def, Ordered.mem_ofList]
    exact hk

theorem thins_subsume (ws : Witnesses) : Thins (subsume ws) ws :=
  fun w hw => ⟨w, mem_of_mem_subsume hw, List.Sublist.refl w⟩

/-! ## Adding what witnesses have in common -/

theorem mem_foldl_insert_if {β : Type} {f : β → Witness} {p : β → Bool} {x : Witness} :
    ∀ (bs : List β) (acc : Witnesses),
      (x ∈ bs.foldl (fun acc b => if p b then Ordered.insert (f b) acc else acc) acc ↔
        x ∈ acc ∨ ∃ b ∈ bs, p b = true ∧ x = f b)
  | [], acc => by simp
  | b :: bs, acc => by
      rw [List.foldl_cons, mem_foldl_insert_if bs]
      simp only [List.mem_cons, or_and_right, exists_or, exists_eq_left]
      rw [← or_assoc]
      refine or_congr_left ?_
      split
      · rename_i hp
        rw [Ordered.mem_insert_iff, or_comm]
        simp [hp]
      · rename_i hp
        simp [hp]

/-- A saturated set has the old witnesses, and each of them without a delta whose every value is
covered. -/
theorem mem_saturate {x : Witness} :
    x ∈ saturate domain ws ↔ x ∈ ws ∨ ∃ w ∈ ws, ∃ b ∈ w.zipIdx,
      ws.coversAt domain w b.2 b.1 = true ∧ x = w.eraseIdx b.2 := by
  -- `ws` is asked throughout, while the witnesses to be looked at run out and the result grows.
  have key : ∀ (vs acc : Witnesses),
      (x ∈ vs.foldl (fun acc w => w.zipIdx.foldl (fun acc b =>
        if ws.coversAt domain w b.2 b.1 then Ordered.insert (w.eraseIdx b.2) acc else acc) acc) acc ↔
        x ∈ acc ∨ ∃ w ∈ vs, ∃ b ∈ w.zipIdx,
          ws.coversAt domain w b.2 b.1 = true ∧ x = w.eraseIdx b.2) := by
    intro vs
    induction vs with
    | nil => simp
    | cons v vs ih =>
        intro acc
        rw [List.foldl_cons, ih, mem_foldl_insert_if]
        simp only [List.mem_cons, or_and_right, exists_or, exists_eq_left, or_assoc]
  exact key ws ws

/-- If the rest of a witness can be met, so can the witness with a value at the index left out that can be
met there. -/
theorem forall_mem_set {w : Witness} {pos : Nat} {e : Delta} (hrest : ∀ d ∈ w.eraseIdx pos, Q d) (he : Q e) :
    ∀ d ∈ w.set pos e, Q d := by
  intro d hd
  obtain ⟨k, hk⟩ := List.mem_iff_getElem?.mp hd
  rw [List.getElem?_set] at hk
  split at hk
  · split at hk
    · exact Option.some.inj hk ▸ he
    · exact absurd hk (by simp)
  · rename_i hne
    exact hrest d (List.mem_eraseIdx_iff_getElem?.mpr ⟨k, Ne.symm hne, hk⟩)

theorem met_saturate (hws : Inside n ws) (hQ : Supplies domain n Q) :
    Met Q (saturate domain ws) ↔ Met Q ws := by
  constructor
  · rintro ⟨x, hx, hmet⟩
    rcases mem_saturate.mp hx with hx | ⟨w, hw, ⟨d, pos⟩, hb, hcov, rfl⟩
    · exact ⟨x, hx, hmet⟩
    · -- some value of the domain can be met at the index left out
      have hd : d ∈ w := List.mem_of_getElem? (List.mem_zipIdx_iff_getElem?.mp hb)
      obtain ⟨y, hy, hyQ⟩ := hQ d.index (hws w hw d hd)
      exact ⟨_, List.contains_iff_mem.mp (List.all_eq_true.mp hcov y hy), forall_mem_set hmet hyQ⟩
  · rintro ⟨w, hw, hmet⟩
    exact ⟨w, mem_saturate.mpr (.inl hw), hmet⟩

theorem thins_saturate (domain : List Nat) (ws : Witnesses) : Thins (saturate domain ws) ws := by
  intro x hx
  rcases mem_saturate.mp hx with hx | ⟨w, hw, b, _, _, rfl⟩
  · exact ⟨x, hx, List.Sublist.refl x⟩
  · exact ⟨w, hw, List.eraseIdx_sublist w b.2⟩

/-! ## Leaving out what is the only way -/

theorem mem_singles {d : Delta} : d ∈ ws.singles ↔ [d] ∈ ws := by
  unfold singles
  rw [List.mem_filterMap]
  constructor
  · rintro ⟨w, hw, heq⟩
    split at heq
    · rename_i e
      rwa [← Option.some.inj heq]
    · exact absurd heq (by simp)
  · exact fun h => ⟨[d], h, rfl⟩

/-- Every value of the domain but that of a forced delta is excluded by a witness of length one. -/
theorem single_of_forced {d : Delta}
    (hd : d ∈ ws.forced domain) {x : Nat} (hx : x ∈ domain) (hne : x ≠ d.value) :
    [⟨x, d.index⟩] ∈ ws := by
  unfold forced at hd
  rw [List.mem_filterMap] at hd
  obtain ⟨index, _, heq⟩ := hd
  split at heq
  · rename_i y hfilter
    have hd' := Option.some.inj heq
    subst hd'
    refine Classical.byContradiction fun hnot => hne ?_
    have hmem : x ∈ domain.filter (fun v => !ws.singles.contains ⟨v, index⟩) := by
      rw [List.mem_filter]
      refine ⟨hx, ?_⟩
      simpa [mem_singles] using hnot
    rw [hfilter] at hmem
    exact List.mem_singleton.mp hmem
  · exact absurd heq (by simp)

theorem mem_dropForced {x : Witness} :
    x ∈ dropForced domain ws ↔ ∃ w ∈ ws,
      (if w.length > 1 then w.filter (!(ws.forced domain).contains ·) else w) = x := by
  unfold dropForced
  rw [Ordered.mem_ofList, List.mem_map]

theorem met_dropForced (hws : Inside n ws) (hQ : Supplies domain n Q) :
    Met Q (dropForced domain ws) ↔ Met Q ws := by
  constructor
  · rintro ⟨x, hx, hmet⟩
    obtain ⟨w, hw, heq⟩ := mem_dropForced.mp hx
    split at heq
    · subst heq
      by_cases hall : ∀ d ∈ w, Q d
      · exact ⟨w, hw, hall⟩
      · -- a demand that was left out cannot be met, so another value can at its index
        rw [Classical.not_forall] at hall
        obtain ⟨d, hall⟩ := hall
        obtain ⟨hd, hne⟩ := Classical.not_imp.mp hall
        have hforced : d ∈ ws.forced domain := by
          refine Classical.byContradiction fun hnot => hne ?_
          refine hmet d (List.mem_filter.mpr ⟨hd, ?_⟩)
          simpa using hnot
        obtain ⟨y, hy, hyQ⟩ := hQ d.index (hws w hw d hd)
        have hother : y ≠ d.value := by
          rintro rfl
          exact hne hyQ
        refine ⟨_, single_of_forced hforced hy hother, fun e he => ?_⟩
        rw [List.mem_singleton.mp he]
        exact hyQ
    · subst heq
      exact ⟨w, hw, hmet⟩
  · rintro ⟨w, hw, hmet⟩
    refine ⟨_, mem_dropForced.mpr ⟨w, hw, rfl⟩, ?_⟩
    split
    · exact fun d hd => hmet d (List.mem_filter.mp hd).1
    · exact hmet

theorem thins_dropForced (domain : List Nat) (ws : Witnesses) : Thins (dropForced domain ws) ws := by
  intro x hx
  obtain ⟨w, hw, heq⟩ := mem_dropForced.mp hx
  refine ⟨w, hw, ?_⟩
  split at heq
  · exact heq ▸ List.filter_sublist
  · exact heq ▸ List.Sublist.refl w

/-! ## All three rules, as often as they are used -/

theorem thins_step (domain : List Nat) (ws : Witnesses) : Thins (ws.step domain) ws :=
  (thins_subsume _).trans ((thins_dropForced domain _).trans
    ((thins_subsume _).trans (thins_saturate domain ws)))

theorem met_step (hws : Inside n ws) (hQ : Supplies domain n Q) : Met Q (ws.step domain) ↔ Met Q ws := by
  have hbetween : Inside n (subsume (saturate domain ws)) :=
    ((thins_subsume _).trans (thins_saturate domain ws)).inside hws
  unfold step
  rw [met_subsume, met_dropForced hbetween hQ, met_subsume, met_saturate hws hQ]

theorem thins_simplifyWithin (domain : List Nat) (fuel : Nat) (ws : Witnesses) :
    Thins (simplifyWithin domain fuel ws) ws := by
  induction fuel generalizing ws with
  | zero => exact Thins.refl ws
  | succ fuel ih =>
      rw [simplifyWithin]
      split
      · exact Thins.refl ws
      · exact (ih _).trans (thins_step domain ws)

theorem met_simplifyWithin (hQ : Supplies domain n Q) (fuel : Nat) (hws : Inside n ws) :
    Met Q (simplifyWithin domain fuel ws) ↔ Met Q ws := by
  induction fuel generalizing ws with
  | zero => exact Iff.rfl
  | succ fuel ih =>
      rw [simplifyWithin]
      split
      · exact Iff.rfl
      · rw [ih ((thins_step domain ws).inside hws), met_step hws hQ]

theorem thins_simplify (domain : List Nat) (ws : Witnesses) : Thins (simplify domain ws) ws :=
  (thins_simplifyWithin domain _ _).trans (thins_subsume ws)

/-- **Simplification keeps what can be met.** -/
theorem met_simplify (hws : Inside n ws) (hQ : Supplies domain n Q) :
    Met Q (simplify domain ws) ↔ Met Q ws := by
  unfold simplify
  rw [met_simplifyWithin hQ _ ((thins_subsume ws).inside hws), met_subsume]

theorem fits_simplify (domain : List Nat) (h : Fits n ws) : Fits n (simplify domain ws) :=
  (thins_simplify domain ws).fits h

theorem covers_simplify {v : List Nat} (hfits : Fits n ws) (hvec : IsVector domain n v) :
    Covers (simplify domain ws) v ↔ Covers ws v := by
  rw [covers_iff_met, covers_iff_met, met_simplify hfits.inside hvec.supplies]

end Witnesses

end GrowthFlow
