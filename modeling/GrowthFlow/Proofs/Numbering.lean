import GrowthFlow.Proofs.RegularRuns
import GrowthFlow.Proofs.Relabelling

/-!
# Where the numbering starts

The parts of a program are analyzed one by one, and each can number its choices from where the one before
stopped. This moves the numbers and changes nothing else: an analysis from `s` on is the analysis from `0`
on with every index moved up by `s`.

The runs are alike because the flows of simple statements mention no index, so the plan of a body matches
itself at every offset. The choices are not followed through their search. They are the largest boxes that
avoid the witnesses, and below `s` no witness asks for anything; a largest box is therefore full there,
and behind it is a largest box for the witnesses before they were moved.
-/

namespace GrowthFlow

open Lang

/-! ## Boxes over moved witnesses -/

namespace Box

variable {domain : List Nat} {n s : Nat} {ws : List Witness} {a b : Box}

theorem allowed_drop (b : Box) (s k : Nat) : Box.allowed (b.drop s) k = b.allowed (s + k) := by
  unfold allowed
  rw [List.getElem?_drop]

theorem allowed_full_append (b : Box) (s k : Nat) :
    Box.allowed (full domain s ++ b) k =
      if k < s then Ordered.ofList domain else b.allowed (k - s) := by
  have hlength : (full domain s).length = s := by simp [full]
  unfold allowed
  rw [List.getElem?_append, hlength]
  split
  · rename_i hlt
    exact allowed_full hlt
  · rfl

theorem drop_full_append (s : Nat) (b : Box) : (full domain s ++ b).drop s = b :=
  List.drop_left' (by simp [full])

theorem IsBox.drop (hb : IsBox domain (s + n) b) : IsBox domain n (b.drop s) where
  length := by
    rw [List.length_drop, hb.length]
    omega
  nonempty k hk := by
    rw [allowed_drop]
    exact hb.nonempty (s + k) (by omega)
  increasing k := by
    rw [allowed_drop]
    exact hb.increasing (s + k)
  mem k x hx := by
    rw [allowed_drop] at hx
    exact hb.mem (s + k) x hx

theorem IsBox.full_append (hd : domain ≠ []) (hb : IsBox domain n b) :
    IsBox domain (s + n) (full domain s ++ b) where
  length := by
    rw [List.length_append, hb.length]
    simp [full]
  nonempty k hk := by
    rw [allowed_full_append]
    split
    · rename_i hlt
      rw [← allowed_full hlt]
      exact (isBox_full hd s).nonempty k hlt
    · exact hb.nonempty (k - s) (by omega)
  increasing k := by
    rw [allowed_full_append]
    split
    · exact Ordered.increasing_ofList domain
    · exact hb.increasing (k - s)
  mem k x hx := by
    rw [allowed_full_append] at hx
    split at hx
    · exact Ordered.mem_ofList.mp hx
    · exact hb.mem (k - s) x hx

theorem Within.drop (h : a.Within b) (s : Nat) : Box.Within (a.drop s) (b.drop s) := by
  refine ⟨by rw [List.length_drop, List.length_drop, h.1], fun k x hx => ?_⟩
  rw [allowed_drop] at hx ⊢
  exact h.2 (s + k) x hx

/-- A box lies within its last part behind full sets. -/
theorem IsBox.within_full_append (ha : IsBox domain (s + n) a) (h : Box.Within (a.drop s) b) :
    a.Within (full domain s ++ b) := by
  refine ⟨?_, fun k x hx => ?_⟩
  · have hlength := ha.drop.length.symm.trans h.1
    rw [List.length_append, ha.length, hlength]
    simp [full]
  · rw [allowed_full_append]
    split
    · exact Ordered.mem_ofList.mpr (ha.mem k x hx)
    · have hk : s + (k - s) = k := by omega
      refine h.2 (k - s) x ?_
      rwa [allowed_drop, hk]

theorem avoids_shift (b : Box) (w : Witness) :
    b.avoids (Witness.shift s w) = Box.avoids (b.drop s) w := by
  unfold avoids Witness.shift
  refine any_map_of (fun d => ?_) w
  rw [List.getElem?_drop, Delta.shift, Nat.add_comm]

theorem fits_shift (h : Fits n ws) : Fits (s + n) (ws.map (Witness.shift s)) := by
  intro w' hw'
  obtain ⟨w, hw, rfl⟩ := List.mem_map.mp hw'
  obtain ⟨hsorted, hbelow⟩ := h w hw
  refine ⟨List.pairwise_map.mpr (hsorted.imp fun hlt => Nat.add_lt_add_right hlt s), fun d' hd' => ?_⟩
  obtain ⟨d, hd, rfl⟩ := List.mem_map.mp hd'
  have hlt := hbelow d hd
  show d.index + s < s + n
  omega

/-- Whether a box is safe from moved witnesses depends on its last part only. -/
theorem isSafeBox_shift (hfits : Fits n ws) :
    IsSafeBox domain (s + n) (ws.map (Witness.shift s)) a ↔
      IsBox domain (s + n) a ∧ IsSafeBox domain n ws (a.drop s) := by
  rw [isSafeBox_iff (fits_shift hfits), isSafeBox_iff hfits]
  simp only [List.forall_mem_map, avoids_shift]
  exact ⟨fun h => ⟨h.1, h.1.drop, h.2⟩, fun h => ⟨h.1, h.2.2⟩⟩

theorem IsSafeBox.full_append (hd : domain ≠ []) (hfits : Fits n ws) (hb : IsSafeBox domain n ws b) :
    IsSafeBox domain (s + n) (ws.map (Witness.shift s)) (full domain s ++ b) := by
  refine (isSafeBox_shift hfits).mpr ⟨hb.box.full_append hd, ?_⟩
  rw [drop_full_append]
  exact hb

theorem IsLargest.eq_of_within (hb : IsLargest domain n ws b) (ha : IsSafeBox domain n ws a)
    (h : b.Within a) : a = b := hb.largest a ha fun _ hv => hv.mono h

/-- **The largest boxes that avoid moved witnesses** are those that avoid the witnesses, behind full
sets. -/
theorem isLargest_shift (hd : domain ≠ []) (hfits : Fits n ws) :
    IsLargest domain (s + n) (ws.map (Witness.shift s)) a ↔
      ∃ b, IsLargest domain n ws b ∧ full domain s ++ b = a := by
  constructor
  · intro ha
    obtain ⟨hbox, hsafe⟩ := (isSafeBox_shift hfits).mp ha.safe
    -- a largest box is full at the first indices, as it may be
    have hfull : full domain s ++ a.drop s = a :=
      ha.eq_of_within (hsafe.full_append hd hfits) (hbox.within_full_append (Within.refl _))
    refine ⟨a.drop s, ⟨hsafe, fun c hc hhas => ?_⟩, hfull⟩
    have hwithin : a.Within (full domain s ++ c) :=
      hbox.within_full_append (within_of_has hsafe.box hc.box hhas)
    have heq := ha.eq_of_within (hc.full_append hd hfits) hwithin
    rw [← heq, drop_full_append]
  · rintro ⟨b, hb, rfl⟩
    refine ⟨hb.safe.full_append hd hfits, fun c hc hhas => ?_⟩
    obtain ⟨hbox, hsafe⟩ := (isSafeBox_shift hfits).mp hc
    have hwithin := within_of_has (hb.safe.box.full_append hd) hbox hhas
    have hdrop := hwithin.drop s
    rw [drop_full_append] at hdrop
    have heq := hb.eq_of_within hsafe hdrop
    refine Within.antisymm hbox (hb.safe.box.full_append hd) ?_ hwithin
    exact hbox.within_full_append (heq ▸ Within.refl _)

end Box

/-! ## Choices -/

namespace Choices

/-- The choices with `s` indices more in front, where every value is allowed. -/
def shift (s : Nat) (ch : Choices) : Choices where
  boxes := ch.boxes.map (List.replicate s choiceValues ++ ·)
  index := ch.index + s

variable {n s : Nat} {ws : List Witness} {ch : Choices}

theorem Exact.shift (hfits : Fits n ws) (h : Exact choiceValues n ws ch) :
    Exact choiceValues (n + s) (ws.map (Witness.shift s)) (ch.shift s) where
  index := by rw [Choices.shift, h.index]
  increasing := List.pairwise_map.mpr (h.increasing.imp fun hlt => List.append_left_lt hlt)
  boxes a := by
    have hfull : Box.full choiceValues s = List.replicate s choiceValues := rfl
    rw [Nat.add_comm, Box.isLargest_shift (by decide) hfits, Choices.shift, List.mem_map, hfull]
    exact exists_congr fun b => and_congr_left fun _ => h.boxes b

theorem generate_shift (hfits : Fits n ws) :
    generate choiceValues (n + s) (ws.map (Witness.shift s)) =
      (generate choiceValues n ws).map (shift s) := by
  have hd : choiceValues ≠ [] := by decide
  have hfits' : Fits (n + s) (ws.map (Witness.shift s)) := Nat.add_comm s n ▸ Box.fits_shift hfits
  obtain ⟨ch, hfound, hexact⟩ := exact_of_fits hd hfits
  obtain ⟨ch', hfound', hexact'⟩ := exact_of_fits hd hfits'
  rw [hfound, hfound', hexact'.unique (hexact.shift hfits) fun _ _ => Iff.rfl]
  rfl

end Choices

/-! ## Runs from an offset -/

theorem Poly.Proper.shift_eq {p : Poly} (h : p.Proper fun _ => False) (s : Nat) : p.shift s = p := by
  have hsame : ∀ m ∈ p.monomials, m.shift s = m := by
    intro m hm
    have hnone : m.deltas = [] := List.eq_nil_iff_forall_not_mem.mpr (h m hm).2.demands
    rw [Monomial.shift, hnone]
    exact congrArg (Monomial.mk m.scalar) hnone.symm
  unfold Poly.shift
  rw [List.map_congr_left hsame, List.map_id']

namespace FlowMatrix

theorem entries_shift (s : Nat) (M : FlowMatrix) :
    (M.shift s).entries = M.entries.map (Poly.shift s) := by
  have hentries : ∀ f : Nat → Nat → Poly,
      ((ofFn M.size f).shift s).entries = (ofFn M.size f).entries.map (Poly.shift s) := by
    intro f
    rw [shift_ofFn]
    simp only [entries, ofFn, List.map_flatten, List.map_map, Function.comp_def]
  have hself := hentries M.get
  rwa [ofFn_get rfl] at hself

end FlowMatrix

namespace Relation

/-- The relation with its indices moved up. -/
def shift (s : Nat) (R : Relation) : Relation :=
  ⟨R.vars, R.matrix.shift s, by rw [FlowMatrix.size_shift, R.size_eq]⟩

variable {P : String → Prop} {k s : Nat} {R : Relation}

theorem relabel_id (s : Nat) (R : Relation) : R.relabel id s = R.shift s :=
  ext_matrix (List.map_id R.vars) rfl

/-- A relation that demands nothing mentions no index. -/
theorem Proper.shift_eq (h : R.Proper fun _ => False) (s : Nat) : R.shift s = R := by
  refine ext_matrix rfl (FlowMatrix.ext_get (by rw [shift, FlowMatrix.size_shift]) fun i j hi hj => ?_)
  rw [shift, FlowMatrix.size_shift, R.size_eq] at hi hj
  rw [shift, FlowMatrix.get_shift]
  have hentry := h.entries R.vars[i] R.vars[j]
  unfold entry at hentry
  rw [FlowMatrix.between_of_places h.nodup (List.getElem?_eq_getElem hi)
    (List.getElem?_eq_getElem hj)] at hentry
  exact hentry.shift_eq s

theorem Regular.choices_shift (hR : R.Regular P k) (s : Nat) :
    (R.shift s).choices choiceValues (k + s) [] =
      (R.choices choiceValues k []).map (Choices.shift s) := by
  have hfits : Fits k (R.matrix.entries.flatMap (·.infinities [])) := by
    refine hR.fits [] fun p hp => ?_
    obtain ⟨x, _, y, _, hp⟩ := (mem_matrix_entries hR.normal.nodup).mp hp
    exact ⟨x, y, hp⟩
  unfold choices
  rw [← Choices.generate_shift hfits, shift, FlowMatrix.entries_shift, List.flatMap_map,
    List.map_flatMap]
  simp only [Poly.infinities_shift]

end Relation

namespace Effect

theorem WellFormed.relabel_id {e : Effect} (h : e.WellFormed) (s : Nat) : e.relabel id s = e := by
  cases e with
  | nothing => rfl
  | flow R => rw [relabel, Relation.relabel_id, h.1.shift_eq]
  | choice x operands scalars => rw [relabel, List.map_id, id]
  | unsupported => rfl

end Effect

namespace Plan

/-- A well-formed plan matches itself at every offset. -/
theorem matches_self {p : Plan} (h : p.WellFormed) (s : Nat) : Matches id s p p := by
  induction p with
  | simple st e =>
      have hmatch := Matches.simple (r := id) (s := s) st st e
      rwa [Effect.WellFormed.relabel_id h] at hmatch
  | andThen p q ihp ihq => exact .andThen (ihp h.1) (ihq h.2)
  | either p q ihp ihq => exact .either (ihp h.1) (ihq h.2)
  | loop guard p ihp =>
      have hmatch := Matches.loop guard (ihp h)
      rwa [Option.map_id, id] at hmatch

end Plan

namespace Outcome

/-- The outcome with its indices moved up. -/
def shift (s : Nat) (out : Outcome) : Outcome where
  relation := out.relation.shift s
  index := out.index + s
  choices := out.choices.shift s
  covered := out.covered

end Outcome

theorem outcome_shift (opts : Options) {P : String → Prop} {vars : List String} {s : Nat} {T : Relation}
    {w w' : Walk} (hvars : vars.Nodup) (hP : ∀ x ∈ vars, P x) (hT : T.Regular P w.index)
    (hw : w.Apart s w') :
    outcome opts vars (.ok (T.relabel id s), w') =
      (outcome opts vars (.ok T, w)).map (Outcome.shift s) := by
  have hrelation : (Relation.identity vars).compose (T.relabel id s) =
      ((Relation.identity vars).compose T).shift s := by
    rw [← Relation.relabel_id, Relation.relabel_compose Function.injective_id,
      Relation.relabel_identity, List.map_id]
  have hregular := (Relation.regular_identity hvars hP w.index).compose hT
  cases hstops : w.stops opts with
  | true =>
      rw [outcome_of_stops hstops, outcome_of_stops ((hw.stops opts).trans hstops), hrelation, hw.index,
        hw.covered]
      rfl
  | false =>
      obtain ⟨ch, hfound, _⟩ := hregular.exists_choices []
      have hmoved := hregular.choices_shift s
      rw [hfound, ← hw.index] at hmoved
      rw [outcome_of_ok hstops rfl hfound,
        outcome_of_ok ((hw.stops opts).trans hstops) hrelation hmoved, hw.index, hw.covered]
      rfl

/-- **An analysis from an offset on is the analysis from zero on, with its indices moved up.** Both have
the same error if they fail. -/
theorem analyzeBody_offset (opts : Options) (s : Nat) (body : List Stmt) :
    (analyzeBody opts s body).result.1 =
      (analyzeBody opts 0 body).result.1.map (Outcome.shift s) := by
  by_cases hbody : body = []
  · subst hbody
    rfl
  · have hwell := Plan.wellFormed_ofStmts opts body
    have hover : (Plan.ofStmts opts body).Over fun _ => True :=
      Plan.over_ofStmts opts fun _ _ => trivial
    have hapart : Walk.Apart s { index := 0 } { index := s } := ⟨(Nat.zero_add s).symm, rfl, rfl⟩
    have halike := (Plan.matches_self hwell s).run Function.injective_id opts hapart
    rw [result_analyzeBody opts s hbody, result_analyzeBody opts 0 hbody]
    rcases halike.cases with ⟨T, w, w', hrun, hrun', hw⟩ | ⟨e, w, w', hrun, hrun'⟩
    · rw [hrun, hrun']
      exact outcome_shift opts (increasing_namesAll body).nodup (fun _ _ => trivial)
        (Plan.regular_of_run hwell hover hrun).2 hw
    · rw [hrun, hrun']
      rfl

end GrowthFlow
