import GrowthFlow.Choice.Choices
import GrowthFlow.Proofs.Boxes

/-!
# Choices are the widest clear boxes

A box is *clear* of witnesses when it leaves out a value of each. The boxes of the generated choices are the
clear boxes that no wider one contains, each once (`Choices.exists_spans`). Simplifying the witnesses first
makes no difference: what a box can meet of the simplified ones it can meet of the given ones
(`isClear_simplify_iff`).

None of this asks what the vectors of a box are, nor that the demands of a witness are sorted. A witness that
asks for two values at one index is satisfied by no vector, yet a box that allows both does not avoid it. So
the boxes may be smaller than the vectors would need, but it is always the same boxes.
-/

namespace GrowthFlow

namespace Box

variable {domain : List Nat} {n : Nat} {ws vs : List Witness} {a b : Box}

/-- The demands whose value a box allows. -/
def Allows (b : Box) (d : Delta) : Prop := d.value ∈ b.allowed d.index

theorem IsBox.supplies (hb : IsBox domain n b) : Supplies domain n b.Allows := by
  intro k hk
  obtain ⟨x, hx⟩ := List.exists_mem_of_ne_nil _ (hb.nonempty k hk)
  exact ⟨x, hb.mem k x hx, hx⟩

/-- A box avoids every witness when it cannot meet one. -/
theorem forall_avoids_iff : (∀ w ∈ ws, b.avoids w = true) ↔ ¬ Met b.Allows ws := by
  unfold Met
  rw [not_exists]
  refine forall_congr' fun w => ?_
  rw [not_and, Classical.not_forall, avoids_iff]
  refine imp_congr_right fun _ => exists_congr fun d => ?_
  exact Classical.not_imp.symm

/-- A box over a domain that avoids every witness. -/
structure IsClear (domain : List Nat) (n : Nat) (ws : List Witness) (b : Box) : Prop where
  box : IsBox domain n b
  avoids : ∀ w ∈ ws, b.avoids w = true

/-- A clear box that lies inside no other one. -/
structure IsWidest (domain : List Nat) (n : Nat) (ws : List Witness) (b : Box) : Prop where
  clear : IsClear domain n ws b
  widest : ∀ a, IsClear domain n ws a → b.Within a → a = b

theorem IsClear.mono (h : IsClear domain n ws b) (hsub : ∀ w ∈ vs, w ∈ ws) : IsClear domain n vs b :=
  ⟨h.box, fun w hw => h.avoids w (hsub w hw)⟩

theorem isClear_append_iff :
    IsClear domain n (ws ++ vs) b ↔ IsClear domain n ws b ∧ IsClear domain n vs b := by
  constructor
  · exact fun h => ⟨h.mono fun _ => List.mem_append_left vs, h.mono fun _ => List.mem_append_right ws⟩
  · rintro ⟨h, h'⟩
    exact ⟨h.box, fun w hw => (List.mem_append.mp hw).elim (h.avoids w) (h'.avoids w)⟩

theorem isWidest_congr (h : ∀ b, IsClear domain n ws b ↔ IsClear domain n vs b) :
    IsWidest domain n ws b ↔ IsWidest domain n vs b := by
  constructor
  · exact fun hb => ⟨(h b).mp hb.clear, fun a ha => hb.widest a ((h a).mpr ha)⟩
  · exact fun hb => ⟨(h b).mpr hb.clear, fun a ha => hb.widest a ((h a).mp ha)⟩

/-- Simplification leaves the same boxes clear. -/
theorem isClear_simplify_iff (hws : Inside n ws) :
    IsClear domain n (Witnesses.simplify domain ws) b ↔ IsClear domain n ws b := by
  have havoids : IsBox domain n b → ((∀ w ∈ Witnesses.simplify domain ws, b.avoids w = true) ↔
      ∀ w ∈ ws, b.avoids w = true) := by
    intro hb
    rw [forall_avoids_iff, forall_avoids_iff, Witnesses.met_simplify hws hb.supplies]
  exact ⟨fun h => ⟨h.box, (havoids h.box).mp h.avoids⟩, fun h => ⟨h.box, (havoids h.box).mpr h.avoids⟩⟩

/-- Clear boxes of which none lies inside another one are the widest, if every clear box lies inside one of
them. -/
theorem mem_iff_widest {bs : List Box} (hbs : Antichain bs) (hclear : ∀ b ∈ bs, IsClear domain n ws b)
    (hwithin : ∀ a, IsClear domain n ws a → ∃ k ∈ bs, a.Within k) : b ∈ bs ↔ IsWidest domain n ws b := by
  constructor
  · intro hb
    refine ⟨hclear b hb, fun a ha hba => ?_⟩
    -- `b` lies inside `a`, which lies inside one of the boxes: these are all one
    obtain ⟨k, hk, hak⟩ := hwithin a ha
    have hbk : b = k := hbs b hb k hk (hba.trans hak)
    subst hbk
    exact Within.antisymm ha.box (hclear b hb).box hak hba
  · intro h
    obtain ⟨k, hk, hbk⟩ := hwithin b h.clear
    rw [← h.widest k (hclear k hk) hbk]
    exact hk

/-! ## The search finds the widest ones -/

theorem allowed_full {k : Nat} (hk : k < n) : (full domain n).allowed k = Ordered.ofList domain := by
  simp [full, allowed, hk]

theorem isBox_full (hd : domain ≠ []) (n : Nat) : IsBox domain n (full domain n) where
  length := by simp [full]
  nonempty k hk := by
    rw [allowed_full hk]
    obtain ⟨x, hx⟩ := List.exists_mem_of_ne_nil domain hd
    exact List.ne_nil_of_mem (Ordered.mem_ofList.mpr hx)
  increasing k := by
    rcases Nat.lt_or_ge k n with hk | hk
    · rw [allowed_full hk]
      exact Ordered.increasing_ofList domain
    · simp [full, allowed, hk]
  mem k x hx := by
    have hk : k < n := by simpa [full] using lt_length_of_mem hx
    rw [allowed_full hk] at hx
    exact Ordered.mem_ofList.mp hx

theorem IsBox.within_full (hb : IsBox domain n b) : b.Within (full domain n) := by
  refine ⟨by simp [full, hb.length], ?_⟩
  intro k x hx
  have hk : k < n := hb.length ▸ lt_length_of_mem hx
  rw [allowed_full hk]
  exact Ordered.mem_ofList.mpr (hb.mem k x hx)

/-- What the search finds for a set of witnesses. -/
def found (domain : List Nat) (n : Nat) (ws : Witnesses) : List Box :=
  search (Witnesses.byLength ws) (full domain n)

theorem mem_avoiding : b ∈ avoiding domain n ws ↔ b ∈ maximal (found domain n ws) :=
  Ordered.mem_ofList

theorem nodup_avoiding (domain : List Nat) (n : Nat) (ws : Witnesses) : (avoiding domain n ws).Nodup :=
  (Ordered.increasing_ofList _).nodup

theorem isClear_of_found (hd : domain ≠ []) (h : b ∈ found domain n ws) : IsClear domain n ws b := by
  obtain ⟨hbox, _, hall⟩ := search_sound _ (isBox_full hd n) h
  exact ⟨hbox, fun w hw => hall w (Witnesses.mem_byLength.mpr hw)⟩

/-- Every clear box lies inside one that is kept. -/
theorem exists_maximal_of_clear (h : IsClear domain n ws b) :
    ∃ k ∈ maximal (found domain n ws), b.Within k := by
  obtain ⟨t, ht, hbt⟩ := search_complete h.box (Witnesses.byLength ws) h.box.within_full
    fun w hw => h.avoids w (Witnesses.mem_byLength.mp hw)
  obtain ⟨k, hk, htk⟩ := exists_mem_maximal ht
  exact ⟨k, hk, hbt.trans htk⟩

/-- The boxes that are kept are the widest clear boxes. -/
theorem mem_avoiding_iff_widest (hd : domain ≠ []) :
    b ∈ avoiding domain n ws ↔ IsWidest domain n ws b := by
  rw [mem_avoiding]
  exact mem_iff_widest (antichain_maximal _) (fun _ hk => isClear_of_found hd (mem_of_mem_maximal hk))
    fun _ ha => exists_maximal_of_clear ha

/-- Every clear box lies inside a widest one. -/
theorem IsClear.exists_widest (hd : domain ≠ []) (h : IsClear domain n ws b) :
    ∃ k, IsWidest domain n ws k ∧ b.Within k := by
  obtain ⟨k, hk, hbk⟩ := exists_maximal_of_clear h
  exact ⟨k, (mem_avoiding_iff_widest hd).mp (mem_avoiding.mpr hk), hbk⟩

theorem nodup_maximal (bs : List Box) : (maximal bs).Nodup := by
  have hfold : ∀ (bs kept : List Box), kept.Nodup → (bs.foldl addMaximal kept).Nodup := by
    intro bs
    induction bs with
    | nil => exact fun kept h => h
    | cons b bs ih =>
        intro kept h
        refine ih _ ?_
        unfold addMaximal
        split
        · exact h
        · refine List.nodup_append.mpr ⟨h.filter _, List.pairwise_singleton _ b, ?_⟩
          -- a box contains itself, so it is not among those that stay beside it
          rintro x hx y hy rfl
          rw [List.mem_singleton.mp hy] at hx
          have hself := contains_iff.mpr (Within.refl b)
          simp [hself] at hx
  exact hfold bs [] List.nodup_nil

end Box

/-! ## Generated choices -/

namespace Choices

variable {domain : List Nat} {n : Nat} {ws : List Witness}

theorem inside_ofList (h : Inside n ws) : Inside n (Ordered.ofList ws) :=
  fun w hw => h w (Ordered.mem_ofList.mp hw)

/-- Witnesses at indices that the vectors have are never an error. -/
theorem generate_of_inside (hd : domain ≠ []) (hws : Inside n ws) :
    generate domain n ws =
      .ok ⟨Box.avoiding domain n (Witnesses.simplify domain (Ordered.ofList ws)), n⟩ := by
  have hinside : ((Ordered.ofList ws).flatten.find? fun d => decide (n ≤ d.index)) = none := by
    rw [List.find?_eq_none]
    intro d hd
    obtain ⟨w, hw, hdw⟩ := List.mem_flatten.mp hd
    simpa using inside_ofList hws w hw d hdw
  have havoided : ((Witnesses.simplify domain (Ordered.ofList ws)).find? fun w =>
      (Box.avoiding domain n (Witnesses.simplify domain (Ordered.ofList ws))).any
        (!·.avoids w)) = none := by
    rw [List.find?_eq_none]
    intro w hw hany
    obtain ⟨b, hb, hnot⟩ := List.any_eq_true.mp hany
    have havoids := ((Box.mem_avoiding_iff_widest hd).mp hb).clear.avoids w hw
    simp [havoids] at hnot
  unfold generate
  simp only [hinside, havoided]

/-- The boxes are the widest that are clear of the witnesses, each once. -/
structure Spans (domain : List Nat) (n : Nat) (ws : List Witness) (ch : Choices) : Prop where
  index : ch.index = n
  nodup : ch.boxes.Nodup
  boxes : ∀ b, b ∈ ch.boxes ↔ Box.IsWidest domain n ws b

theorem isClear_generated_iff (hws : Inside n ws) {b : Box} :
    Box.IsClear domain n (Witnesses.simplify domain (Ordered.ofList ws)) b ↔ Box.IsClear domain n ws b := by
  rw [Box.isClear_simplify_iff (inside_ofList hws)]
  exact ⟨fun h => h.mono fun _ => Ordered.mem_ofList.mpr, fun h => h.mono fun _ => Ordered.mem_ofList.mp⟩

/-- **Choices are found, and they are the widest clear boxes.** -/
theorem exists_spans (hd : domain ≠ []) (hws : Inside n ws) :
    ∃ ch, generate domain n ws = .ok ch ∧ ch.Spans domain n ws := by
  refine ⟨_, generate_of_inside hd hws, rfl, ?_, fun b => ?_⟩
  · dsimp only
    exact Box.nodup_avoiding domain n _
  · rw [Box.mem_avoiding_iff_widest hd]
    exact Box.isWidest_congr fun _ => isClear_generated_iff hws

end Choices

end GrowthFlow
