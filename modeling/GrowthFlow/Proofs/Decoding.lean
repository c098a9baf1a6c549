import GrowthFlow.Proofs.Tables
import GrowthFlow.Report.Codec

/-!
# Decoders read what was written

`Decoder.Reads d j a` says that `d` takes the value `a` out of the written value `j`, and `Decoder.Yields d Q`
that whatever `d` takes out of any text satisfies `Q`. Both have one law for each way of putting decoders
together.

A record is read field by field while it is written segment by segment: a field that is not known is left
out. `Fields.Codes r fs a` says that `r` takes `a` out of the segment `fs`, wherever the segment stands among
fields of other names. Segments are put together in the order in which the fields are declared, so no name
has to be looked up.
-/

namespace GrowthFlow.Json

/-! ## Nodes -/

theorem nodes_eq_map : ∀ js : List Json, nodes js = js.map node
  | [] => rfl
  | j :: js => by rw [nodes, nodes_eq_map js, List.map_cons]

theorem fieldNodes_eq_map : ∀ fs : List (String × Json),
    fieldNodes fs = fs.map fun f => (some f.1, node f.2)
  | [] => rfl
  | (k, j) :: fs => by rw [fieldNodes, fieldNodes_eq_map fs, List.map_cons]

namespace Decoder

variable {α β : Type} {d : Decoder α} {j : Json} {a : α}

/-! ## What is written is read -/

/-- The decoder takes `a` out of `j`. -/
def Reads (d : Decoder α) (j : Json) (a : α) : Prop := d j.node = .ok a

theorem reads_text (s : String) : text.Reads (.str s) s := rfl

theorem reads_bool (b : Bool) : bool.Reads (.bool b) b := rfl

theorem reads_natBelow {n limit : Nat} (h : n < limit) : (natBelow limit).Reads (.nat n) n :=
  if_pos h

theorem Reads.map {f : α → β} (h : d.Reads j a) : Reads (fun n => f <$> d n) j (f a) := by
  show f <$> d j.node = .ok (f a)
  rw [show d j.node = .ok a from h]
  rfl

theorem reads_list {as : List α} {f : α → Json} (h : ∀ a ∈ as, d.Reads (f a) a) :
    (list d).Reads (.ofList f as) as := by
  show (nodes (as.map f)).mapM d = .ok as
  rw [nodes_eq_map, List.map_map]
  exact mapM_map_of_ok h

theorem reads_strings (ss : List String) : (list text).Reads (.strings ss) ss :=
  reads_list fun s _ => reads_text s

theorem reads_pair {e : Decoder β} {j' : Json} {b : β} (ha : d.Reads j a) (hb : e.Reads j' b) :
    (pair d e).Reads (.arr [j, j']) (a, b) := by
  show (do return (← d j.node, ← e j'.node) : Except DecodeError (α × β)) = .ok (a, b)
  rw [show d j.node = .ok a from ha, show e j'.node = .ok b from hb]
  rfl

theorem Reads.checked {f : α → Except ShapeError β} {b : β} (h : d.Reads j a) (hf : f a = .ok b) :
    (checked d f).Reads j b := by
  have hd : d j.node = .ok a := h
  unfold Decoder.checked Reads
  simp only [hd, bind, Except.bind, hf]
  rfl

/-- A table without repeated keys is read as it is. -/
theorem reads_table {t : Assoc α} {f : α → Json} (hnd : t.keys.Nodup)
    (h : ∀ entry ∈ t, d.Reads (f entry.2) entry.2) : (table d).Reads (.obj (t.mapValues f)) t := by
  show Assoc.ofPairs <$> (fieldNodes (t.map fun e => (e.1, f e.2))).mapM (entry d) = .ok t
  have hentries : (t.map fun e => (some e.1, (f e.2).node)).mapM (entry d) = .ok t := by
    refine mapM_map_of_ok fun e he => ?_
    rw [entry, show d (f e.2).node = .ok e.2 from h e he]
    rfl
  rw [fieldNodes_eq_map, List.map_map]
  show Assoc.ofPairs <$> (t.map fun e => (some e.1, (f e.2).node)).mapM (entry d) = .ok t
  rw [hentries]
  exact congrArg Except.ok (Assoc.ofPairs_of_nodup hnd)

/-! ## What is read -/

/-- Whatever the decoder takes out of a text satisfies `Q`. -/
def Yields (d : Decoder α) (Q : α → Prop) : Prop := ∀ n a, d n = .ok a → Q a

theorem yields_natBelow (limit : Nat) : (natBelow limit).Yields (· < limit) := by
  intro n a h
  unfold natBelow at h
  split at h
  · split at h
    · rename_i hlt
      cases h
      exact hlt
    · cases h
  · cases h

theorem Yields.list {Q : α → Prop} (h : d.Yields Q) : (list d).Yields fun as => ∀ a ∈ as, Q a := by
  intro n as has a ha
  unfold Decoder.list at has
  split at has
  · obtain ⟨item, _, hitem⟩ := exists_of_mapM has a ha
    exact h item a hitem
  · cases has

theorem Yields.table {Q : α → Prop} (h : d.Yields Q) :
    (table d).Yields fun t => ∀ e ∈ t, Q e.2 := by
  intro n t ht e he
  unfold Decoder.table at ht
  split at ht
  · rename_i fields
    rcases hpairs : fields.mapM (entry d) with _ | pairs <;> rw [hpairs] at ht
    · cases ht
    · cases ht
      obtain ⟨⟨key, node⟩, _, hentry⟩ := exists_of_mapM hpairs e (Assoc.mem_ofPairs he)
      cases key with
      | none => cases hentry
      | some key =>
          rw [entry] at hentry
          rcases ha : d node with _ | a <;> rw [ha] at hentry
          · cases hentry
          · cases hentry
            exact h node a ha
  · cases ht

end Decoder

/-! ## Fields -/

namespace Fields

variable {α β : Type} {d : Decoder α} {name : String} {a : α}

/-- Names of fields before a segment and behind it that are not among the given ones. -/
structure Outside (names : List String) (before after : Assoc Json) : Prop where
  before : ∀ k ∈ names, k ∉ before.keys
  after : ∀ k ∈ names, k ∉ after.keys

/-- Among any fields of other names, `a` is taken out of the segment `fs`. -/
structure Codes (r : Fields α) (fs : Assoc Json) (a : α) : Prop where
  keys : fs.keys.Sublist r.names
  read : r.names.Nodup → ∀ before after, Outside r.names before after →
    r.read (fieldNodes (before ++ fs ++ after)) = .ok a

theorem find?_zipIdx_of_not_mem {fs : Assoc Json} (h : name ∉ fs.keys) (start : Nat) :
    ((fieldNodes fs).zipIdx start).find? (·.1.1 == some name) = none := by
  rw [List.find?_eq_none]
  intro field hfield
  rw [fieldNodes_eq_map] at hfield
  obtain ⟨f, hf, heq⟩ := List.mem_map.mp (List.fst_mem_of_mem_zipIdx hfield)
  rw [← heq, beq_iff_eq, Option.some.injEq]
  exact fun hname => h (hname ▸ List.mem_map_of_mem hf)

/-- A field is found at its place. -/
theorem readField_of_mem {before after : Assoc Json} {j : Json} (h : name ∉ before.keys)
    (hd : d.Reads j a) (absent : Option α) :
    readField name d absent (fieldNodes (before ++ [(name, j)] ++ after)) = .ok a := by
  have hfound : ((fieldNodes (before ++ [(name, j)] ++ after)).zipIdx).find? (·.1.1 == some name) =
      some ((some name, j.node), (fieldNodes before).length) := by
    have hsplit : fieldNodes (before ++ [(name, j)] ++ after) =
        fieldNodes before ++ (some name, j.node) :: fieldNodes after := by
      simp only [fieldNodes_eq_map, List.map_append, List.map_cons, List.append_assoc,
        List.singleton_append]
    rw [hsplit, List.zipIdx_append, List.find?_append, find?_zipIdx_of_not_mem h, List.zipIdx_cons,
      Option.none_or, List.find?_cons, beq_self_eq_true, Nat.zero_add]
  unfold readField
  rw [hfound]
  show (d j.node).mapError _ = .ok a
  rw [show d j.node = .ok a from hd]
  rfl

theorem readField_of_not_mem {fs : Assoc Json} (h : name ∉ fs.keys) (d : Decoder α) (a : α) :
    readField name d (some a) (fieldNodes fs) = .ok a := by
  unfold readField
  rw [find?_zipIdx_of_not_mem h]

theorem codes_pure (a : α) : Codes (pure a) [] a := ⟨List.Sublist.slnil, fun _ _ _ _ => rfl⟩

theorem codes_required (name : String) {j : Json} (h : d.Reads j a) : Codes (required name d) [(name, j)] a :=
  ⟨List.Sublist.refl _, fun _ _ _ hout =>
    readField_of_mem (hout.before name (List.mem_singleton_self name)) h none⟩

theorem codes_orElse (name : String) {j : Json} (h : d.Reads j a) (absent : α) :
    Codes (orElse name d absent) [(name, j)] a :=
  ⟨List.Sublist.refl _, fun _ _ _ hout =>
    readField_of_mem (hout.before name (List.mem_singleton_self name)) h (some absent)⟩

theorem codes_orElse_absent (d : Decoder α) (absent : α) :
    Codes (orElse name d absent) [] absent := by
  refine ⟨List.nil_sublist _, fun _ before after hout => readField_of_not_mem ?_ d absent⟩
  have hname := List.mem_singleton_self name
  rw [List.append_nil, Assoc.keys, List.map_append, List.mem_append, not_or]
  exact ⟨hout.before name hname, hout.after name hname⟩

/-- A value that may be missing is left out or written, but not as `null`. -/
theorem codes_optional {f : α → Json} {a : Option α} (h : ∀ x, a = some x → d.Reads (f x) x)
    (hnull : ∀ x, (f x).node ≠ .null) : Codes (optional name d) (field? name f a) a := by
  cases a with
  | none => exact codes_orElse_absent _ none
  | some x =>
      refine codes_orElse name ?_ none
      show Decoder.optional d (f x).node = .ok (some x)
      unfold Decoder.optional
      split
      · rename_i heq
        exact absurd heq (hnull x)
      · rw [show d (f x).node = .ok x from h x rfl]
        rfl

/-- Two segments are read one after the other. -/
theorem Codes.seq {r : Fields (α → β)} {s : Fields α} {fs gs : Assoc Json} {g : α → β}
    (hr : r.Codes fs g) (hs : s.Codes gs a) : Codes (r <*> s) (fs ++ gs) (g a) := by
  have hkeys : (fs ++ gs).keys = fs.keys ++ gs.keys := List.map_append
  refine ⟨hkeys ▸ hr.keys.append hs.keys, fun hnd before after hout => ?_⟩
  have hnd' : (r.names ++ s.names).Nodup := hnd
  obtain ⟨hndr, hnds, hdisjoint⟩ := List.nodup_append.mp hnd'
  have hread := hr.read hndr before (gs ++ after) ⟨fun k hk => hout.before k (List.mem_append_left _ hk),
    fun k hk hmem => by
      rw [Assoc.keys, List.map_append, List.mem_append] at hmem
      rcases hmem with hmem | hmem
      · exact hdisjoint k hk k (hs.keys.subset hmem) rfl
      · exact hout.after k (List.mem_append_left _ hk) hmem⟩
  have hread' := hs.read hnds (before ++ fs) after ⟨fun k hk hmem => by
      rw [Assoc.keys, List.map_append, List.mem_append] at hmem
      rcases hmem with hmem | hmem
      · exact hout.before k (List.mem_append_right _ hk) hmem
      · exact hdisjoint k (hr.keys.subset hmem) k hk rfl,
    fun k hk => hout.after k (List.mem_append_right _ hk)⟩
  show both (r.read _) (s.read _) = .ok (g a)
  rw [show before ++ (fs ++ gs) ++ after = before ++ fs ++ (gs ++ after) by simp, hread,
    show before ++ fs ++ (gs ++ after) = before ++ fs ++ gs ++ after by simp, hread']
  rfl

theorem Codes.map {s : Fields α} {gs : Assoc Json} (hs : s.Codes gs a) (g : α → β) :
    Codes (g <$> s) gs (g a) :=
  (codes_pure g).seq hs

/-- No field is out of place where the names are known and none repeats. -/
theorem stray?_of_known {names : List String} {fs : Assoc Json} (hknown : ∀ k ∈ fs.keys, k ∈ names)
    (hnd : fs.keys.Nodup) {before : List (Option String)} (hnew : ∀ k ∈ fs.keys, some k ∉ before) :
    stray? names before (fieldNodes fs) = none := by
  induction fs generalizing before with
  | nil => rfl
  | cons f fs ih =>
      obtain ⟨k, j⟩ := f
      have hk := hknown k List.mem_cons_self
      have hb := hnew k List.mem_cons_self
      rw [Assoc.keys, List.map_cons, List.nodup_cons] at hnd
      rw [fieldNodes, stray?, isStray, List.contains_iff_mem.mpr hk, if_pos rfl,
        if_neg (by rwa [List.contains_iff_mem])]
      refine ih (fun l hl => hknown l (List.mem_cons_of_mem _ hl)) hnd.2 fun l hl hmem => ?_
      rcases List.mem_append.mp hmem with hmem | hmem
      · exact hnew l (List.mem_cons_of_mem _ hl) hmem
      · cases List.mem_singleton.mp hmem
        exact hnd.1 hl

/-- **A record is read from the segments of its fields.** -/
theorem Codes.record {r : Fields α} {fs : Assoc Json} (h : r.Codes fs a) (hnd : r.names.Nodup) :
    r.record.Reads (.obj fs) a := by
  have hstray : stray? r.names [] (fieldNodes fs) = none :=
    stray?_of_known h.keys.subset (h.keys.nodup hnd) fun _ _ => List.not_mem_nil
  have hread := h.read hnd [] [] ⟨fun _ _ => List.not_mem_nil, fun _ _ => List.not_mem_nil⟩
  rw [List.nil_append, List.append_nil] at hread
  show Fields.record r (.record (fieldNodes fs)) = .ok a
  rw [Fields.record, hstray, hread]

/-! ## What is taken out of fields -/

/-- Whatever is taken out of fields satisfies `Q`. -/
def Yields (r : Fields α) (Q : α → Prop) : Prop := ∀ fs a, r.read fs = .ok a → Q a

theorem yields_readField {Q : α → Prop} (h : d.Yields Q) (absent : Option α)
    (habsent : ∀ x, absent = some x → Q x) {fs : List (Option String × Node)}
    (hread : readField name d absent fs = .ok a) : Q a := by
  unfold readField at hread
  split at hread
  · rename_i n i _
    rcases hn : d n with _ | x <;> rw [hn] at hread
    · cases hread
    · cases hread
      exact h n a hn
  · split at hread
    · cases hread
      exact habsent a rfl
    · cases hread

theorem yields_required {Q : α → Prop} (h : d.Yields Q) : (required name d).Yields Q :=
  fun _ _ hread => yields_readField h none (fun _ hx => nomatch hx) hread

theorem yields_orElse {Q : α → Prop} (h : d.Yields Q) {absent : α} (habsent : Q absent) :
    (orElse name d absent).Yields Q :=
  fun _ _ hread =>
    yields_readField h (some absent) (fun _ hx => Option.some.inj hx ▸ habsent) hread

/-- What is taken out of two fields is taken out of each. -/
theorem exists_of_seq {r : Fields (α → β)} {s : Fields α} {fs : List (Option String × Node)} {b : β}
    (h : (r <*> s).read fs = .ok b) : ∃ g a, b = g a ∧ r.read fs = .ok g ∧ s.read fs = .ok a := by
  have hboth : both (r.read fs) (s.read fs) = .ok b := h
  rcases hr : r.read fs with _ | g <;> rcases hs : s.read fs with _ | a <;> rw [hr, hs] at hboth
  · cases hboth
  · cases hboth
  · cases hboth
  · cases hboth
    exact ⟨g, a, rfl, rfl, rfl⟩

theorem exists_of_map {s : Fields α} {g : α → β} {fs : List (Option String × Node)} {b : β}
    (h : (g <$> s).read fs = .ok b) : ∃ a, b = g a ∧ s.read fs = .ok a := by
  obtain ⟨_, a, rfl, hg, ha⟩ := exists_of_seq (r := pure g) h
  cases hg
  exact ⟨a, rfl, ha⟩

theorem Yields.record {r : Fields α} {Q : α → Prop} (h : r.Yields Q) : r.record.Yields Q := by
  intro n a hn
  unfold Fields.record at hn
  split at hn
  · rename_i fs
    split at hn
    · rename_i hread
      cases hn
      exact h fs a hread
    · cases hn
    · cases hn
    · cases hn
  · rename_i items
    split at hn
    · rename_i x hread
      split at hn
      · cases hn
        exact h _ a hread
      · cases hn
    · cases hn
  · cases hn

end Fields

end GrowthFlow.Json
