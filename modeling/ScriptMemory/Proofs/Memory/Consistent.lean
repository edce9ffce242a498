import ScriptMemory.Proofs.Memory.Durable
import ScriptMemory.Proofs.Memory.Join

/-! Consistent memory: aliases are mutual, a location holds no array but its own, and whatever an
array or an object lists is there. However memory is used, it stays consistent. -/
namespace ScriptMemory
open Std

/-- What a location may hold: no reference, and no array of another location. -/
def Value.Belongs (i : Index) (v : Value) : Prop :=
  v.isReference = false ∧ ∀ j, v.arrayOwner? = some j → j = i

namespace Value
variable {i j : Index} {v : Value}

theorem belongs_of_arrayOwner? (hr : v.isReference = false) (ha : v.arrayOwner? = none) :
    v.Belongs i :=
  ⟨hr, fun _ hj => nomatch ha.symm.trans hj⟩

theorem belongs_array (i : Index) : (array i).Belongs i :=
  ⟨rfl, fun _ hj => (Option.some.inj hj).symm⟩

theorem array_isSolid (i : Index) : (array i).IsSolid := by
  intro w
  cases w <;> rfl

theorem object_isSolid (o : ObjectValue) : (object o).IsSolid := by
  intro w
  cases w <;> rfl

end Value

namespace Index

theorem ne_member (i : Index) (s : Segment) : i ≠ i.member s := by
  intro h
  have hsize := congrArg sizeOf h
  simp only [member.sizeOf_spec] at hsize
  omega

end Index

namespace Memory
variable {m n : Memory} {i j : Index} {e : Entry} {s : Segment} {gone : Index → Bool}

theorem holdsArray_iff : m.holdsArray i = true ↔ ∃ e, m.entry? i = some e ∧ .array i ∈ e := by
  unfold holdsArray
  rw [Option.any_eq_true]
  simp only [Entry.contains_eq_true]

theorem holdsArray_congr (h : n.entry? i = m.entry? i) : n.holdsArray i = m.holdsArray i := by
  unfold holdsArray
  rw [h]

theorem objectsAt_congr (h : n.entry? i = m.entry? i) : n.objectsAt i = m.objectsAt i := by
  unfold objectsAt
  rw [h]

/-- Aliases are mutual and lead elsewhere, values are where they belong, only a location that holds
its own array lists members, and what is listed has an entry. -/
structure Consistent (m : Memory) : Prop where
  symmetric : m.AliasesSymmetric
  irreflexive : ∀ i, (m.aliases i).strength? i = none
  held : ∀ i e, m.entry? i = some e → e.All (Value.Belongs i)
  member : ∀ i s, s ∈ (m.cell i).members →
    m.holdsArray i = true ∧ ∃ e, m.entry? (i.member s) = some e
  field : ∀ (id : ObjectId) d, m.objects[id]? = some d → ∀ s ∈ d.fields,
    ∃ e, m.entry? ((Index.object id).member s) = some e

theorem irreflexive_link (hi : ∀ i, (m.aliases i).strength? i = none)
    (hne : i ≠ j) (hl : m.LinkedTo i j n) (k : Index) : (n.aliases k).strength? k = none := by
  rw [hl.strength?_eq]
  unfold strengthAfterLink
  rw [if_neg, hi k]
  · split <;> rfl
  · rintro (⟨rfl, rfl⟩ | ⟨rfl, rfl⟩) <;> exact hne rfl

theorem irreflexive_join {sources : List Memory}
    (h : ∀ m ∈ sources, ∀ i, (m.aliases i).strength? i = none) (level : Nat) (i : Index) :
    ((join sources level).aliases i).strength? i = none := by
  rw [strength?_join, if_neg]
  rw [List.any_eq_true]
  rintro ⟨m, hm, hc⟩
  obtain ⟨s, hs⟩ := AliasSet.contains_iff.1 hc
  exact nomatch hs.symm.trans (h m hm i)

/-- The aliases that `i` is given: those of `a` that are other locations, and defined. -/
def admitted (m : Memory) (i : Index) (a : AliasSet) : AliasSet :=
  a.filter fun j => j ≠ i && m.isDefined j

theorem isDefined_of_admitted {a : AliasSet} {t : Strength}
    (h : (m.admitted i a).strength? j = some t) : m.isDefined j = true := by
  unfold admitted at h
  rw [AliasSet.strength?_filter] at h
  split at h
  · next hp => exact (Bool.and_eq_true_iff.1 hp).2
  · cases h

theorem realias_eq (m : Memory) (i : Index) (a : AliasSet) : m.realias i a =
    ((m.admitted i a).may.foldl (fun m j => m.modifyAliases j (·.set i .may))
      ((m.admitted i a).must.foldl (fun m j => m.modifyAliases j (·.set i .must))
        ((m.aliases i).toList.foldl (fun m j => m.modifyAliases j (·.erase i)) m))).setAliases i
          (m.admitted i a) :=
  rfl

theorem entry?_realias (m : Memory) (i : Index) (a : AliasSet) (j : Index) :
    Memory.entry? (m.realias i a) j = m.entry? j := by
  rw [realias_eq, entry?_setAliases]
  simp only [entry?_foldl_modifyAliases]

theorem members_realias (m : Memory) (i : Index) (a : AliasSet) (j : Index) :
    ((m.realias i a).cell j).members = (m.cell j).members := by
  rw [realias_eq, members_setAliases]
  simp only [members_foldl_modifyAliases]

/-- Replacing the aliases of `i` replaces them on both ends, and touches no other edge. -/
theorem strength?_realias (h : m.AliasesSymmetric) (i : Index) (a : AliasSet) (x y : Index) :
    ((m.realias i a).aliases x).strength? y =
      if x = i then (m.admitted i a).strength? y
      else if y = i then (m.admitted i a).strength? x
      else (m.aliases x).strength? y := by
  have herase (b : AliasSet) (k : Index) :
      (b.erase i).strength? k = if k = i then none else b.strength? k := AliasSet.strength?_erase
  have hset (t : Strength) (b : AliasSet) (k : Index) :
      (b.set i t).strength? k = if k = i then some t else b.strength? k := AliasSet.strength?_set
  rw [realias_eq, aliases_setAliases]
  by_cases hx : x = i
  · rw [if_pos hx, if_pos hx]
  rw [if_neg hx, if_neg hx, strength?_foldl_modifyAliases _ _ (hset .may),
    strength?_foldl_modifyAliases _ _ (hset .must), strength?_foldl_modifyAliases _ _ herase]
  simp only [isDefined_foldl_modifyAliases]
  by_cases hy : y = i
  · subst hy
    -- what `x` is told about `i` in the end is what `i` is told about `x`
    cases hk : (m.admitted y a).strength? x with
    | some t =>
      have hd := isDefined_of_admitted hk
      cases t with
      | must =>
        have hin : x ∈ (m.admitted y a).must := AliasSet.mem_ofStrength.2 hk
        have hnin : x ∉ (m.admitted y a).may := fun hm =>
          nomatch hk.symm.trans (AliasSet.mem_ofStrength.1 hm)
        simp [hd, hin, hnin]
      | may =>
        have hin : x ∈ (m.admitted y a).may := AliasSet.mem_ofStrength.2 hk
        simp [hd, hin]
    | none =>
      have hmust : x ∉ (m.admitted y a).must := fun hm =>
        nomatch hk.symm.trans (AliasSet.mem_ofStrength.1 hm)
      have hmay : x ∉ (m.admitted y a).may := fun hm =>
        nomatch hk.symm.trans (AliasSet.mem_ofStrength.1 hm)
      simp only [hmust, hmay, false_and, if_false, if_true, and_true]
      cases ho : (m.aliases x).strength? y with
      | none => simp
      | some t =>
        have hin : x ∈ (m.aliases y).toList := AliasSet.mem_toList.2 ⟨t, h y x ▸ ho⟩
        simp [hin, isDefined_of_strength? ho]
  · simp [hy]

theorem aliasesSymmetric_realias (h : m.AliasesSymmetric) (i : Index) (a : AliasSet) :
    (m.realias i a).AliasesSymmetric := by
  intro x y
  rw [strength?_realias h, strength?_realias h]
  by_cases hx : x = i <;> by_cases hy : y = i
  · rw [hx, hy]
  · simp [hx, hy]
  · simp [hx, hy]
  · simp [hx, hy, h x y]

theorem irreflexive_realias (h : m.AliasesSymmetric) (hi : ∀ i, (m.aliases i).strength? i = none)
    (a : AliasSet) (k : Index) : ((m.realias i a).aliases k).strength? k = none := by
  rw [strength?_realias h]
  split
  · next hk => simp [admitted, hk]
  · exact hi k

theorem members_discard (m : Memory) (gone : Index → Bool) (i : Index) :
    ((m.discard gone).cell i).members =
      if gone i then ∅ else (m.cell i).members.filter fun s => !gone (i.member s) := by
  rw [cell_discard]
  split <;> rfl

theorem object?_discard (m : Memory) (gone : Index → Bool) (id : ObjectId) :
    (m.discard gone).objects[id]? = m.objects[id]?.map fun d =>
      { d with fields := d.fields.filter fun s => !gone ((Index.object id).member s) } :=
  ExtTreeMap.getElem?_map

/-- Registering a member lists it with the array above it and changes no other list. -/
theorem mem_members_register (h : s ∈ ((m.register i).cell j).members) :
    s ∈ (m.cell j).members ∨ i = j.member s ∧ m.holdsArray j = true := by
  unfold register at h
  split at h
  · exact .inl h
  · exact .inl h
  · next parent t _ =>
    split at h
    · next hp =>
      rw [cell_modify] at h
      split at h
      · next hj =>
        rcases OrdSet.mem_insert.1 h with rfl | h
        · exact .inr ⟨by rw [hj.1], hj.1 ▸ hp⟩
        · exact .inl (hj.1 ▸ h)
      · exact .inl h
    · exact .inl h

/-- Registering strikes nothing off. -/
theorem mem_members_register_of_mem (h : s ∈ (m.cell j).members) (i : Index) :
    s ∈ ((m.register i).cell j).members := by
  unfold register
  split
  · exact h
  · exact h
  · split
    · rw [cell_modify]
      split
      · next hj => exact OrdSet.mem_insert.2 (.inr (hj.1 ▸ h))
      · exact h
    · exact h

/-- Registering a field lists it with its object and changes no other list. -/
theorem mem_fields_register {id : ObjectId} {d : ObjectDescriptor}
    (hd : (m.register i).objects[id]? = some d) (hs : s ∈ d.fields) :
    (∃ d, m.objects[id]? = some d ∧ s ∈ d.fields) ∨ i = (Index.object id).member s := by
  unfold register at hd
  split at hd
  · exact .inl ⟨d, hd, hs⟩
  · next id' t =>
    rw [ExtTreeMap.getElem?_modify] at hd
    split at hd
    · next hid =>
      obtain rfl := LawfulEqCmp.compare_eq_iff_eq.1 hid
      obtain ⟨d', hd', rfl⟩ := Option.map_eq_some_iff.1 hd
      rcases OrdSet.mem_insert.1 hs with rfl | hs
      · exact .inr rfl
      · exact .inl ⟨d', hd', hs⟩
    · exact .inl ⟨d, hd, hs⟩
  · split at hd
    · exact .inl ⟨d, hd, hs⟩
    · exact .inl ⟨d, hd, hs⟩

theorem members_put (m : Memory) (i j : Index) (e : Entry) :
    ((m.put i e).cell j).members = if j = i then
      (if e.contains (.array i) then (m.cell i).members else ∅) else (m.cell j).members := by
  unfold put
  rw [cell_insert]
  split <;> rfl

theorem objects_declareObject (o : ObjectValue) {id : ObjectId} {d : ObjectDescriptor}
    (h : (m.declareObject o).objects[id]? = some d) :
    m.objects[id]? = some d ∨ d.fields = ∅ := by
  unfold declareObject at h
  split at h
  · exact .inl h
  · rw [OrdMap.getElem?_insert] at h
    split at h
    · cases h
      exact .inr rfl
    · exact .inl h

/-- A link replaces the aliases of both ends, and tells some locations in between. -/
theorem link_eq (h : m.link i j = .ok n) : n = m ∨ ∃ (a b : AliasSet) (ks : List Index),
    n = (ks.foldl (fun m k => m.modifyAliases k (·.set i .may))
      (m.setAliases i a)).setAliases j b := by
  unfold link at h
  split at h
  · cases h
    exact .inl rfl
  · dsimp only at h
    generalize (m.aliases i).bind j = bound at h
    obtain ⟨a, strength⟩ := bound
    cases strength with
    | must =>
      dsimp only at h
      cases hb : AliasSet.insert ((m.setAliases i a).aliases j) i .must with
      | ok b =>
        rw [hb] at h
        cases h
        exact .inr ⟨a, b, [], rfl⟩
      | error e =>
        rw [hb] at h
        cases h
    | may =>
      cases h
      exact .inr ⟨a, _, (m.aliases i).must, rfl⟩

theorem objects_link (h : m.link i j = .ok n) : n.objects = m.objects := by
  rcases link_eq h with rfl | ⟨a, b, ks, rfl⟩
  · rfl
  · exact objects_foldl_modifyAliases ..

theorem consistent_discard (h : m.Consistent) (gone : Index → Bool) :
    (m.discard gone).Consistent where
  symmetric := aliasesSymmetric_discard h.symmetric gone
  irreflexive := by
    intro i
    rw [strength?_discard, h.irreflexive i]
    split <;> rfl
  held := by
    intro i e he
    rw [entry?_discard] at he
    split at he
    · cases he
    · exact h.held i e he
  member := by
    intro i s hs
    rw [members_discard] at hs
    split at hs
    · exact absurd hs ExtTreeSet.not_mem_empty
    · next hg =>
      obtain ⟨hs, hsg⟩ := OrdSet.mem_filter.1 hs
      obtain ⟨ha, he⟩ := h.member i s hs
      have hi : Memory.entry? (m.discard gone) i = m.entry? i := by rw [entry?_discard, if_neg hg]
      refine ⟨(holdsArray_congr hi).trans ha, ?_⟩
      rw [entry?_discard, if_neg (by simpa using hsg)]
      exact he
  field := by
    intro id d hd s hs
    rw [object?_discard] at hd
    obtain ⟨d', hd', rfl⟩ := Option.map_eq_some_iff.1 hd
    obtain ⟨hs, hsg⟩ := OrdSet.mem_filter.1 hs
    rw [entry?_discard, if_neg (by simpa using hsg)]
    exact h.field id d' hd' s hs

theorem consistent_put (h : m.Consistent) (he : e.All (Value.Belongs i)) :
    ((m.register i).put i e).Consistent where
  symmetric := aliasesSymmetric_of_aliases_eq h.symmetric fun j => by
    rw [aliases_put, aliases_register]
  irreflexive := by
    intro j
    rw [aliases_put, aliases_register, h.irreflexive j]
  held := by
    intro j f hf
    rw [entry?_put, entry?_register] at hf
    split at hf
    · next hj =>
      cases hf
      rwa [hj]
    · exact h.held j f hf
  member := by
    -- what was listed is still there, and what is listed anew is what has just been written
    intro j s hs
    have hentry (k : Index) : (∃ f, m.entry? k = some f) →
        ∃ f, Memory.entry? ((m.register i).put i e) k = some f := by
      rintro ⟨f, hf⟩
      rw [entry?_put, entry?_register]
      split
      · exact ⟨e, rfl⟩
      · exact ⟨f, hf⟩
    rw [members_put] at hs
    by_cases hj : j = i
    · subst hj
      rw [if_pos rfl] at hs
      split at hs
      · next hown =>
        have hold : s ∈ (m.cell j).members := by
          rcases mem_members_register hs with hs | ⟨hm, -⟩
          · exact hs
          · exact absurd hm (Index.ne_member j s)
        refine ⟨holdsArray_iff.2 ⟨e, by rw [entry?_put, if_pos rfl], ?_⟩,
          hentry _ (h.member j s hold).2⟩
        exact Entry.contains_eq_true.1 hown
      · exact absurd hs ExtTreeSet.not_mem_empty
    · rw [if_neg hj] at hs
      have hsame : Memory.entry? ((m.register i).put i e) j = m.entry? j := by
        rw [entry?_put, if_neg hj, entry?_register]
      rw [holdsArray_congr hsame]
      rcases mem_members_register hs with hs | ⟨rfl, ha⟩
      · exact ⟨(h.member j s hs).1, hentry _ (h.member j s hs).2⟩
      · exact ⟨ha, e, by rw [entry?_put, if_pos rfl]⟩
  field := by
    intro id d hd s hs
    rw [entry?_put, entry?_register]
    split
    · exact ⟨e, rfl⟩
    · next hne =>
      rcases mem_fields_register hd hs with ⟨d', hd', hs⟩ | rfl
      · exact h.field id d' hd' s hs
      · exact absurd rfl hne

theorem consistent_write (h : m.Consistent) (he : e.All (Value.Belongs i)) :
    (m.write i e).Consistent := by
  unfold write
  split
  · exact consistent_put h he
  · exact consistent_put (consistent_discard h _) he

/-- A change of aliases keeps everything but the aliases consistent. -/
theorem Consistent.of_aliases (h : m.Consistent) (hs : n.AliasesSymmetric)
    (hi : ∀ i, (n.aliases i).strength? i = none) (he : ∀ i, n.entry? i = m.entry? i)
    (hm : ∀ i, (n.cell i).members = (m.cell i).members) (ho : n.objects = m.objects) :
    n.Consistent where
  symmetric := hs
  irreflexive := hi
  held := fun i e hie => h.held i e (he i ▸ hie)
  member := by
    intro i s hs
    rw [hm] at hs
    rw [holdsArray_congr (he i), he]
    exact h.member i s hs
  field := by
    intro id d hd s hs
    rw [ho] at hd
    rw [he]
    exact h.field id d hd s hs

theorem consistent_link (h : m.Consistent) (hl : m.link i j = .ok n) : n.Consistent := by
  by_cases hne : i = j
  · rw [link, if_pos hne] at hl
    cases hl
    exact h
  · obtain ⟨n', hl', hlinked⟩ := exists_linkedTo h.symmetric hne
    cases hl.symm.trans hl'
    exact h.of_aliases (hlinked.aliasesSymmetric h.symmetric)
      (irreflexive_link h.irreflexive hne hlinked) hlinked.entry?_eq hlinked.members_eq
      (objects_link hl)

theorem consistent_realias (h : m.Consistent) (i : Index) (a : AliasSet) :
    (m.realias i a).Consistent := by
  apply h.of_aliases (aliasesSymmetric_realias h.symmetric i a)
    (irreflexive_realias h.symmetric h.irreflexive a) (fun k => entry?_realias ..)
    fun k => members_realias ..
  · rw [realias_eq]
    change Memory.objects (List.foldl _ _ _) = _
    simp only [objects_foldl_modifyAliases]

theorem consistent_declareObject (h : m.Consistent) (o : ObjectValue) :
    (m.declareObject o).Consistent where
  symmetric := aliasesSymmetric_of_aliases_eq h.symmetric fun i => aliases_declareObject ..
  irreflexive := by
    intro i
    rw [aliases_declareObject, h.irreflexive i]
  held := by
    intro i e he
    rw [entry?_declareObject] at he
    exact h.held i e he
  member := by
    intro i s hs
    rw [cell_declareObject] at hs
    rw [holdsArray_congr (entry?_declareObject m o i), entry?_declareObject]
    exact h.member i s hs
  field := by
    intro id d hd s hs
    rw [entry?_declareObject]
    rcases objects_declareObject o hd with hd | hd
    · exact h.field id d hd s hs
    · rw [hd] at hs
      exact absurd hs ExtTreeSet.not_mem_empty

theorem consistent_mapEntries (h : m.Consistent) {f : Index → Entry → Entry}
    (hf : ∀ i (e : Entry), e.Coarsened (f i e)) : (m.mapEntries f).Consistent where
  symmetric := aliasesSymmetric_of_aliases_eq h.symmetric fun i => aliases_mapEntries ..
  irreflexive := by
    intro i
    rw [aliases_mapEntries, h.irreflexive i]
  held := by
    intro i e he
    rw [entry?_mapEntries] at he
    obtain ⟨e', he', rfl⟩ := Option.map_eq_some_iff.1 he
    apply (hf i e').all _ _ (h.held i e' he')
    · exact fun _ => Value.belongs_of_arrayOwner? rfl rfl
    · exact fun _ => Value.belongs_of_arrayOwner? rfl rfl
  member := by
    intro i s hs
    rw [cell_mapEntries] at hs
    obtain ⟨ha, e, he⟩ := h.member i s hs
    obtain ⟨e', he', hmem⟩ := holdsArray_iff.1 ha
    constructor
    · refine holdsArray_iff.2 ⟨f i e', by rw [entry?_mapEntries, he']; rfl, ?_⟩
      exact (hf i e').kept _ hmem (Value.array_isSolid i) rfl
    · exact ⟨f _ e, by rw [entry?_mapEntries, he]; rfl⟩
  field := by
    intro id d hd s hs
    obtain ⟨e, he⟩ := h.field id d hd s hs
    exact ⟨f _ e, by rw [entry?_mapEntries, he]; rfl⟩

theorem consistent_join {sources : List Memory} (h : ∀ m ∈ sources, m.Consistent) (level : Nat) :
    (join sources level).Consistent where
  symmetric := aliasesSymmetric_join (fun m hm => (h m hm).symmetric) level
  irreflexive := irreflexive_join (fun m hm => (h m hm).irreflexive) level
  held := by
    intro i e he
    rw [entry?_join] at he
    split at he
    · cases he
      refine Entry.all_foldl_join Entry.all_empty fun f hf => ?_
      obtain ⟨m, hm, rfl⟩ := List.mem_map.1 hf
      unfold entryOrUndefined
      cases hie : m.entry? i with
      | none => exact Entry.all_ofValue (Value.belongs_of_arrayOwner? rfl rfl)
      | some f => exact (h m hm).held i f hie
    · cases he
  member := by
    intro i s hs
    obtain ⟨m, hm, hs⟩ := (mem_members_join level).1 hs
    obtain ⟨ha, e, he⟩ := (h m hm).member i s hs
    obtain ⟨f, hf, hmem⟩ := holdsArray_iff.1 ha
    constructor
    · refine holdsArray_iff.2 ⟨_, by rw [entry?_join, if_pos ⟨m, hm, isDefined_of_entry? hf⟩], ?_⟩
      refine (Entry.mem_foldl_join_iff_of_isSolid (Value.array_isSolid i)).2 (.inr ⟨f, ?_, hmem⟩)
      exact List.mem_map.2 ⟨m, hm, by rw [entryOrUndefined, hf]; rfl⟩
    · exact ⟨_, by rw [entry?_join, if_pos ⟨m, hm, isDefined_of_entry? he⟩]⟩
  field := by
    intro id d hd s hs
    rw [object?_join] at hd
    split at hd
    · cases hd
      obtain ⟨d, hd, hs⟩ := List.mem_flatMap.1 (OrdSet.mem_ofList.1 hs)
      obtain ⟨m, hm, hd⟩ := List.mem_filterMap.1 hd
      obtain ⟨e, he⟩ := (h m hm).field id d hd s (ExtTreeSet.mem_toList.1 hs)
      exact ⟨_, by rw [entry?_join, if_pos ⟨m, hm, isDefined_of_entry? he⟩]⟩
    · cases hd

theorem consistent_initial : initial.Consistent where
  symmetric := wellFormed_initial.symmetric
  irreflexive := by
    intro i
    rw [aliases_initial]
    rfl
  held := by
    intro i e he
    rw [entry?_initial] at he
    split at he
    · cases he
      exact Entry.all_empty
    · cases he
  member := by
    intro i s hs
    rw [cell_initial] at hs
    split at hs <;> exact absurd hs ExtTreeSet.not_mem_empty
  field := by
    intro id d hd
    cases hd

/-- Whatever is done with consistent memory leaves it consistent. -/
theorem consistent_durable : Durable Value.Belongs Consistent where
  object := fun _ => trivial
  member := fun _ _ _ => trivial
  aliased := fun _ _ => trivial
  symmetric := Consistent.symmetric
  isValue := And.left
  storable := Value.belongs_of_arrayOwner?
  own := Value.belongs_array
  held := fun h he => h.held _ _ he
  discard := fun h _ => consistent_discard h _
  write := fun h _ he => consistent_write h he
  declareObject := fun h => consistent_declareObject h _
  link := fun h _ _ => consistent_link h
  initial := consistent_initial
  realias := consistent_realias
  withLevel := fun h _ => h.of_aliases h.symmetric h.irreflexive (fun _ => rfl) (fun _ => rfl) rfl
  mapEntries := fun h hf => consistent_mapEntries h hf
  join := fun _ h => consistent_join h

end Memory
end ScriptMemory
