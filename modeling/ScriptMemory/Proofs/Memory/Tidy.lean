import ScriptMemory.Proofs.Memory.Books
import ScriptMemory.Proofs.Memory.Nesting

/-! Tidy memory: whatever has an entry is listed by its container. Then what lies below a location
is exactly what is removed with it. A write keeps memory tidy if the container of the location is
there; a removal does if it takes everything below along. -/
namespace ScriptMemory
open Std

namespace Memory
variable {m n : Memory} {i j p x : Index} {s : Segment} {e f : Entry} {o : ObjectValue}
  {gone : Index → Bool}

/-- The container of `i` has `i` among its members: an array has a key, an object a field. A root
has no container; the root of an object is no location of its own. -/
def Lists (m : Memory) : Index → Prop
  | .root r => ∀ id, r ≠ .object id
  | .member p s =>
    (s.isField = false ∧ s ∈ (m.cell p).members) ∨
    (s.isField = true ∧ ∃ id d, p = .object id ∧ m.objects[id]? = some d ∧ s ∈ d.fields)

/-- The container of `i` is there, so that `i` can be listed. -/
def Hosts (m : Memory) : Index → Prop
  | .root r => ∀ id, r ≠ .object id
  | .member p s =>
    (s.isField = false ∧ m.holdsArray p = true) ∨
    (s.isField = true ∧ ∃ id, p = .object id ∧ id ∈ m.objects)

/-- Every object that the entry holds has been introduced. -/
def Introduces (m : Memory) (e : Entry) : Prop :=
  ∀ o, .object o ∈ e → o.id ∈ m.objects

/-- Consistent memory in which every location with an entry is listed by its container, and in which
every object that is held has been introduced. -/
structure Tidy (m : Memory) : Prop extends Consistent m where
  lists : ∀ i e, m.entry? i = some e → m.Lists i
  introduces : ∀ i e, m.entry? i = some e → m.Introduces e

theorem hosts_root_iff {r : Root} : m.Hosts (.root r) ↔ ∀ id, Index.root r ≠ .object id := by
  refine forall_congr' fun id => not_congr ⟨fun h => h ▸ rfl, fun h => ?_⟩
  cases h
  rfl

theorem Hosts.ne_object (h : m.Hosts i) (id : ObjectId) : i ≠ .object id := by
  cases i with
  | root r => exact hosts_root_iff.1 h id
  | member p s => exact fun hi => nomatch hi

/-- A container stays with its array, and with its object. -/
theorem Hosts.mono (h : m.Hosts i)
    (harray : ∀ p s, i = .member p s → m.holdsArray p = true → n.holdsArray p = true)
    (hobjects : ∀ id : ObjectId, id ∈ m.objects → id ∈ n.objects) : n.Hosts i := by
  cases i with
  | root r => exact h
  | member p s =>
    obtain ⟨hs, hp⟩ | ⟨hs, id, rfl, hid⟩ := h
    · exact .inl ⟨hs, harray p s rfl hp⟩
    · exact .inr ⟨hs, id, rfl, hobjects id hid⟩

/-- What is listed stays listed where no member and no field is struck off. -/
theorem Lists.mono (h : m.Lists i)
    (hmembers : ∀ p s, i = .member p s → s ∈ (m.cell p).members → s ∈ (n.cell p).members)
    (hfields : ∀ (id : ObjectId) d s, i = (Index.object id).member s → m.objects[id]? = some d →
      s ∈ d.fields → ∃ d' : ObjectDescriptor, n.objects[id]? = some d' ∧ s ∈ d'.fields) :
    n.Lists i := by
  cases i with
  | root r => exact h
  | member p s =>
    obtain ⟨hs, hp⟩ | ⟨hs, id, d, rfl, hd, hf⟩ := h
    · exact .inl ⟨hs, hmembers p s rfl hp⟩
    · obtain ⟨d', hd', hf'⟩ := hfields id d s rfl hd hf
      exact .inr ⟨hs, id, d', rfl, hd', hf'⟩

theorem Introduces.mono (h : m.Introduces e)
    (hobjects : ∀ id : ObjectId, id ∈ m.objects → id ∈ n.objects) : n.Introduces e :=
  fun o ho => hobjects _ (h o ho)

theorem Consistent.hosts_of_lists (h : m.Consistent) (hi : m.Lists i) : m.Hosts i := by
  cases i with
  | root r => exact hi
  | member p s =>
    obtain ⟨hs, hp⟩ | ⟨hs, id, d, rfl, hd, -⟩ := hi
    · exact .inl ⟨hs, (h.member p s hp).1⟩
    · exact .inr ⟨hs, id, rfl, ExtTreeMap.mem_iff_isSome_getElem?.2 (by rw [hd]; rfl)⟩

namespace Tidy

theorem hosts (h : m.Tidy) (hi : m.entry? i = some e) : m.Hosts i :=
  h.hosts_of_lists (h.lists i e hi)

theorem holdsArray_of_mem (h : m.Tidy) (hs : s ∈ (m.cell p).members) :
    m.holdsArray p = true ∧ s.isField = false := by
  obtain ⟨hp, e, he⟩ := h.member p s hs
  refine ⟨hp, ?_⟩
  obtain ⟨hf, -⟩ | ⟨-, id, -, rfl, -, -⟩ := h.lists _ e he
  · exact hf
  · obtain ⟨f, hf, -⟩ := holdsArray_iff.1 hp
    exact absurd rfl ((h.hosts hf).ne_object id)

/-- What lies below a location is all that it contains. -/
theorem mem_below_iff (h : m.Tidy) (hx : ∀ id, x ≠ .object id) :
    j ∈ m.below x ↔ x.Contains j ∧ j ≠ x ∧ ∃ e, m.entry? j = some e := by
  constructor
  · intro hj
    obtain ⟨s, segments, hlists, rfl⟩ := h.mem_below.1 hj
    refine ⟨⟨_, rfl⟩, ?_, ?_⟩
    · intro heq
      exact Index.not_member_contains x s ⟨segments, heq⟩
    · -- the last segment of the way is listed
      obtain ⟨front, t, hlast⟩ := (List.eq_nil_or_concat (s :: segments)).resolve_left (by simp)
      rw [hlast, List.concat_eq_append, listsAlong_append] at hlists
      rw [hlast, List.concat_eq_append, Index.descend_append]
      exact (h.member _ t hlists.2.1).2
  · rintro ⟨hc, hne, e, he⟩
    -- by induction on the way up from `j`; each location on it is listed by the one above
    induction j generalizing e with
    | root r => exact absurd (Index.contains_root_iff.1 hc).symm hne
    | member p s ih =>
      have hp : x.Contains p := (Index.contains_member_iff.1 hc).resolve_left fun hx => hne hx.symm
      obtain ⟨-, hs⟩ | ⟨-, id, d, rfl, -, -⟩ := h.lists _ e he
      · by_cases hpx : p = x
        · subst hpx
          exact h.mem_below.2 ⟨s, [], ⟨hs, trivial⟩, rfl⟩
        · obtain ⟨f, hf, -⟩ := holdsArray_iff.1 (h.member p s hs).1
          exact h.mem_below_member (ih hp hpx f hf) hs
      · exact absurd (Index.contains_root_iff.1 hp) (hx id)

end Tidy

theorem mem_objects_discard (m : Memory) (gone : Index → Bool) (id : ObjectId) :
    id ∈ (m.discard gone).objects ↔ id ∈ m.objects :=
  ExtTreeMap.mem_map

theorem tidy_discard (h : m.Tidy)
    (hclosed : ∀ p s, s ∈ (m.cell p).members → gone p = true → gone (p.member s) = true) :
    (m.discard gone).Tidy where
  toConsistent := consistent_discard h.toConsistent gone
  lists := by
    intro i e he
    rw [entry?_discard] at he
    split at he
    · cases he
    · next hg =>
      apply (h.lists i e he).mono
      · rintro p s rfl hs
        rw [members_discard, if_neg fun hp => hg (hclosed p s hs hp)]
        exact OrdSet.mem_filter.2 ⟨hs, by simpa using hg⟩
      · rintro id d s rfl hd hs
        refine ⟨
          { d with fields := d.fields.filter fun s => !gone ((Index.object id).member s) }, ?_,
          OrdSet.mem_filter.2 ⟨hs, by simpa using hg⟩⟩
        rw [object?_discard, hd]
        rfl
  introduces := by
    intro i e he o ho
    rw [entry?_discard] at he
    split at he
    · cases he
    · exact (mem_objects_discard m gone o.id).2 (h.introduces i e he o ho)

theorem tidy_clearMembers (h : m.Tidy) (x : Index) : (m.clearMembers x).Tidy := by
  apply tidy_discard h
  intro p s hs hp
  rw [mem_contains_ofList] at hp ⊢
  exact h.mem_below_member hp hs

theorem tidy_remove (h : m.Tidy) (targets : List Index) : (m.remove targets).Tidy := by
  apply tidy_discard h
  intro p s hs hp
  rw [mem_contains_ofList, List.mem_append, List.mem_flatMap] at hp ⊢
  obtain hp | ⟨x, hx, hp⟩ := hp
  · exact .inr ⟨p, hp, h.mem_below.2 ⟨s, [], ⟨hs, trivial⟩, rfl⟩⟩
  · exact .inr ⟨x, hx, h.mem_below_member hp hs⟩

theorem Tidy.entry?_remove (h : m.Tidy) (hx : ∀ id, x ≠ .object id) (hc : x.Contains j) :
    Memory.entry? (m.remove [x]) j = none := by
  unfold remove
  rw [entry?_discard]
  cases he : m.entry? j with
  | none => exact ite_self none
  | some e =>
    rw [if_pos]
    rw [mem_contains_ofList, List.mem_append, List.mem_singleton, List.flatMap_singleton]
    by_cases hj : j = x
    · exact .inl hj
    · exact .inr ((h.mem_below_iff hx).2 ⟨hc, hj, e, he⟩)

theorem Consistent.entry?_remove_of_not (h : m.Consistent) (hc : ¬x.Contains j) :
    Memory.entry? (m.remove [x]) j = m.entry? j := by
  unfold remove
  rw [entry?_discard, if_neg]
  rw [mem_contains_ofList, List.mem_append, List.mem_singleton, List.flatMap_singleton]
  rintro (rfl | hb)
  · exact hc (Index.contains_refl j)
  · obtain ⟨s, -, hs⟩ := h.contains_of_mem_below hb
    exact hc ((Index.contains_member x s).trans hs)

theorem mem_objects_clearMembers (m : Memory) (x : Index) (id : ObjectId) :
    id ∈ (m.clearMembers x).objects ↔ id ∈ m.objects :=
  mem_objects_discard m _ id

/-- What a location does not contain is there after everything below the location is removed. -/
theorem entry?_clearMembers_of_not (h : m.Consistent) (hj : ¬x.Contains j ∨ j = x) :
    Memory.entry? (m.clearMembers x) j = m.entry? j := by
  unfold clearMembers
  rw [entry?_discard, if_neg]
  rw [mem_contains_ofList]
  intro hb
  obtain ⟨s, -, hc⟩ := h.contains_of_mem_below hb
  rcases hj with hj | rfl
  · exact hj ((Index.contains_member x s).trans hc)
  · exact Index.not_member_contains j s hc

theorem Tidy.entry?_clearMembers (h : m.Tidy) (hx : ∀ id, x ≠ .object id) (hc : x.Contains j)
    (hne : j ≠ x) : Memory.entry? (m.clearMembers x) j = none := by
  unfold clearMembers
  rw [entry?_discard]
  cases he : m.entry? j with
  | none => exact ite_self none
  | some e =>
    rw [if_pos]
    rw [mem_contains_ofList]
    exact (h.mem_below_iff hx).2 ⟨hc, hne, e, he⟩

/-- With everything below a location its list of members is gone. -/
theorem Consistent.members_clearMembers (h : m.Consistent) (x : Index) :
    ((m.clearMembers x).cell x).members = ∅ := by
  apply ExtTreeSet.ext_mem
  intro s
  refine iff_of_false ?_ ExtTreeSet.not_mem_empty
  intro hs
  unfold clearMembers at hs
  rw [members_discard] at hs
  split at hs
  · exact ExtTreeSet.not_mem_empty hs
  · obtain ⟨hs, hg⟩ := OrdSet.mem_filter.1 hs
    have hb : x.member s ∈ m.below x := h.mem_below.2 ⟨s, [], ⟨hs, trivial⟩, rfl⟩
    simp [mem_contains_ofList.2 hb] at hg

theorem mem_objects_register (m : Memory) (i : Index) (id : ObjectId) :
    id ∈ (m.register i).objects ↔ id ∈ m.objects := by
  unfold register
  split
  · rfl
  · exact ExtTreeMap.mem_modify
  · split <;> rfl

theorem mem_objects_write (m : Memory) (i : Index) (e : Entry) (id : ObjectId) :
    id ∈ (m.write i e).objects ↔ id ∈ m.objects := by
  unfold write put
  split
  · exact mem_objects_register m i id
  · exact (mem_objects_register _ i id).trans (mem_objects_clearMembers m i id)

theorem Lists.register (h : m.Lists j) (i : Index) : (m.register i).Lists j := by
  apply h.mono
  · exact fun p s _ hp => mem_members_register_of_mem hp i
  · intro id d s _ hd hf
    unfold Memory.register
    split
    · exact ⟨d, hd, hf⟩
    · next id' t =>
      change ∃ d', (m.objects.modify id' _)[id]? = some d' ∧ _
      rw [ExtTreeMap.getElem?_modify]
      split
      · next hid =>
        obtain rfl := LawfulEqCmp.compare_eq_iff_eq.1 hid
        rw [hd]
        exact ⟨{ d with fields := d.fields.insert t }, rfl, OrdSet.mem_insert.2 (.inr hf)⟩
      · exact ⟨d, hd, hf⟩
    · split <;> exact ⟨d, hd, hf⟩

/-- A location is listed from then on if its container is there. -/
theorem Tidy.lists_register (h : m.Tidy) (hi : m.Hosts i) : (m.register i).Lists i := by
  cases i with
  | root r => exact hi
  | member p s =>
    obtain ⟨hs, hp⟩ | ⟨hs, id, rfl, hid⟩ := hi
    · obtain ⟨f, hf, -⟩ := holdsArray_iff.1 hp
      have hd := isDefined_of_entry? hf
      refine .inl ⟨hs, ?_⟩
      unfold Memory.register
      split
      · next heq => cases heq
      · next id t heq =>
        cases heq
        exact absurd rfl ((h.hosts hf).ne_object id)
      · next parent t _ heq =>
        cases heq
        rw [if_pos hp, cell_modify, if_pos ⟨rfl, hd⟩]
        exact OrdSet.mem_insert.2 (.inl rfl)
    · obtain ⟨d, hd⟩ := Option.isSome_iff_exists.1 (ExtTreeMap.mem_iff_isSome_getElem?.1 hid)
      refine .inr ⟨hs, id, { d with fields := d.fields.insert s }, rfl, ?_, ?_⟩
      · change (m.objects.modify id _)[id]? = _
        rw [ExtTreeMap.getElem?_modify, if_pos (LawfulEqCmp.compare_eq_iff_eq.2 rfl), hd]
        rfl
      · exact OrdSet.mem_insert.2 (.inl rfl)

theorem tidy_put (h : m.Tidy) (hi : m.Hosts i) (he : e.All (Value.Belongs i))
    (hin : m.Introduces e) (hown : e.contains (.array i) = true ∨ (m.cell i).members = ∅) :
    ((m.register i).put i e).Tidy where
  toConsistent := consistent_put h.toConsistent he
  lists := by
    intro j f hf
    rw [entry?_put, entry?_register] at hf
    have hlists : (m.register i).Lists j := by
      split at hf
      · next hj =>
        subst hj
        exact h.lists_register hi
      · exact (h.lists j f hf).register i
    apply hlists.mono
    · intro p s _ hp
      rw [members_put]
      split
      · next hpi =>
        subst hpi
        -- nothing is registered with the location itself
        have hold : s ∈ (m.cell p).members := by
          rcases mem_members_register hp with hp | ⟨hm, -⟩
          · exact hp
          · exact absurd hm (Index.ne_member p s)
        rcases hown with hown | hnone
        · rw [if_pos hown]
          exact hp
        · rw [hnone] at hold
          exact absurd hold ExtTreeSet.not_mem_empty
      · exact hp
    · exact fun id d s _ hd hs => ⟨d, hd, hs⟩
  introduces := by
    intro j f hf o ho
    change o.id ∈ (m.register i).objects
    rw [mem_objects_register]
    rw [entry?_put, entry?_register] at hf
    split at hf
    · cases hf
      exact hin o ho
    · exact h.introduces j f hf o ho

/-- The container of a location is not below it. -/
theorem Hosts.clearMembers (hi : m.Hosts i) (h : m.Consistent) : (m.clearMembers i).Hosts i := by
  apply hi.mono
  · rintro p s rfl hp
    rw [holdsArray_congr (entry?_clearMembers_of_not h (.inl (Index.not_member_contains p s)))]
    exact hp
  · exact fun id => (mem_objects_clearMembers m i id).2

theorem tidy_write (h : m.Tidy) (hi : m.Hosts i) (he : e.All (Value.Belongs i))
    (hin : m.Introduces e) : (m.write i e).Tidy := by
  unfold write
  split
  · next hown => exact tidy_put h hi he hin (.inl hown)
  · exact tidy_put (tidy_clearMembers h i) (hi.clearMembers h.toConsistent) he
      (hin.mono fun id => (mem_objects_clearMembers m i id).2)
      (.inr (h.members_clearMembers i))

/-- A write does nothing to what the location does not contain. -/
theorem Consistent.entry?_write (h : m.Consistent) (hj : ¬i.Contains j) (e : Entry) :
    Memory.entry? (m.write i e) j = m.entry? j := by
  have hne : j ≠ i := by
    rintro rfl
    exact hj (Index.contains_refl j)
  rw [ScriptMemory.Memory.entry?_write, if_neg hne]
  split
  · rfl
  · exact entry?_clearMembers_of_not h (.inl hj)

theorem tidy_initial : initial.Tidy where
  toConsistent := consistent_initial
  lists := by
    intro i e he
    rw [entry?_initial] at he
    split at he
    · next hi =>
      subst hi
      exact fun id hid => nomatch hid
    · cases he
  introduces := by
    intro i e he o ho
    rw [entry?_initial] at he
    split at he
    · cases he
      exact absurd ho Entry.not_mem_empty
    · cases he

/-- A change of aliases alone keeps memory tidy. -/
theorem Tidy.of_aliases (h : m.Tidy) (hn : n.Consistent) (he : ∀ i, n.entry? i = m.entry? i)
    (hm : ∀ i, (n.cell i).members = (m.cell i).members) (ho : n.objects = m.objects) : n.Tidy where
  toConsistent := hn
  lists := by
    intro i e hie
    apply (h.lists i e (he i ▸ hie)).mono
    · exact fun p s _ hs => (hm p).symm ▸ hs
    · exact fun id d s _ hd hs => ⟨d, ho.symm ▸ hd, hs⟩
  introduces := by
    intro i e hie o hoe
    rw [ho]
    exact h.introduces i e (he i ▸ hie) o hoe

theorem tidy_withLevel (h : m.Tidy) (level : Nat) : ({ m with level } : Memory).Tidy :=
  h.of_aliases (consistent_durable.withLevel h.toConsistent level) (fun _ => rfl) (fun _ => rfl)
    rfl

theorem mem_objects_declareObject (m : Memory) (o : ObjectValue) (id : ObjectId) :
    id ∈ (m.declareObject o).objects ↔ id = o.id ∨ id ∈ m.objects := by
  unfold declareObject
  split
  · next hc =>
    refine ⟨.inr, ?_⟩
    rintro (rfl | hid)
    · exact ExtTreeMap.contains_iff_mem.1 hc
    · exact hid
  · change id ∈ m.objects.insert _ _ ↔ _
    rw [ExtTreeMap.mem_insert, LawfulEqCmp.compare_eq_iff_eq, eq_comm]

theorem tidy_declareObject (h : m.Tidy) (o : ObjectValue) : (m.declareObject o).Tidy where
  toConsistent := consistent_declareObject h.toConsistent o
  lists := by
    intro i e he
    rw [entry?_declareObject] at he
    apply (h.lists i e he).mono
    · exact fun p s _ hs => by rwa [cell_declareObject]
    · intro id d s _ hd hf
      refine ⟨d, ?_, hf⟩
      unfold declareObject
      split
      · exact hd
      · next hc =>
        -- the object is a new one
        rw [OrdMap.getElem?_insert, if_neg, hd]
        rintro rfl
        apply hc
        rw [ExtTreeMap.contains_eq_isSome_getElem?, hd]
        rfl
  introduces := by
    intro i e he o' ho'
    rw [entry?_declareObject] at he
    exact (mem_objects_declareObject m o o'.id).2 (.inr (h.introduces i e he o' ho'))

theorem tidy_mapEntries (h : m.Tidy) {f : Index → Entry → Entry}
    (hf : ∀ i (e : Entry), e.Coarsened (f i e)) : (m.mapEntries f).Tidy where
  toConsistent := consistent_mapEntries h.toConsistent hf
  lists := by
    intro i e he
    rw [entry?_mapEntries] at he
    obtain ⟨e', he', -⟩ := Option.map_eq_some_iff.1 he
    apply (h.lists i e' he').mono
    · exact fun p s _ hs => by rwa [cell_mapEntries]
    · exact fun id d s _ hd hs => ⟨d, hd, hs⟩
  introduces := by
    intro i e he o ho
    rw [entry?_mapEntries] at he
    obtain ⟨e', he', rfl⟩ := Option.map_eq_some_iff.1 he
    rw [← Entry.mem_objects, (hf i e').objects_eq, Entry.mem_objects] at ho
    exact h.introduces i e' he' o ho

theorem mem_objects_join (sources : List Memory) (level : Nat) (id : ObjectId) :
    id ∈ (join sources level).objects ↔ ∃ m ∈ sources, id ∈ m.objects := by
  rw [ExtTreeMap.mem_iff_isSome_getElem?, object?_join]
  simp only [ExtTreeMap.contains_iff_mem]
  split
  · next h => exact iff_of_true rfl h
  · next h => exact iff_of_false (by simp) h

/-- Joining needs an entry in every defined location: one without is undefined in the join, but not
listed there. -/
theorem tidy_join {sources : List Memory} (h : ∀ m ∈ sources, m.Tidy ∧ m.HasEntries)
    (level : Nat) : (join sources level).Tidy where
  toConsistent := consistent_join (fun m hm => (h m hm).1.toConsistent) level
  lists := by
    intro i e he
    obtain ⟨m, hm, hi⟩ := (isDefined_join sources level i).1 <| isDefined_of_entry? he
    obtain ⟨f, hf⟩ := Option.isSome_iff_exists.1 ((h m hm).2 i hi)
    apply ((h m hm).1.lists i f hf).mono
    · exact fun p s _ hs => (mem_members_join level).2 ⟨m, hm, hs⟩
    · intro id d s _ hd hf
      have hc : m.objects.contains id = true := by
        rw [ExtTreeMap.contains_eq_isSome_getElem?, hd]
        rfl
      refine ⟨_, by rw [object?_join, if_pos ⟨m, hm, hc⟩], OrdSet.mem_ofList.2 ?_⟩
      rw [List.mem_flatMap]
      exact ⟨d, List.mem_filterMap.2 ⟨m, hm, hd⟩, ExtTreeSet.mem_toList.2 hf⟩
  introduces := by
    intro i e he o ho
    rw [entry?_join] at he
    split at he
    · cases he
      rw [Entry.mem_foldl_join_iff_of_isSolid (Value.object_isSolid o)] at ho
      obtain ho | ⟨f, hf, ho⟩ := ho
      · exact absurd ho Entry.not_mem_empty
      · obtain ⟨m, hm, rfl⟩ := List.mem_map.1 hf
        obtain ⟨e, he, ho⟩ := (mem_entryOrUndefined (by simp)).1 ho
        exact (mem_objects_join sources level o.id).2 ⟨m, hm, (h m hm).1.introduces i e he o ho⟩
    · cases he

end Memory
end ScriptMemory
