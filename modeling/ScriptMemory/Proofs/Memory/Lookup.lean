import ScriptMemory.Memory.Edit
import ScriptMemory.Proofs.Entry

/-! What each change of memory does to the entry and to the aliases of a location. Later proofs
open no change of memory but through these equations. -/
namespace ScriptMemory
open Std

namespace OrdSet
variable {α : Type} [Ord α] [TransOrd α] [LawfulEqOrd α] [DecidableEq α] {a : α}

theorem mem_ofList {l : List α} : a ∈ (ExtTreeSet.ofList l : OrdSet α) ↔ a ∈ l := by
  rw [ExtTreeSet.mem_ofList, List.contains_iff_mem]

theorem mem_insertMany {s : OrdSet α} {l : List α} : a ∈ s.insertMany l ↔ a ∈ s ∨ a ∈ l := by
  rw [ExtTreeSet.mem_insertMany_list, List.contains_iff_mem]

omit [DecidableEq α] in
theorem nodup_toList (s : OrdSet α) : s.toList.Nodup := by
  refine List.Pairwise.imp ?_ ExtTreeSet.distinct_toList
  rintro i j hij rfl
  exact hij ReflOrd.compare_self

end OrdSet

theorem OrdMap.getElem?_modify {κ ν : Type} [Ord κ] [TransOrd κ] [LawfulEqOrd κ] [DecidableEq κ]
    {m : OrdMap κ ν} {k l : κ} {f : ν → ν} :
    (m.modify k f)[l]? = if l = k then m[l]?.map f else m[l]? := by
  rw [ExtTreeMap.getElem?_modify]
  by_cases h : l = k
  · simp [h]
  · simp [h, eq_comm (a := k)]

namespace AliasSet
variable {a b : AliasSet} {i j : Index} {s : Strength}

theorem ext_strength? (h : ∀ i, a.strength? i = b.strength? i) : a = b := by
  cases a; cases b
  exact congrArg AliasSet.mk (ExtTreeMap.ext_getElem? h)

@[simp]
theorem strength?_empty (i : Index) : (∅ : AliasSet).strength? i = none :=
  ExtTreeMap.getElem?_empty

@[simp]
theorem strength?_filter (p : Index → Bool) :
    (a.filter p).strength? i = if p i then a.strength? i else none := by
  change (a.edges.filter fun i _ => p i)[i]? = _
  rw [ExtTreeMap.getElem?_filter']
  cases hp : p i <;> cases h : a.strength? i <;> simp_all [strength?, Option.filter]

@[simp]
theorem strength?_set : (a.set i s).strength? j = if j = i then some s else a.strength? j :=
  OrdMap.getElem?_insert

@[simp]
theorem strength?_erase : (a.erase i).strength? j = if j = i then none else a.strength? j :=
  OrdMap.getElem?_erase

@[simp]
theorem strength?_degrade : (a.degrade).strength? i = (a.strength? i).map fun _ => .may :=
  ExtTreeMap.getElem?_map

theorem mem_ofStrength : i ∈ a.ofStrength s ↔ a.strength? i = some s := by
  simp only [ofStrength, List.mem_map, List.mem_filter, decide_eq_true_eq, strength?]
  constructor
  · rintro ⟨⟨j, t⟩, ⟨hj, rfl⟩, rfl⟩
    exact ExtTreeMap.mem_toList_iff_getElem?_eq_some.1 hj
  · intro h
    exact ⟨(i, s), ⟨ExtTreeMap.mem_toList_iff_getElem?_eq_some.2 h, rfl⟩, rfl⟩

theorem mem_toList : i ∈ a.toList ↔ ∃ s, a.strength? i = some s := by
  simp only [toList, must, may, List.mem_append, mem_ofStrength]
  constructor
  · rintro (h | h)
    · exact ⟨_, h⟩
    · exact ⟨_, h⟩
  · rintro ⟨s, h⟩
    cases s
    · exact .inl h
    · exact .inr h

theorem isEmpty_iff : a.isEmpty = true ↔ ∀ i, a.strength? i = none := by
  constructor
  · intro h i
    have he : a.edges = ∅ := ExtTreeMap.isEmpty_iff.1 h
    simp [strength?, he]
  · intro h
    have he : a = ∅ := ext_strength? fun i => by rw [h i, strength?_empty]
    rw [he]
    exact ExtTreeMap.isEmpty_empty

theorem contains_iff : a.contains i = true ↔ ∃ s, a.strength? i = some s := by
  rw [contains, ExtTreeMap.contains_eq_isSome_getElem?, Option.isSome_iff_exists]
  rfl

/-- An alias of a merged set is one of some source, and it is certain only if all sources agree. -/
theorem strength?_merge (sources : List AliasSet) (i : Index) :
    (merge sources).strength? i = if sources.any (·.contains i) then
      some (if sources.all (·.strength? i = some .must) then .must else .may) else none := by
  change (OrdMap.tabulate _ _ : OrdMap Index Strength)[i]? = _
  rw [OrdMap.getElem?_tabulate]
  have hkeys : i ∈ (ExtTreeSet.ofList (sources.flatMap (·.edges.keys)) : OrdSet Index) ↔
      sources.any (·.contains i) = true := by
    rw [OrdSet.mem_ofList, List.mem_flatMap, List.any_eq_true]
    simp only [ExtTreeMap.mem_keys, contains, ExtTreeMap.contains_iff_mem]
  simp only [hkeys]

end AliasSet

namespace Cell

/-- A cell without aliases and members mentions nothing that it could forget. -/
theorem forget_eq {c : Cell} (ha : c.aliases = ∅) (hm : c.members = ∅) (i : Index)
    (gone : Index → Bool) : c.forget i gone = c := by
  have haliases : (∅ : AliasSet).filter (fun j => !gone j) = ∅ := by
    apply AliasSet.ext_strength?
    intro j
    simp
  have hmembers : (∅ : OrdSet Segment).filter (fun s => !gone (i.member s)) = ∅ := by
    apply ExtTreeSet.ext_mem
    intro s
    simp
  cases c
  dsimp only at ha hm
  simp only [Cell.forget, ha, hm, haliases, hmembers]

end Cell

namespace Memory
variable {m : Memory} {i j : Index} {e : Entry} {gone : Index → Bool}

/-- Two memories that define the same locations with the same cells, and the same objects. -/
theorem ext_cell (hd : ∀ i, m.isDefined i = n.isDefined i) (hc : ∀ i, m.cell i = n.cell i)
    (ho : ∀ id : ObjectId, m.objects[id]? = n.objects[id]?) (hl : m.level = n.level) : m = n := by
  have hcells : m.cells = n.cells := by
    apply ExtTreeMap.ext_getElem?
    intro i
    have hdi := hd i
    have hci := hc i
    unfold isDefined at hdi
    unfold cell at hci
    rw [ExtTreeMap.contains_eq_isSome_getElem?, ExtTreeMap.contains_eq_isSome_getElem?] at hdi
    cases hm : m.cells[i]? with
    | none =>
      rw [hm] at hdi
      exact (Option.not_isSome_iff_eq_none.1 (by rw [← hdi]; simp)).symm
    | some c =>
      cases hn : n.cells[i]? with
      | none => simp [hm, hn] at hdi
      | some d =>
        rw [hm, hn] at hci
        rw [show c = d from hci]
  have hobjects : m.objects = n.objects := ExtTreeMap.ext_getElem? ho
  cases m; cases n
  dsimp only at hcells hobjects hl
  rw [hcells, hobjects, hl]

/-- Two memories that agree in all parts. -/
theorem ext_parts (hd : ∀ i, m.isDefined i = true ↔ n.isDefined i = true)
    (he : ∀ i, m.entry? i = n.entry? i) (ha : ∀ i, m.aliases i = n.aliases i)
    (hm : ∀ i s, s ∈ (m.cell i).members ↔ s ∈ (n.cell i).members)
    (ho : ∀ id : ObjectId, m.objects[id]? = n.objects[id]?) (hl : m.level = n.level) : m = n := by
  refine ext_cell (fun i => Bool.eq_iff_iff.2 (hd i)) (fun i => ?_) ho hl
  have hmembers : (m.cell i).members = (n.cell i).members := ExtTreeSet.ext_mem fun s => hm i s
  calc m.cell i = ⟨m.entry? i, m.aliases i, (m.cell i).members⟩ := rfl
    _ = n.cell i := by rw [he, ha, hmembers]; rfl

theorem cell_of_not_isDefined (h : ¬m.isDefined i = true) : m.cell i = {} := by
  unfold isDefined at h
  rw [ExtTreeMap.contains_eq_isSome_getElem?, Option.not_isSome_iff_eq_none] at h
  unfold cell
  rw [h]
  rfl

theorem entry?_of_not_isDefined (h : m.isDefined i = false) : m.entry? i = none := by
  unfold entry?
  rw [cell_of_not_isDefined (Bool.eq_false_iff.1 h)]

theorem entryOrUndefined_of_some (h : m.entry? i = some e) : m.entryOrUndefined i = e := by
  unfold entryOrUndefined
  rw [h]
  rfl

theorem entryOrUndefined_of_none (h : m.entry? i = none) : m.entryOrUndefined i = .undefined := by
  unfold entryOrUndefined
  rw [h]
  rfl

theorem entryOrUndefined_congr {n : Memory} (h : n.entry? i = m.entry? i) :
    n.entryOrUndefined i = m.entryOrUndefined i := by
  unfold entryOrUndefined
  rw [h]

theorem readIndex_of_some (h : m.entry? i = some e) : m.readIndex i = e := by
  unfold readIndex
  rw [h]
  rfl

theorem readIndex_of_none (h : m.entry? i = none) : m.readIndex i = m.readAbsent i := by
  unfold readIndex
  rw [h]
  rfl

theorem cell_discard (m : Memory) (gone : Index → Bool) (i : Index) :
    (m.discard gone).cell i = if gone i then {} else (m.cell i).forget i gone := by
  have hget : (m.discard gone).cells[i]? =
      m.cells[i]?.bind fun c => if gone i then none else some (c.forget i gone) :=
    ExtTreeMap.getElem?_filterMap'
  unfold cell
  rw [hget]
  cases m.cells[i]? with
  | none => simp [Cell.forget_eq]
  | some c => by_cases hg : gone i <;> simp [hg]

theorem entry?_discard (m : Memory) (gone : Index → Bool) (i : Index) :
    Memory.entry? (m.discard gone) i = if gone i then none else m.entry? i := by
  unfold entry?
  rw [cell_discard]
  split <;> rfl

theorem aliases_discard (m : Memory) (gone : Index → Bool) (i : Index) :
    (m.discard gone).aliases i = if gone i then ∅ else (m.aliases i).filter fun j => !gone j := by
  unfold aliases
  rw [cell_discard]
  split <;> rfl

theorem isDefined_discard :
    (m.discard gone).isDefined i = true ↔ gone i = false ∧ m.isDefined i = true := by
  unfold isDefined
  rw [ExtTreeMap.contains_eq_isSome_getElem?, ExtTreeMap.contains_eq_isSome_getElem?]
  change (m.cells.filterMap fun i c => if gone i then none else some (c.forget i gone))[i]?.isSome =
    true ↔ _
  rw [ExtTreeMap.getElem?_filterMap']
  cases m.cells[i]? with
  | none => simp
  | some c => by_cases hg : gone i <;> simp [hg]

theorem mem_contains_ofList {is : List Index} :
    (ExtTreeSet.ofList is : OrdSet Index).contains i = true ↔ i ∈ is := by
  rw [ExtTreeSet.contains_iff_mem, OrdSet.mem_ofList]

/-- Nothing changes where nothing is gone. -/
theorem discard_eq_self (hg : ∀ i, gone i = false) : m.discard gone = m := by
  have hforget (i : Index) (c : Cell) : c.forget i gone = c := by
    have haliases : c.aliases.filter (fun j => !gone j) = c.aliases := by
      apply AliasSet.ext_strength?
      intro j
      simp [hg]
    have hmembers : c.members.filter (fun s => !gone (i.member s)) = c.members := by
      apply ExtTreeSet.ext_mem
      intro s
      rw [OrdSet.mem_filter, hg]
      simp
    cases c
    dsimp only at haliases hmembers
    simp only [Cell.forget, haliases, hmembers]
  apply ext_cell
  · intro i
    unfold isDefined
    rw [ExtTreeMap.contains_eq_isSome_getElem?, ExtTreeMap.contains_eq_isSome_getElem?]
    change (m.cells.filterMap fun i c =>
      if gone i then none else some (c.forget i gone))[i]?.isSome = _
    rw [ExtTreeMap.getElem?_filterMap']
    cases m.cells[i]? <;> simp [hg]
  · intro i
    rw [cell_discard, hg, hforget]
    rfl
  · intro id
    change (m.objects.map _)[id]? = _
    rw [ExtTreeMap.getElem?_map]
    cases m.objects[id]? with
    | none => rfl
    | some d =>
      have hfields : d.fields.filter (fun s => !gone ((Index.object id).member s)) = d.fields := by
        apply ExtTreeSet.ext_mem
        intro s
        rw [OrdSet.mem_filter, hg]
        simp
      simp only [Option.map_some, hfields]
  · rfl

theorem cell_modify {m : Memory} {f : Cell → Cell} (i j : Index) :
    ({ m with cells := m.cells.modify i f } : Memory).cell j =
      if j = i ∧ m.isDefined i then f (m.cell i) else m.cell j := by
  unfold cell isDefined
  simp only [ExtTreeMap.getElem?_modify, LawfulEqCmp.compare_eq_iff_eq]
  by_cases hj : i = j
  · subst hj
    cases h : m.cells[i]? with
    | none =>
      have hn : m.cells.contains i = false := by
        rw [ExtTreeMap.contains_eq_isSome_getElem?, h]
        rfl
      simp only [hn, if_true, Option.map_none, Bool.false_eq_true, and_false, if_false]
    | some c =>
      have hc : m.cells.contains i = true := by
        rw [ExtTreeMap.contains_eq_isSome_getElem?, h]
        rfl
      simp only [hc, if_true, Option.map_some, and_self, Option.getD_some]
  · have hji : ¬j = i := fun h => hj h.symm
    simp only [hj, hji, if_false, false_and]

theorem cell_insert {m : Memory} {c : Cell} (i j : Index) :
    ({ m with cells := m.cells.insert i c } : Memory).cell j = if j = i then c else m.cell j := by
  unfold cell
  rw [OrdMap.getElem?_insert]
  split <;> rfl

theorem cell_register_entry_aliases (m : Memory) (i j : Index) :
    ((m.register i).cell j).entry = (m.cell j).entry ∧
      ((m.register i).cell j).aliases = (m.cell j).aliases := by
  unfold register
  split
  · exact ⟨rfl, rfl⟩
  · exact ⟨rfl, rfl⟩
  · split
    · rw [cell_modify]
      split
      · next h =>
        rw [h.1]
        exact ⟨rfl, rfl⟩
      · exact ⟨rfl, rfl⟩
    · exact ⟨rfl, rfl⟩

@[simp]
theorem entry?_register (m : Memory) (i j : Index) : Memory.entry? (m.register i) j = m.entry? j :=
  (cell_register_entry_aliases m i j).1

@[simp]
theorem aliases_register (m : Memory) (i j : Index) : (m.register i).aliases j = m.aliases j :=
  (cell_register_entry_aliases m i j).2

@[simp]
theorem level_register (m : Memory) (i : Index) : (m.register i).level = m.level := by
  unfold register
  split <;> try rfl
  split <;> rfl

theorem entry?_put (m : Memory) (i j : Index) (e : Entry) :
    Memory.entry? (m.put i e) j = if j = i then some e else m.entry? j := by
  unfold put entry?
  rw [cell_insert]
  split <;> rfl

@[simp]
theorem aliases_put (m : Memory) (i j : Index) (e : Entry) :
    (m.put i e).aliases j = m.aliases j := by
  unfold put aliases
  rw [cell_insert]
  split
  · next h => rw [h]
  · rfl

@[simp]
theorem level_put : (m.put i e).level = m.level :=
  rfl

theorem entry?_write (m : Memory) (i j : Index) (e : Entry) :
    Memory.entry? (m.write i e) j = if j = i then some e
      else if e.contains (.array i) then m.entry? j else Memory.entry? (m.clearMembers i) j := by
  unfold write
  rw [entry?_put, entry?_register]
  split
  · rfl
  · split <;> rfl

theorem aliases_write (m : Memory) (i j : Index) (e : Entry) :
    (m.write i e).aliases j =
      if e.contains (.array i) then m.aliases j else (m.clearMembers i).aliases j := by
  unfold write
  rw [aliases_put, aliases_register]
  split <;> rfl

@[simp]
theorem level_write (m : Memory) (i : Index) (e : Entry) : (m.write i e).level = m.level := by
  unfold write
  rw [level_put, level_register]
  split <;> rfl

@[simp]
theorem cell_declareObject (m : Memory) (o : ObjectValue) (i : Index) :
    (m.declareObject o).cell i = m.cell i := by
  unfold declareObject
  split <;> rfl

@[simp]
theorem entry?_declareObject (m : Memory) (o : ObjectValue) (i : Index) :
    Memory.entry? (m.declareObject o) i = m.entry? i :=
  congrArg Cell.entry (cell_declareObject m o i)

@[simp]
theorem aliases_declareObject (m : Memory) (o : ObjectValue) (i : Index) :
    (m.declareObject o).aliases i = m.aliases i :=
  congrArg Cell.aliases (cell_declareObject m o i)

@[simp]
theorem level_declareObject (m : Memory) (o : ObjectValue) :
    (m.declareObject o).level = m.level := by
  unfold declareObject
  split <;> rfl

theorem cell_mapEntries (m : Memory) (f : Index → Entry → Entry) (i : Index) :
    (m.mapEntries f).cell i = { m.cell i with entry := (m.entry? i).map (f i) } := by
  unfold mapEntries entry? cell
  rw [ExtTreeMap.getElem?_map]
  cases m.cells[i]? <;> rfl

@[simp]
theorem entry?_mapEntries (m : Memory) (f : Index → Entry → Entry) (i : Index) :
    Memory.entry? (m.mapEntries f) i = (m.entry? i).map (f i) :=
  congrArg Cell.entry (cell_mapEntries m f i)

@[simp]
theorem aliases_mapEntries (m : Memory) (f : Index → Entry → Entry) (i : Index) :
    (m.mapEntries f).aliases i = m.aliases i := by
  unfold aliases
  rw [cell_mapEntries]

@[simp]
theorem entry?_setAliases (m : Memory) (i j : Index) (a : AliasSet) :
    Memory.entry? (m.setAliases i a) j = m.entry? j := by
  unfold setAliases entry?
  rw [cell_insert]
  split
  · next h => rw [h]
  · rfl

theorem aliases_setAliases (m : Memory) (i j : Index) (a : AliasSet) :
    (m.setAliases i a).aliases j = if j = i then a else m.aliases j := by
  unfold setAliases aliases
  rw [cell_insert]
  split <;> rfl

@[simp]
theorem entry?_modifyAliases (m : Memory) (i j : Index) (f : AliasSet → AliasSet) :
    Memory.entry? (m.modifyAliases i f) j = m.entry? j := by
  unfold modifyAliases entry?
  rw [cell_modify]
  split
  · next h => rw [h.1]
  · rfl

theorem aliases_modifyAliases (m : Memory) (i j : Index) (f : AliasSet → AliasSet) :
    (m.modifyAliases i f).aliases j =
      if j = i ∧ m.isDefined i then f (m.aliases i) else m.aliases j := by
  unfold modifyAliases aliases
  rw [cell_modify]
  split <;> rfl

@[simp]
theorem members_setAliases (m : Memory) (i j : Index) (a : AliasSet) :
    ((m.setAliases i a).cell j).members = (m.cell j).members := by
  unfold setAliases
  rw [cell_insert]
  split
  · next h => rw [h]
  · rfl

theorem isDefined_insert {m : Memory} {c : Cell} (i j : Index) :
    ({ m with cells := m.cells.insert i c } : Memory).isDefined j = true ↔
      j = i ∨ m.isDefined j = true := by
  unfold isDefined
  rw [ExtTreeMap.contains_insert, Bool.or_eq_true, beq_iff_eq, LawfulEqCmp.compare_eq_iff_eq,
    eq_comm]

theorem isDefined_modify (m : Memory) (i j : Index) (f : Cell → Cell) :
    ({ m with cells := m.cells.modify i f } : Memory).isDefined j = m.isDefined j := by
  unfold isDefined
  rw [Bool.eq_iff_iff, ExtTreeMap.contains_iff_mem, ExtTreeMap.contains_iff_mem,
    ExtTreeMap.mem_modify]

theorem isDefined_register (m : Memory) (i j : Index) :
    (m.register i).isDefined j = m.isDefined j := by
  unfold register
  split
  · rfl
  · rfl
  · split
    · exact isDefined_modify ..
    · rfl

theorem isDefined_write (m : Memory) (i j : Index) (e : Entry) :
    (m.write i e).isDefined j = true ↔
      j = i ∨ (if e.contains (.array i) then m else m.clearMembers i).isDefined j = true := by
  unfold write put
  rw [isDefined_insert, isDefined_register]

theorem isDefined_mapEntries (m : Memory) (f : Index → Entry → Entry) (j : Index) :
    (m.mapEntries f).isDefined j = m.isDefined j := by
  unfold isDefined mapEntries
  rw [Bool.eq_iff_iff, ExtTreeMap.contains_iff_mem, ExtTreeMap.contains_iff_mem,
    ExtTreeMap.mem_map]

theorem isDefined_declareObject (m : Memory) (o : ObjectValue) (j : Index) :
    (m.declareObject o).isDefined j = m.isDefined j := by
  unfold declareObject
  split <;> rfl

theorem isDefined_setAliases (m : Memory) (i j : Index) (a : AliasSet) :
    (m.setAliases i a).isDefined j = true ↔ j = i ∨ m.isDefined j = true :=
  isDefined_insert i j

theorem isDefined_modifyAliases (m : Memory) (i j : Index) (f : AliasSet → AliasSet) :
    (m.modifyAliases i f).isDefined j = m.isDefined j :=
  isDefined_modify m i j _

@[simp]
theorem members_modifyAliases (m : Memory) (i j : Index) (f : AliasSet → AliasSet) :
    ((m.modifyAliases i f).cell j).members = (m.cell j).members := by
  unfold modifyAliases
  rw [cell_modify]
  split
  · next h => rw [h.1]
  · rfl

/-- A location with an alias is defined. -/
theorem isDefined_of_strength? {s : Strength} (h : (m.aliases i).strength? j = some s) :
    m.isDefined i = true := by
  unfold isDefined
  rw [ExtTreeMap.contains_eq_isSome_getElem?]
  cases hc : m.cells[i]? with
  | some c => rfl
  | none =>
    have hb : m.aliases i = ∅ := by
      unfold aliases cell
      rw [hc]
      rfl
    rw [hb, AliasSet.strength?_empty] at h
    cases h

theorem isDefined_of_entry? (h : m.entry? i = some e) : m.isDefined i = true := by
  unfold isDefined
  rw [ExtTreeMap.contains_eq_isSome_getElem?]
  cases hc : m.cells[i]? with
  | some c => rfl
  | none =>
    unfold entry? cell at h
    rw [hc] at h
    cases h

theorem cell_join (sources : List Memory) (level : Nat) (i : Index) :
    (join sources level).cell i =
      if ∃ m ∈ sources, m.isDefined i then Cell.join (sources.map (·.cell i)) else {} := by
  have hkeys : i ∈ (ExtTreeSet.ofList (sources.flatMap (·.cells.keys)) : OrdSet Index) ↔
      ∃ m ∈ sources, m.isDefined i := by
    rw [OrdSet.mem_ofList, List.mem_flatMap]
    simp only [ExtTreeMap.mem_keys, isDefined, ExtTreeMap.contains_iff_mem]
  unfold cell join
  rw [OrdMap.getElem?_tabulate]
  simp only [hkeys]
  split <;> rfl

theorem entry?_join (sources : List Memory) (level : Nat) (i : Index) :
    Memory.entry? (join sources level) i = if ∃ m ∈ sources, m.isDefined i then
      some ((sources.map (·.entryOrUndefined i)).foldl Entry.join ∅) else none := by
  unfold entry?
  rw [cell_join]
  split
  · simp only [Cell.join, List.map_map]
    rfl
  · rfl

theorem aliases_join (sources : List Memory) (level : Nat) (i : Index) :
    (join sources level).aliases i =
      if ∃ m ∈ sources, m.isDefined i then .merge (sources.map (·.aliases i)) else ∅ := by
  unfold aliases
  rw [cell_join]
  split
  · simp only [Cell.join, List.map_map]
    rfl
  · rfl

end Memory
end ScriptMemory
