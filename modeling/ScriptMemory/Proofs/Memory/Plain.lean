import ScriptMemory.Proofs.Memory.Flat
import ScriptMemory.Proofs.Transaction

/-! Plain memory: that of a script which has no arrays, references and aliases. A path that names a
variable denotes one location there, and whatever is written changes one cell. -/
namespace ScriptMemory
open Std

/-- The location of a variable of the script. -/
def Index.global (name : String) : Index :=
  .ofVariable name .global

namespace Memory
variable {m n : Memory} {i j : Index} {e : Entry} {p : Path}

/-- The memory of the top level without arrays, references and aliases. -/
structure Plain (m : Memory) : Prop where
  level_eq : m.level = 0
  aliases : ∀ i, m.aliases i = ∅
  members : ∀ i, (m.cell i).members = ∅
  flat : ∀ i e, m.entry? i = some e → e.IsFlat

theorem global_ne {name other : String} (h : other ≠ name) :
    Index.global other ≠ Index.global name := by
  simpa [Index.global, Index.ofVariable] using h

theorem global_ne_member {name : String} {s : Segment} : Index.global name ≠ i.member s := by
  simp [Index.global, Index.ofVariable]

theorem Plain.toFlat (h : m.Plain) : m.Flat :=
  ⟨h.members, h.flat⟩

theorem Plain.wellFormed (h : m.Plain) : m.WellFormed where
  data := fun i e he => (h.flat i e he).isData
  symmetric := by
    intro i j
    rw [h.aliases, h.aliases]
    rfl
  ordinary := by
    intro i j s hs
    rw [h.aliases] at hs
    cases hs

theorem plain_initial : initial.Plain where
  level_eq := rfl
  aliases := aliases_initial
  members := by
    intro i
    rw [cell_initial]
    split <;> rfl
  flat := by
    intro i e he
    rw [entry?_initial] at he
    split at he
    · cases he
      exact Entry.all_empty
    · cases he

/-- Memory stays plain when each cell is kept, dropped, or given another flat entry. -/
theorem Plain.of_cell (h : m.Plain) (hl : n.level = m.level)
    (hc : ∀ i, n.cell i = m.cell i ∨ n.cell i = {} ∨
      ∃ e : Entry, e.IsFlat ∧ n.cell i = { m.cell i with entry := some e }) : n.Plain where
  level_eq := hl.trans h.level_eq
  aliases := by
    intro i
    have ha := h.aliases i
    unfold Memory.aliases at ha ⊢
    rcases hc i with hi | hi | ⟨e, -, hi⟩
    · rw [hi, ha]
    · rw [hi]
    · rw [hi, ha]
  members := by
    intro i
    rcases hc i with hi | hi | ⟨e, -, hi⟩
    · rw [hi, h.members]
    · rw [hi]
    · rw [hi, h.members]
  flat := by
    intro i e he
    unfold entry? at he
    rcases hc i with hi | hi | ⟨f, hf, hi⟩
    · rw [hi] at he
      exact h.flat i e he
    · rw [hi] at he
      cases he
    · rw [hi] at he
      cases he
      exact hf

/-- What is gone is dropped, and no other cell mentions it. -/
theorem Plain.cell_discard (h : m.Plain) (gone : Index → Bool) (i : Index) :
    (m.discard gone).cell i = if gone i then {} else m.cell i := by
  rw [Memory.cell_discard]
  split
  · rfl
  · exact Cell.forget_eq (h.aliases i) (h.members i) i gone

theorem Plain.cell_remove (h : m.Plain) (i j : Index) :
    (m.remove [i]).cell j = if j = i then {} else m.cell j := by
  rw [h.toFlat.remove_eq, h.cell_discard]
  simp only [decide_eq_true_eq]

theorem Plain.remove (h : m.Plain) (i : Index) : (m.remove [i]).Plain := by
  refine h.of_cell (n := m.remove [i]) rfl ?_
  intro j
  rw [h.cell_remove]
  split
  · exact .inr (.inl rfl)
  · exact .inl rfl

theorem Plain.write (h : m.Plain) (he : e.IsFlat) (i : Index) : (m.write i e).Plain := by
  apply h.of_cell (level_write ..)
  intro j
  rw [h.toFlat.cell_write he]
  split
  · next hj =>
    subst hj
    exact .inr (.inr ⟨e, he, rfl⟩)
  · exact .inl rfl

theorem Plain.declareObject (h : m.Plain) (o : ObjectValue) : (m.declareObject o).Plain :=
  h.of_cell (level_declareObject ..) fun i => .inl (cell_declareObject m o i)

theorem Plain.mapEntries (h : m.Plain) {f : Index → Entry → Entry}
    (hf : ∀ i e, e.IsFlat → (f i e).IsFlat) : (m.mapEntries f).Plain := by
  refine h.of_cell (n := m.mapEntries f) rfl ?_
  intro i
  rw [cell_mapEntries]
  cases he : m.entry? i with
  | none =>
    left
    unfold entry? at he
    rw [Option.map_none, ← he]
  | some e => exact .inr (.inr ⟨f i e, hf i e (h.flat i e he), rfl⟩)

theorem plain_join {sources : List Memory} (h : ∀ m ∈ sources, m.Plain) :
    (join sources 0).Plain where
  level_eq := rfl
  aliases := by
    intro i
    rw [aliases_join]
    split
    · apply AliasSet.ext_strength?
      intro j
      rw [AliasSet.strength?_merge, if_neg, AliasSet.strength?_empty]
      intro hany
      obtain ⟨a, ha, hj⟩ := List.any_eq_true.1 hany
      obtain ⟨m, hm, rfl⟩ := List.mem_map.1 ha
      obtain ⟨s, hs⟩ := AliasSet.contains_iff.1 hj
      rw [(h m hm).aliases] at hs
      cases hs
    · rfl
  members := by
    intro i
    rw [cell_join]
    split
    · apply ExtTreeSet.ext_mem
      intro s
      refine iff_of_false ?_ ExtTreeSet.not_mem_empty
      intro hs
      obtain ⟨c, hc, hs⟩ := List.mem_flatMap.1 (OrdSet.mem_ofList.1 hs)
      obtain ⟨m, hm, rfl⟩ := List.mem_map.1 hc
      rw [(h m hm).members] at hs
      exact absurd (ExtTreeSet.mem_toList.1 hs) ExtTreeSet.not_mem_empty
    · rfl
  flat := by
    intro i e he
    rw [entry?_join] at he
    split at he
    · cases he
      refine Entry.all_foldl_join Entry.all_empty ?_
      intro f hf
      obtain ⟨m, hm, rfl⟩ := List.mem_map.1 hf
      exact (h m hm).toFlat.isFlat_entryOrUndefined i
    · cases he

theorem reach_of_closed {next : Index → List Index} (h : ∀ i, next i = []) (rounds : Nat)
    (start : OrdSet Index) : reach next rounds start = start := by
  have hnone : start.toList.flatMap next = [] := by
    rw [List.flatMap_eq_nil_iff]
    exact fun i _ => h i
  have hmore : start.insertMany (start.toList.flatMap next) = start := by
    rw [hnone]
    rfl
  cases rounds with
  | zero => rfl
  | succ rounds =>
    unfold reach
    rw [hmore, if_pos rfl]

theorem Plain.reach_aliases (h : m.Plain) (rounds : Nat) (start : OrdSet Index) :
    reach (fun i => (m.aliases i).toList) rounds start = start ∧
      reach (fun i => (m.aliases i).must) rounds start = start := by
  have hnone (i : Index) : (m.aliases i).toList = [] := by
    apply List.eq_nil_iff_forall_not_mem.2
    intro j hj
    obtain ⟨s, hs⟩ := AliasSet.mem_toList.1 hj
    rw [h.aliases] at hs
    cases hs
  exact ⟨reach_of_closed hnone rounds start,
    reach_of_closed (fun i => (List.append_eq_nil_iff.1 (hnone i)).1) rounds start⟩

/-- Without aliases a certain location stands for itself. -/
theorem Plain.expand (h : m.Plain) (use : AliasReach) (must : OrdSet Index) :
    m.expand use { must } = { must } := by
  have hnothing {s : OrdSet Index} (hs : ∀ i ∈ s, i ∈ must) : s \ must = ∅ := by
    apply ExtTreeSet.ext_mem
    intro i
    rw [ExtTreeSet.mem_diff_iff]
    exact iff_of_false (fun hi => hi.2 (hs i hi.1)) ExtTreeSet.not_mem_empty
  unfold Memory.expand
  dsimp only
  rw [(h.reach_aliases _ must).2, (h.reach_aliases _ _).1]
  unfold Locations.split
  cases use with
  | must => rw [hnothing fun i hi => absurd hi ExtTreeSet.not_mem_empty]
  | all =>
    have hunion : ∀ i ∈ must ∪ ∅, i ∈ must := fun i hi =>
      (ExtTreeSet.mem_union_iff.1 hi).resolve_right ExtTreeSet.not_mem_empty
    rw [hnothing hunion]

/-- At the top level both scopes are the same. -/
theorem ofVariable_top (p : Path) : Locations.ofVariable p 0 =
    { must := (∅ : OrdSet Index).insert (.global p.name) } := by
  unfold Locations.ofVariable
  cases p.scope with
  | global => rfl
  | current => rfl

theorem toList_global (name : String) :
    ((∅ : OrdSet Index).insert (.global name)).toList = [.global name] :=
  Locations.toList_insert_empty _

/-- What a variable is read as is what its location holds. -/
theorem Plain.readAt (h : m.Plain) (hp : p.isVariable = true) :
    m.readAt p 0 = (∅ : Entry).join (m.entryOrUndefined (.global p.name)) := by
  unfold Memory.readAt resolve
  rw [follow_variable m hp, ofVariable_top, h.expand]
  have hlist : ({ must := (∅ : OrdSet Index).insert (.global p.name) } : Locations).toList =
      [.global p.name] := by
    unfold Locations.toList
    rw [toList_global]
    rfl
  have hne : ({ must := (∅ : OrdSet Index).insert (.global p.name) } : Locations).isEmpty =
      false := by
    unfold Locations.isEmpty
    rw [← ExtTreeSet.isEmpty_toList, toList_global]
    rfl
  unfold readLocations
  rw [hlist, hne]
  rfl

end Memory

namespace Draft
open Memory
variable {d : Draft} {e : Entry} {p : Path}

/-- A flat entry is stored in one cell; a strong write puts nothing else there. -/
theorem store_plain (h : d.memory.Plain) (he : e.IsFlat) (i : Index) (strong : Bool) :
    ∃ f : Entry, f.IsFlat ∧ (strong = true → e.WrittenAs f) ∧
      (d.store i e [] strong).memory.level = d.memory.level ∧
      ∀ j, (d.store i e [] strong).memory.cell j =
        if j = i then { d.memory.cell i with entry := some f } else d.memory.cell j := by
  have hstored := isFlat_stored h.toFlat he strong i
  obtain ⟨f, hf, hwritten⟩ := write_eq d i (stored d.memory e strong i)
  have hflat : f.IsFlat := hstored.writtenAs hwritten
  refine ⟨f, hflat, ?_, ?_, ?_⟩
  · rintro rfl
    exact hwritten
  · rw [store_flat h.toFlat he, hf]
    exact level_write ..
  · intro j
    rw [store_flat h.toFlat he, hf, h.toFlat.cell_write hflat]

/-- So memory stays plain. -/
theorem plain_store (h : d.memory.Plain) (he : e.IsFlat) (i : Index) (strong : Bool) :
    (d.store i e [] strong).memory.Plain := by
  obtain ⟨f, hf, -, hlevel, hcell⟩ := store_plain h he i strong
  apply h.of_cell hlevel
  intro j
  rw [hcell]
  split
  · next hj =>
    subst hj
    exact .inr (.inr ⟨f, hf, rfl⟩)
  · exact .inl rfl

/-- An assignment to a variable replaces what its location holds. -/
theorem assign_plain (h : d.memory.Plain) (he : e.IsFlat) (hp : p.isVariable = true)
    (force : Bool) : d.assign p 0 e force = d.store (.global p.name) e [] true := by
  unfold assign resolve storeAll
  rw [follow_of_isVariable d hp]
  dsimp only
  rw [ofVariable_top, h.expand, ofEntry_flat d.memory he, toList_global]
  cases force with
  | true => rfl
  | false => rfl

/-- Without a limit the entry is written as it is. -/
theorem assign_unlimited (h : d.memory.Plain) (hlimit : d.limit = none) (he : e.IsFlat)
    (hp : p.isVariable = true) (force : Bool) :
    (d.assign p 0 e force).memory = d.memory.write (.global p.name) e := by
  have hfits : e.Fits d.limit := by
    rw [hlimit]
    exact Entry.fits_none e
  rw [assign_plain h he hp, store_flat h.toFlat he]
  exact congrArg Draft.memory (write_of_fits hfits _)

theorem unset_plain (h : d.memory.Plain) (hp : p.isVariable = true) :
    (d.unset p).memory = d.memory.remove [.global p.name] := by
  unfold unset
  rw [follow_variable d.memory hp, h.level_eq, ofVariable_top]
  dsimp only
  rw [toList_global]
  rfl

end Draft
end ScriptMemory
