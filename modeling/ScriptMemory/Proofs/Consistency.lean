import ScriptMemory.Proofs.Books.Account

/-! What every reachable snapshot can rely on, however raw the operations were that led to it: the
alias graph is well formed, and structure and data, on which each operation keeps separate books,
agree. -/
namespace ScriptMemory
open Std

namespace Books

/-- The structure that is written down mirrors the entries. -/
structure Mirrors (b : Books) : Prop where
  /-- A location holds no array but its own. -/
  own : ∀ (i : Index) (e : Entry) j, b.entries[i]? = some e → .array j ∈ e → j = i
  /-- A location has an array descriptor exactly when its entry holds its array. -/
  array_iff : ∀ i : Index, (∃ d ms, b.shapes[i]? = some d ∧ d.members = some ms) ↔
    ∃ e : Entry, b.entries[i]? = some e ∧ .array i ∈ e
  /-- The objects of a location are those in its entry; without one there are none. -/
  object_iff : ∀ (i : Index) d, b.shapes[i]? = some d →
    ∀ o, o ∈ d.objects ↔ ∃ e : Entry, b.entries[i]? = some e ∧ .object o ∈ e
  /-- What an array lists is defined and has an entry. -/
  member : ∀ (i : Index) d ms, b.shapes[i]? = some d → d.members = some ms → ∀ s ∈ ms,
    (∃ d, b.shapes[i.member s]? = some d) ∧ ∃ e, b.entries[i.member s]? = some e
  /-- What an object lists is defined and has an entry. -/
  field : ∀ (id : ObjectId) d, b.objects[id]? = some d → ∀ s ∈ d.fields,
    (∃ d, b.shapes[(Index.object id).member s]? = some d) ∧
      ∃ e, b.entries[(Index.object id).member s]? = some e

end Books

namespace Memory
variable {m : Memory}

theorem exists_shape_of_entry {i : Index} {e : Entry} (h : m.entry? i = some e) :
    (∃ d, m.shapes[i]? = some d) ∧ ∃ e, m.entries[i]? = some e := by
  rw [getElem?_shapes, if_pos <| isDefined_of_entry? h, getElem?_entries]
  exact ⟨⟨_, rfl⟩, e, h⟩

theorem eq_shape_of_getElem? {i : Index} {d : Shape} (h : m.shapes[i]? = some d) :
    d = m.shape i := by
  rw [getElem?_shapes] at h
  exact (Option.some.inj (Option.ite_none_right_eq_some.1 h).2).symm

theorem members_shape {i : Index} {ms : OrdSet Segment} (h : (m.shape i).members = some ms) :
    m.holdsArray i = true ∧ ms = (m.cell i).members := by
  obtain ⟨ha, hms⟩ := Option.ite_none_right_eq_some.1 h
  exact ⟨ha, (Option.some.inj hms).symm⟩

theorem Consistent.mirrors (h : m.Consistent) : m.books.Mirrors where
  own := by
    intro i e j he hj
    have hentry : m.books.entries[i]? = m.entry? i := getElem?_entries m i
    rw [hentry] at he
    exact (h.held i e he _ hj).2 j rfl
  array_iff := by
    intro i
    change (∃ d ms, m.shapes[i]? = some d ∧ d.members = some ms) ↔
      ∃ e, m.entries[i]? = some e ∧ .array i ∈ e
    rw [getElem?_entries, ← holdsArray_iff]
    constructor
    · rintro ⟨d, ms, hd, hms⟩
      rw [eq_shape_of_getElem? hd] at hms
      exact (members_shape hms).1
    · intro ha
      obtain ⟨e, he, -⟩ := holdsArray_iff.1 ha
      refine ⟨m.shape i, (m.cell i).members, ?_, if_pos ha⟩
      rw [getElem?_shapes, if_pos <| isDefined_of_entry? he]
  object_iff := by
    intro i d hd o
    change _ ↔ ∃ e, m.entries[i]? = some e ∧ .object o ∈ e
    rw [eq_shape_of_getElem? hd, getElem?_entries]
    exact mem_objectsAt
  member := by
    intro i d ms hd hms s hs
    rw [eq_shape_of_getElem? hd] at hms
    rw [(members_shape hms).2] at hs
    obtain ⟨-, e, he⟩ := h.member i s hs
    exact exists_shape_of_entry he
  field := by
    intro id d hd s hs
    obtain ⟨e, he⟩ := h.field id d hd s hs
    exact exists_shape_of_entry he

end Memory

namespace Snapshot
variable {s : Snapshot}

/-- The alias graph of a reachable snapshot: aliases are mutual and lead to other, defined
locations, and none is both certain and uncertain; so no operation ever runs into a conflict. -/
theorem aliases_wellFormed (hs : Reachable s) :
    (∀ i j, (j ∈ (s.memory.aliases i).must ↔ i ∈ (s.memory.aliases j).must) ∧
      (j ∈ (s.memory.aliases i).may ↔ i ∈ (s.memory.aliases j).may)) ∧
    (∀ i, i ∉ (s.memory.aliases i).toList) ∧
    (∀ i j, ¬(j ∈ (s.memory.aliases i).must ∧ j ∈ (s.memory.aliases i).may)) ∧
    (∀ i j, j ∈ (s.memory.aliases i).toList → s.memory.isDefined j = true) ∧
    ∀ o : Operation, (∀ t ∈ o.sources, Reachable t) →
      ∀ i t, o.perform.run s ≠ .error (.conflictingAlias i) t := by
  have hup := hs.upholds Memory.consistent_durable
  have hsym := hup.memory.symmetric
  have hflip (i j : Index) (t : Strength) : j ∈ (s.memory.aliases i).ofStrength t ↔
      i ∈ (s.memory.aliases j).ofStrength t := by
    rw [AliasSet.mem_ofStrength, AliasSet.mem_ofStrength, hsym i j]
  refine ⟨fun i j => ⟨hflip i j .must, hflip i j .may⟩, ?_, ?_, ?_, ?_⟩
  · intro i hi
    obtain ⟨t, ht⟩ := AliasSet.mem_toList.1 hi
    exact nomatch ht.symm.trans (hup.memory.irreflexive i)
  · rintro i j ⟨hmust, hmay⟩
    exact nomatch (AliasSet.mem_ofStrength.1 hmust).symm.trans (AliasSet.mem_ofStrength.1 hmay)
  · intro i j hj
    obtain ⟨t, ht⟩ := AliasSet.mem_toList.1 hj
    exact Memory.isDefined_of_strength? ((hsym j i).trans ht)
  · intro o ho i t hrun
    have hsources : ∀ t ∈ o.sources, Memory.Consistent t.memory := fun t ht =>
      ((ho t ht).upholds Memory.consistent_durable).memory
    apply hup.failure?_ne Memory.consistent_durable o hsources i
    rw [hrun]
    rfl

/-- One variable bound to two others: its aliases are uncertain on both ends, and binding one of
them the other way round is no conflict. -/
theorem aliases_wellFormed_rebound :
    let x : Index := .ofVariable "x" .global
    let y : Index := .ofVariable "y" .global
    let ops : List Operation := [.start, .change (.assignAlias (.ofVariable "y") (.ofVariable "x")),
      .change (.assignAlias (.ofVariable "y") (.ofVariable "z"))]
    let s := ops.foldl after {}
    Reachable s ∧ x ∈ (s.memory.aliases y).may ∧ y ∈ (s.memory.aliases x).may ∧
      ∀ i t, (Operation.change (.createAlias x y)).perform.run s ≠
        .error (.conflictingAlias i) t := by
  intro x y ops s
  have hs : Reachable s := (Reachable.blank {}).foldl
    (by simp [ops, Operation.sources, Mutation.sources])
  have hmay : x ∈ (s.memory.aliases y).may := by decide +kernel
  have h := aliases_wellFormed hs
  exact ⟨hs, hmay, (h.1 y x).2.1 hmay,
    h.2.2.2.2 (.change (.createAlias x y)) (by simp [Operation.sources, Mutation.sources])⟩

/-- Structure and data of a reachable snapshot mirror each other, although every operation keeps
the book of each for itself; these are the books that the snapshot tells. -/
theorem structure_mirrors_data (hs : Reachable s) :
    (∃ a, Kept s a) ∧ ∀ a, Kept s a → a = s.account ∧ a.books.Mirrors := by
  refine ⟨hs.exists_kept, fun a ha => ?_⟩
  have htold : a = s.account := ha.eq_account
  have hconsistent : s.memory.Consistent := (hs.upholds Memory.consistent_durable).memory
  exact ⟨htold, htold ▸ hconsistent.mirrors⟩

/-- An element written on the way is listed by an array that the entry holds, and has an entry. -/
theorem structure_mirrors_data_element :
    let i : Index := .ofVariable "a" .global
    let k : Segment := .key (.integer 1)
    let ops : List Operation :=
      [.start, .change (.assign ((Path.ofVariable "a").member k) (.ofValue .any) false), .commit]
    let s := ops.foldl after {}
    let a := ops.foldl (fun a o => a.after o account) {}
    Reachable s ∧ Kept s a ∧ (∃ e : Entry, a.books.entries[i]? = some e ∧ .array i ∈ e) ∧
      ∃ e, a.books.entries[i.member k]? = some e := by
  intro i k ops s a
  have hs : Reachable s := (Reachable.blank {}).foldl
    (by simp [ops, Operation.sources, Mutation.sources])
  have ha : Kept s a := (Kept.blank {}).foldl
    (by simp [ops, Operation.sources, Mutation.sources])
  have hmembers : (a.books.shapes[i]?.bind (·.members)).any (·.contains k) = true := by
    decide +kernel
  obtain ⟨ms, hms, hk⟩ := (Option.any_eq_true _ _).1 hmembers
  obtain ⟨d, hd, hdms⟩ := Option.bind_eq_some_iff.1 hms
  have h := ((structure_mirrors_data hs).2 a ha).2
  exact ⟨hs, ha, (h.array_iff i).1 ⟨d, ms, hd, hdms⟩,
    (h.member i d ms hd hdms k (ExtTreeSet.contains_iff_mem.1 hk)).2⟩

end Snapshot
end ScriptMemory
