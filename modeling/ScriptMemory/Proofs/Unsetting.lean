import ScriptMemory.Proofs.Assignment

/-! What unsetting a path does, and nothing else. The locations that the path certainly denotes are
removed at once, with all that is listed below them; those that it may denote, if they are left, may
be undefined from then on. Locations may well lie below one another: whatever is weakened keeps its
members, so the order does not matter. -/
namespace ScriptMemory
open Std

/-- Nothing but undefinedness is added. -/
theorem Entry.join_undefined (e : Entry) : e.join .undefined = e.insert .undefined := by
  have hlist : Entry.undefined.toList = [.undefined] :=
    Entry.toList_eq_singleton fun _ => Entry.mem_ofValue
  unfold join
  rw [hlist]
  rfl

namespace Memory
variable {m n k : Memory} {i j : Index} {l rest : List Index}

/-- The memory `n` is `m` after the defined ones of some locations have been made possibly
undefined. -/
structure Weakened (m : Memory) (l : List Index) (n : Memory) : Prop where
  isDefined_eq : ∀ j, n.isDefined j = m.isDefined j
  aliases_eq : ∀ j, n.aliases j = m.aliases j
  weakened : ∀ i ∈ l, m.isDefined i = true →
    n.entry? i = some ((m.entryOrUndefined i).insert .undefined)
  entry?_eq : ∀ j, j ∉ l ∨ m.isDefined j = false → n.entry? j = m.entry? j

theorem weakened_nil (m : Memory) : m.Weakened [] m :=
  ⟨fun _ => rfl, fun _ => rfl, fun _ hi => absurd hi List.not_mem_nil, fun _ _ => rfl⟩

/-- One location before the others, among which it is not. -/
theorem Weakened.cons (hi : i ∉ rest) (h : m.Weakened [i] k) (hrest : k.Weakened rest n) :
    m.Weakened (i :: rest) n where
  isDefined_eq := fun j => (hrest.isDefined_eq j).trans (h.isDefined_eq j)
  aliases_eq := fun j => (hrest.aliases_eq j).trans (h.aliases_eq j)
  weakened := by
    intro j hj hd
    rcases List.mem_cons.1 hj with rfl | hj
    · rw [hrest.entry?_eq j (.inl hi)]
      exact h.weakened j (List.mem_singleton.2 rfl) hd
    · have hne : j ∉ [i] := fun hmem => hi (List.mem_singleton.1 hmem ▸ hj)
      rw [hrest.weakened j hj ((h.isDefined_eq j).trans hd),
        entryOrUndefined_congr (h.entry?_eq j (.inl hne))]
  entry?_eq := by
    intro j hj
    rw [hrest.entry?_eq j, h.entry?_eq j]
    · exact hj.imp_left fun hnot hmem => hnot (List.mem_singleton.1 hmem ▸ List.mem_cons_self)
    · exact hj.imp (fun hnot hmem => hnot (List.mem_cons_of_mem i hmem))
        (h.isDefined_eq j).trans

/-- The memory `n` is `m` after some locations have been removed, and others that were there have
been made possibly undefined if they are left. -/
structure Cleared (m : Memory) (removed l : List Index) (n : Memory) : Prop where
  isDefined_iff : ∀ j, n.isDefined j = true ↔ j ∉ removed ∧ m.isDefined j = true
  strength?_eq : ∀ i j, (n.aliases i).strength? j =
    if i ∈ removed ∨ j ∈ removed then none else (m.aliases i).strength? j
  weakened : ∀ i ∈ l, n.isDefined i = true →
    n.entry? i = some ((m.entryOrUndefined i).insert .undefined)
  entry?_eq : ∀ j ∉ removed, j ∉ l ∨ m.isDefined j = false → n.entry? j = m.entry? j

theorem Weakened.cleared {targets : List Index} (h : (m.remove targets).Weakened l n) :
    m.Cleared (targets ++ targets.flatMap m.below) l n := by
  have hentry {j : Index} (hj : j ∉ targets ++ targets.flatMap m.below) :
      Memory.entry? (m.remove targets) j = m.entry? j := by
    unfold remove
    rw [entry?_discard, if_neg]
    rwa [mem_contains_ofList]
  have hdefined {j : Index} : (m.remove targets).isDefined j = true ↔
      j ∉ targets ++ targets.flatMap m.below ∧ m.isDefined j = true := by
    unfold remove
    rw [isDefined_discard, ← Bool.not_eq_true, mem_contains_ofList]
  constructor
  · intro j
    rw [h.isDefined_eq, hdefined]
  · intro i j
    rw [h.aliases_eq]
    unfold remove
    rw [strength?_discard]
    simp only [Bool.or_eq_true, mem_contains_ofList]
  · intro i hi hd
    rw [h.isDefined_eq] at hd
    rw [h.weakened i hi hd, entryOrUndefined_congr (hentry (hdefined.1 hd).1)]
  · intro j hj hnot
    rw [h.entry?_eq j, hentry hj]
    exact hnot.imp_right fun hnone =>
      Bool.eq_false_iff.2 fun hd => Bool.false_ne_true (hnone.symm.trans (hdefined.1 hd).2)

namespace Cleared
variable {removed : List Index} {v : Value}

theorem isDefined_eq (h : m.Cleared removed l n) (hj : j ∉ removed) :
    n.isDefined j = m.isDefined j := by
  rw [Bool.eq_iff_iff, h.isDefined_iff, and_iff_right hj]

/-- What is gone is no alias of anything, and what is left keeps the aliases that are. -/
theorem aliases_eq (h : m.Cleared removed l n) (hj : j ∉ removed) :
    n.aliases j = (m.aliases j).filter fun i => !removed.contains i := by
  apply AliasSet.ext_strength?
  intro i
  rw [h.strength?_eq, AliasSet.strength?_filter]
  by_cases hi : i ∈ removed <;> simp [hi, hj]

/-- An array or an object is held as before, with undefinedness or without. -/
theorem held_iff (h : m.Cleared removed l n) (hj : j ∉ removed) (hv : v.IsSolid)
    (hne : v ≠ .undefined) :
    (∃ e, n.entry? j = some e ∧ v ∈ e) ↔ ∃ e, m.entry? j = some e ∧ v ∈ e := by
  by_cases hweak : j ∈ l ∧ m.isDefined j = true
  · rw [h.weakened j hweak.1 ((h.isDefined_eq hj).trans hweak.2)]
    simp only [Option.some.injEq, exists_eq_left']
    rw [Entry.mem_insert_iff_of_isSolid hv, or_iff_right hne, mem_entryOrUndefined hne]
  · rw [h.entry?_eq j hj]
    rw [not_and_or, Bool.not_eq_true] at hweak
    exact hweak

theorem holdsArray_eq (h : m.Cleared removed l n) (hj : j ∉ removed) :
    n.holdsArray j = m.holdsArray j := by
  rw [Bool.eq_iff_iff, holdsArray_iff, holdsArray_iff]
  exact h.held_iff hj (Value.array_isSolid j) (by simp)

theorem mem_objectsAt_iff (h : m.Cleared removed l n) (hj : j ∉ removed) {o : ObjectValue} :
    o ∈ n.objectsAt j ↔ o ∈ m.objectsAt j := by
  rw [mem_objectsAt, mem_objectsAt]
  exact h.held_iff hj (Value.object_isSolid o) (by simp)

end Cleared
end Memory

namespace Draft
variable {d : Draft} {i : Index} {l : List Index}

/-- Makes a location possibly undefined if it is there. -/
def weaken (d : Draft) (i : Index) : Draft :=
  if d.memory.isDefined i then d.store i .undefined [] false else d

theorem unset_eq (d : Draft) (p : Path) :
    d.unset p = (d.memory.follow .all p d.memory.level).may.toList.foldl weaken
      (d.update (·.remove (d.memory.follow .all p d.memory.level).must.toList)) :=
  rfl

theorem Free.weaken (h : d.Free) (i : Index) : (d.weaken i).Free := by
  unfold Draft.weaken
  split
  · exact h.place Entry.isData_undefined i false false
  · exact h

theorem Free.weakened (h : d.Free) (i : Index) : d.memory.Weakened [i] (d.weaken i).memory := by
  unfold Draft.weaken
  split
  · next hd =>
    rw [store_nil, h.place_weak, incoming_flat Entry.isFlat_undefined, Entry.join_undefined]
    constructor
    · intro j
      rw [Bool.eq_iff_iff, Memory.isDefined_put_register, or_iff_right_iff_imp]
      rintro rfl
      exact hd
    · intro j
      rw [Memory.aliases_put, Memory.aliases_register]
    · intro j hj _
      rw [List.mem_singleton.1 hj, Memory.entry?_put_register, if_pos rfl]
    · rintro j hj
      rw [Memory.entry?_put_register, if_neg]
      rintro rfl
      exact hj.elim (fun hnot => hnot (List.mem_singleton.2 rfl))
        fun hnone => Bool.false_ne_true (hnone.symm.trans hd)
  · next hd =>
    refine ⟨fun _ => rfl, fun _ => rfl, fun j hj hdj => ?_, fun _ _ => rfl⟩
    exact absurd (List.mem_singleton.1 hj ▸ hdj) hd

/-- By induction on the locations, none of which is met twice. -/
theorem Free.weakened_foldl (h : d.Free) (hnodup : l.Nodup) :
    d.memory.Weakened l (l.foldl Draft.weaken d).memory := by
  induction l generalizing d with
  | nil => exact Memory.weakened_nil d.memory
  | cons i rest ih =>
    obtain ⟨hi, hrest⟩ := List.nodup_cons.1 hnodup
    exact (h.weakened i).cons hi (ih (h.weaken i) hrest)

theorem Free.cleared_unset (h : d.Free) (p : Path) :
    let targets := d.memory.follow .all p d.memory.level
    d.memory.Cleared (targets.must.toList ++ targets.must.toList.flatMap d.memory.below)
      targets.may.toList (d.unset p).memory := by
  intro targets
  have hfree : (d.update (·.remove targets.must.toList)).Free :=
    ⟨h.limit_eq, Memory.consistent_discard h.consistent _⟩
  rw [Draft.unset_eq]
  exact (hfree.weakened_foldl (OrdSet.nodup_toList targets.may)).cleared

end Draft

namespace Snapshot
variable {s : Snapshot} {b : Memory}

/-- Unsetting a path without a simplify limit. What the path certainly denotes is gone together with
all that is listed below it, and with every alias edge to it. What the path may denote may be
undefined if it is left, and holds what it held besides. Every other location is as it was; every
one that is left has its aliases but for those that are gone, and none comes into being. -/
theorem unset_removes_or_weakens (hs : Reachable s) (hopen : s.phase = .open b)
    (hlimit : s.limits.simplify = none) (p : Path) :
    let targets := s.memory.follow .all p s.memory.level
    let removed := targets.must.toList ++ targets.must.toList.flatMap s.memory.below
    ∃ t, (unset p).run s = .ok () t ∧
      (∀ i ∈ removed, t.memory.isDefined i = false ∧
        ∀ j, (t.memory.aliases i).strength? j = none ∧ (t.memory.aliases j).strength? i = none) ∧
      (∀ i ∈ targets.may, t.memory.isDefined i = true →
        t.memory.entry? i = some ((s.memory.entryOrUndefined i).insert .undefined)) ∧
      (∀ i ∉ removed, i ∉ targets.may → t.memory.entry? i = s.memory.entry? i) ∧
      (∀ i ∉ removed, t.memory.isDefined i = s.memory.isDefined i ∧
        t.memory.holdsArray i = s.memory.holdsArray i ∧
        (∀ o, o ∈ t.memory.objectsAt i ↔ o ∈ s.memory.objectsAt i) ∧
        t.memory.aliases i = (s.memory.aliases i).filter fun j => !removed.contains j) := by
  intro targets removed
  have hfree : ({ memory := s.memory, limit := s.limits.simplify } : Draft).Free :=
    ⟨hlimit, (hs.upholds Memory.consistent_durable).memory⟩
  have hedit (d : Draft) : (Edit.unset p).run d = .ok () (d.unset p) := rfl
  obtain ⟨t, hrun, hmemory⟩ := Transact.mutate_ok .unset hopen (hedit _)
  have h : s.memory.Cleared removed targets.may.toList t.memory := hmemory ▸ hfree.cleared_unset p
  refine ⟨t, hrun, fun i hi => ⟨?_, fun j => ⟨?_, ?_⟩⟩, fun i hi hd => ?_, fun i hi hnot => ?_,
    fun i hi => ⟨?_, ?_, fun o => ?_, ?_⟩⟩
  · exact Bool.eq_false_iff.2 fun hd => ((h.isDefined_iff i).1 hd).1 hi
  · rw [h.strength?_eq, if_pos (.inl hi)]
  · rw [h.strength?_eq, if_pos (.inr hi)]
  · exact h.weakened i (ExtTreeSet.mem_toList.2 hi) hd
  · exact h.entry?_eq i hi (.inl fun hmem => hnot (ExtTreeSet.mem_toList.1 hmem))
  · exact h.isDefined_eq hi
  · exact h.holdsArray_eq hi
  · exact h.mem_objectsAt_iff hi
  · exact h.aliases_eq hi

set_option maxRecDepth 20000 in
/-- Two arrays that may be aliases. An element that is unset in the one vanishes there, and may be
undefined in the other. -/
theorem unset_removes_or_weakens_element :
    let one : Segment := .key (.integer 1)
    let number (n : Int64) : Entry := .ofValue (.scalar (.integer n))
    let x : Index := .ofVariable "x" .global
    let y : Index := .ofVariable "y" .global
    let element : Path := (Path.ofVariable "x").member one
    let ops : List Operation := [.start, .change (.assign element (number 5) false),
      .change (.assign ((Path.ofVariable "y").member one) (number 6) false),
      .change (.assign (.ofVariable "z") (number 7) false), .change (.createAlias y x),
      .change (.createAlias y (.ofVariable "z" .global))]
    let s := ops.foldl after {}
    Reachable s ∧ s.memory.isDefined (x.member one) = true ∧
      ∃ t, (unset element).run s = .ok () t ∧ t.memory.isDefined (x.member one) = false ∧
        t.memory.entry? (y.member one) = some ((number 6).insert .undefined) ∧
        t.memory.entry? x = s.memory.entry? x ∧
        t.memory.aliases x = (s.memory.aliases x).filter fun j =>
          !([x.member one] : List Index).contains j := by
  intro one number x y element ops s
  have hs : Reachable s := (Reachable.blank {}).foldl
    (by simp [ops, Operation.sources, Mutation.sources])
  have h := unset_removes_or_weakens (s := s) (b := .initial) hs (by decide +kernel)
    (by decide +kernel) element
  have hmust : (s.memory.follow .all element s.memory.level).must.toList ++
      (s.memory.follow .all element s.memory.level).must.toList.flatMap s.memory.below =
        [x.member one] := by decide +kernel
  have hentry : s.memory.entryOrUndefined (y.member one) = number 6 := by decide +kernel
  obtain ⟨t, hrun, hremoved, hweakened, hkept, hleft⟩ := h
  rw [hmust] at hremoved hkept hleft
  have hdefined : t.memory.isDefined (y.member one) = true := by
    rw [(hleft _ (by decide +kernel)).1]
    decide +kernel
  refine ⟨hs, by decide +kernel, t, hrun, (hremoved _ List.mem_cons_self).1, ?_, ?_, ?_⟩
  · rw [hweakened _ (ExtTreeSet.contains_iff_mem.1 (by decide +kernel)) hdefined, hentry]
  · refine hkept x (by decide +kernel) fun hmem => ?_
    have hnot : (s.memory.follow .all element s.memory.level).may.contains x = false := by
      decide +kernel
    exact Bool.false_ne_true (hnot.symm.trans (ExtTreeSet.contains_iff_mem.2 hmem))
  · exact (hleft x (by decide +kernel)).2.2.2

end Snapshot
end ScriptMemory
