import ScriptMemory.Proofs.Memory.Frames
import ScriptMemory.Proofs.Memory.Consistent
import ScriptMemory.Proofs.Evaluation

/-! Where the locations of a memory may lie. Edits within one frame define locations below the
variables that they start from, below objects and in the slot for findings; everything that memory
mentions is defined. -/
namespace ScriptMemory
open Std

namespace Memory
variable {m n : Memory} {P Q : Index → Prop} {i j : Index} {k level : Nat} {sources : List Memory}

/-- The location occurs somewhere in memory. -/
inductive Mentions (m : Memory) : Index → Prop
  | defined {i : Index} (h : m.isDefined i = true) : m.Mentions i
  | holder {i : Index} {e : Entry} (h : m.entry? i = some e) : m.Mentions i
  | linked {i j : Index} {s : Strength} (h : (m.aliases j).strength? i = some s) : m.Mentions i
  | member {j : Index} {s : Segment} (h : s ∈ (m.cell j).members) : m.Mentions (j.member s)
  | field {id : ObjectId} {d : ObjectDescriptor} {s : Segment} (hd : m.objects[id]? = some d)
      (hs : s ∈ d.fields) : m.Mentions ((Index.object id).member s)
  | owner {i j : Index} {e : Entry} (he : m.entry? j = some e) (h : .array i ∈ e) : m.Mentions i

/-- Consistent memory of a level, all of which lies in `P`. -/
structure Confined (P : Index → Prop) (level : Nat) (m : Memory) : Prop extends m.Consistent where
  level_eq : m.level = level
  defined : ∀ i, m.isDefined i = true → P i

/-- What is mentioned is defined. -/
theorem Consistent.isDefined_of_mentions (h : m.Consistent) (hi : m.Mentions i) :
    m.isDefined i = true := by
  cases hi with
  | defined hi => exact hi
  | holder he => exact isDefined_of_entry? he
  | @linked _ j s hs => exact isDefined_of_strength? ((h.symmetric i j).trans hs)
  | @member j s hs =>
    obtain ⟨-, e, he⟩ := h.member j s hs
    exact isDefined_of_entry? he
  | field hd hs =>
    obtain ⟨e, he⟩ := h.field _ _ hd _ hs
    exact isDefined_of_entry? he
  | @owner _ j e he hv =>
    -- an array lies where its owner does
    obtain rfl : i = j := (h.held j e he _ hv).2 i rfl
    exact isDefined_of_entry? he

theorem Confined.mentions (h : m.Confined P level) (hi : m.Mentions i) : P i :=
  h.defined i (h.isDefined_of_mentions hi)

theorem Confined.mono (h : m.Confined P level) (hPQ : ∀ i, P i → Q i) : m.Confined Q level where
  toConsistent := h.toConsistent
  level_eq := h.level_eq
  defined := fun i hi => hPQ i (h.defined i hi)

theorem Confined.discard (h : m.Confined P level) (gone : Index → Bool) :
    (m.discard gone).Confined (fun i => P i ∧ gone i = false) level where
  toConsistent := consistent_discard h.toConsistent gone
  level_eq := h.level_eq
  defined := by
    intro i hi
    obtain ⟨hg, hi⟩ := isDefined_discard.1 hi
    exact ⟨h.defined i hi, hg⟩

theorem Confined.withLevel (h : m.Confined P level) (k : Nat) :
    ({ m with level := k } : Memory).Confined P k where
  toConsistent := consistent_durable.withLevel h.toConsistent k
  level_eq := rfl
  defined := h.defined

theorem Confined.mapEntries (h : m.Confined P level) {f : Index → Entry → Entry}
    (hf : ∀ i (e : Entry), e.Coarsened (f i e)) : (m.mapEntries f).Confined P level where
  toConsistent := consistent_mapEntries h.toConsistent hf
  level_eq := h.level_eq
  defined := by
    intro i hi
    rw [isDefined_mapEntries] at hi
    exact h.defined i hi

theorem confined_join (h : ∀ m ∈ sources, m.Confined P level) :
    (join sources level).Confined P level where
  toConsistent := consistent_join (fun m hm => (h m hm).toConsistent) level
  level_eq := rfl
  defined := by
    intro i hi
    obtain ⟨m, hm, hi⟩ := (isDefined_join sources level i).1 hi
    exact (h m hm).defined i hi

theorem confined_takenOver (hne : sources ≠ []) (h : ∀ m ∈ sources, m.Confined P level)
    (limit : Option Nat) : (takenOver limit sources).Confined P level := by
  unfold takenOver
  split
  · next m => exact h m List.mem_cons_self
  · have hlevel : ((sources.head?.map (·.level)).getD 0) = level := by
      cases sources with
      | nil => exact absurd rfl hne
      | cons m rest => exact (h m List.mem_cons_self).level_eq
    rw [hlevel]
    exact (confined_join h).mapEntries fun i e => (Entry.writtenAs_getD limit e).coarsened

/-- A path starts at one variable. -/
theorem all_ofVariable {p : Path} (hP : P (p.indexAt level)) :
    (Locations.ofVariable p level).All P := by
  rw [ofVariable_eq]
  rintro i (hi | hi)
  · rwa [mem_insert_empty.1 hi]
  · exact absurd hi ExtTreeSet.not_mem_empty

theorem Confined.widen (h : m.Confined P level) (before : Memory) :
    (m.widen before).Confined P level :=
  h.mapEntries (coarsened_widenEntry before)

theorem confined_initial (hP : P .diagnostics) : initial.Confined P 0 where
  toConsistent := consistent_initial
  level_eq := rfl
  defined := by
    intro i hi
    obtain rfl | hi := (isDefined_insert (m := {}) .diagnostics i).1 hi
    · exact hP
    · cases hi

section
variable (hobject : ∀ id, P (.object id)) (hmember : ∀ i s, P i → P (i.member s))
include hobject hmember

/-- Edits that start in `P` stay there. -/
theorem confined_survives : Survives P Value.Belongs (Confined P level) where
  object := hobject
  member := hmember
  aliased := fun h hs => h.mentions (.linked hs)
  symmetric := fun h => h.symmetric
  isValue := And.left
  storable := Value.belongs_of_arrayOwner?
  own := Value.belongs_array
  held := fun h he => h.toConsistent.held _ _ he
  discard := fun h _ => (h.discard _).mono fun _ => And.left
  write := by
    intro m i e h hi he
    refine ⟨consistent_write h.toConsistent he, (level_write ..).trans h.level_eq, ?_⟩
    intro j hj
    rcases (isDefined_write ..).1 hj with rfl | hj
    · exact hi
    · -- nothing but the members of the location goes
      split at hj
      · exact h.defined j hj
      · exact h.defined j (isDefined_discard.1 hj).2
  declareObject := by
    intro m o h
    refine ⟨consistent_declareObject h.toConsistent o,
      (level_declareObject ..).trans h.level_eq, ?_⟩
    intro j hj
    rw [isDefined_declareObject] at hj
    exact h.defined j hj
  link := by
    intro m n i j h hi hj hl
    by_cases hne : i = j
    · rw [link, if_pos hne] at hl
      cases hl
      exact h
    · obtain ⟨n', hl', hlinked⟩ := exists_linkedTo h.symmetric hne
      cases hl.symm.trans hl'
      refine ⟨consistent_link h.toConsistent hl, hlinked.level_eq.trans h.level_eq, ?_⟩
      intro x hx
      rcases (hlinked.isDefined_iff x).1 hx with rfl | rfl | hx
      · exact hi
      · exact hj
      · exact h.defined x hx

theorem confined_withstands (hdiagnostics : P .diagnostics) (limits : Limits) :
    Withstands limits (fun _ => True) (fun _ => Entry.IsData) (Confined P level) := by
  have hI : Survives P Value.Belongs (Confined P level) := confined_survives hobject hmember
  refine ⟨fun _ he v hv => (he v hv).isReference, fun h p level =>
    isData_readAt (hI.isData h) p level, ?_, ?_⟩
  · rintro e f - m ⟨hm, he⟩
    obtain ⟨a, n, hy, hn, -⟩ := Transact.Keeps.mutate
      (Edit.keeps_report_of_survives hI hdiagnostics f) .warning limits m hm
    exact ⟨a, n, hy, hn, he⟩
  · intro className site fields hf m hm
    have hdata : ∀ x ∈ fields, x.2.IsData := by
      intro x hx
      obtain ⟨s, hs⟩ := hf x hx
      rw [hs]
      exact Entry.all_ofValue rfl
    obtain ⟨o, n, hy, hn, -⟩ := Transact.Keeps.mutate
      (Edit.keeps_createObject hI className site hdata) .createObject limits m hm
    exact ⟨o, n, hy, hn, Entry.all_ofValue rfl⟩

end

/-- Wherever it lies, memory stays consistent, and at its level. -/
theorem confined_survives_anywhere :
    Survives (fun _ => True) Value.Belongs (Confined (fun _ => True) level) :=
  confined_survives (fun _ => trivial) fun _ _ => id

end Memory
end ScriptMemory
