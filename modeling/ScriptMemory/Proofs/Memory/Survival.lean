import ScriptMemory.Proofs.Memory.WellFormed

/-! What a property of memory has to survive so that every edit keeps it. Which locations an edit
reaches and which values it may leave there are parameters, so that a property may be one of the
analysis, which never touches the slot for findings by a path, or one of any use of memory. -/
namespace ScriptMemory
open Std

namespace Memory
variable {m : Memory} {i j : Index} {P : Index → Prop}

/-- What lies below a location is a member, so it is no slot. -/
theorem ne_diagnostics_of_mem_below (h : j ∈ m.below i) : j ≠ .diagnostics := by
  obtain ⟨k, hk, hj⟩ := List.mem_flatMap.1 h
  obtain ⟨s, -, rfl⟩ := List.mem_map.1 hk
  have hmember (i : Index) (s : Segment) : i.member s ≠ .diagnostics := nofun
  exact forall_mem_subtree (P := (· ≠ .diagnostics)) (fun i s _ => hmember i s) (hmember i s) j hj

/-- A property of memory that survives each change an edit is made of, where the edit reaches the
locations `P` only, stores at each of them values as `V` allows, and never removes the slot for
findings. -/
structure Survives (P : Index → Prop) (V : Index → Value → Prop) (I : Memory → Prop) : Prop where
  object : ∀ id, P (.object id)
  member : ∀ i s, P i → P (i.member s)
  aliased : ∀ {m i j s}, I m → (m.aliases i).strength? j = some s → P j
  symmetric : ∀ {m}, I m → m.AliasesSymmetric
  /-- No reference is ever stored. -/
  isValue : ∀ {i v}, V i v → v.isReference = false
  storable : ∀ {i v}, v.isReference = false → v.arrayOwner? = none → V i v
  own : ∀ i, V i (.array i)
  held : ∀ {m i e}, I m → m.entry? i = some e → e.All (V i)
  discard : ∀ {m gone}, I m → (∀ i, gone i = true → P i ∧ i ≠ .diagnostics) → I (m.discard gone)
  write : ∀ {m i e}, I m → P i → e.All (V i) → I (m.write i e)
  declareObject : ∀ {m o}, I m → I (m.declareObject o)
  link : ∀ {m n i j}, I m → P i → P j → m.link i j = .ok n → I n

namespace Survives
variable {V : Index → Value → Prop} {I : Memory → Prop}

theorem isData (hI : Survives P V I) (h : I m) (i : Index) (e : Entry) (he : m.entry? i = some e) :
    e.IsData :=
  fun v hv => hI.isValue (hI.held h he v hv)

theorem clearMembers (hI : Survives P V I) (h : I m) (hi : P i) : I (m.clearMembers i) := by
  apply hI.discard h
  intro j hj
  have hbelow := OrdSet.mem_ofList.1 (ExtTreeSet.contains_iff_mem.1 hj)
  exact ⟨forall_mem_below hI.member hi j hbelow, ne_diagnostics_of_mem_below hbelow⟩

theorem remove (hI : Survives P V I) (h : I m) {targets : List Index}
    (ht : ∀ i ∈ targets, P i ∧ i ≠ .diagnostics) : I (m.remove targets) := by
  apply hI.discard h
  intro j hj
  rcases List.mem_append.1 (OrdSet.mem_ofList.1 (ExtTreeSet.contains_iff_mem.1 hj)) with hj | hj
  · exact ht j hj
  · obtain ⟨i, hi, hj⟩ := List.mem_flatMap.1 hj
    exact ⟨forall_mem_below hI.member (ht i hi).1 j hj, ne_diagnostics_of_mem_below hj⟩

end Survives

/-- What is stable survives all edits of ordinary locations. -/
theorem Stable.survives {I : Memory → Prop} (hI : Stable I) :
    Survives Index.IsOrdinary (fun _ v => v.isReference = false) I where
  object := Index.isOrdinary_object
  member := fun _ _ => Index.isOrdinary_member.2
  aliased := fun h hs => (hI.wellFormed h).ordinary _ _ _ hs
  symmetric := fun h => (hI.wellFormed h).symmetric
  isValue := id
  storable := fun h _ => h
  own := fun _ => rfl
  held := fun h he => (hI.wellFormed h).data _ _ he
  discard := fun h hgone => hI.discard h fun i hi => (hgone i hi).1
  write := hI.write
  declareObject := hI.declareObject
  link := hI.link

end Memory
end ScriptMemory
