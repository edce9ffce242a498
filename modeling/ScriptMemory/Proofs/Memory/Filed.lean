import ScriptMemory.Proofs.Memory.Consistent

/-! Memory as it comes about: consistent, and with fields listed by objects only. Whatever is done
with such memory leaves it so. -/
namespace ScriptMemory
open Std

namespace Memory
variable {m n : Memory} {i j : Index} {e : Entry} {s : Segment}

/-- Consistent memory in which fields are listed with the object, so that the location they hang
below lists nothing. -/
structure Filed (m : Memory) : Prop extends Consistent m where
  members_object : ∀ id, (m.cell (.object id)).members = ∅

theorem Filed.not_mem_members (h : m.Filed) (id : ObjectId) :
    s ∉ (m.cell (.object id)).members := by
  rw [h.members_object]
  exact ExtTreeSet.not_mem_empty

/-- No operation but a registration lists more than was listed before. -/
theorem Filed.of_members (h : m.Filed) (hn : n.Consistent)
    (hsub : ∀ id s, s ∈ (n.cell (.object id)).members → s ∈ (m.cell (.object id)).members) :
    n.Filed where
  toConsistent := hn
  members_object := by
    intro id
    apply ExtTreeSet.ext_mem
    intro s
    exact iff_of_false (fun hs => h.not_mem_members id (hsub id s hs)) ExtTreeSet.not_mem_empty

theorem Filed.discard (h : m.Filed) (gone : Index → Bool) : (m.discard gone).Filed := by
  apply h.of_members (consistent_discard h.toConsistent gone)
  intro id s hs
  rw [members_discard] at hs
  split at hs
  · exact absurd hs ExtTreeSet.not_mem_empty
  · exact (OrdSet.mem_filter.1 hs).1

/-- A field is registered with its object, and any other member lies below no object. -/
theorem members_object_register (m : Memory) (i : Index) (id : ObjectId) :
    ((m.register i).cell (.object id)).members = (m.cell (.object id)).members := by
  unfold register
  split
  · rfl
  · rfl
  · next parent s hobject =>
    split
    · rw [cell_modify, if_neg]
      rintro ⟨rfl, -⟩
      exact hobject id rfl
    · rfl

theorem Filed.put (h : m.Filed) (he : e.All (Value.Belongs i)) :
    ((m.register i).put i e).Filed := by
  apply h.of_members (consistent_put h.toConsistent he)
  intro id s hs
  rw [members_put] at hs
  split at hs
  · next heq =>
    split at hs
    · rwa [← heq, members_object_register] at hs
    · exact absurd hs ExtTreeSet.not_mem_empty
  · rwa [members_object_register] at hs

theorem Filed.write (h : m.Filed) (he : e.All (Value.Belongs i)) : (m.write i e).Filed := by
  unfold Memory.write
  split
  · exact h.put he
  · exact (h.discard _).put he

theorem Filed.link (h : m.Filed) (hl : m.link i j = .ok n) : n.Filed := by
  apply h.of_members (consistent_link h.toConsistent hl)
  intro id s hs
  rcases link_eq hl with rfl | ⟨a, b, ks, rfl⟩
  · exact hs
  · rwa [members_setAliases, members_foldl_modifyAliases, members_setAliases] at hs

theorem Filed.join {sources : List Memory} (h : ∀ m ∈ sources, m.Filed) (level : Nat) :
    (Memory.join sources level).Filed where
  toConsistent := consistent_join (fun m hm => (h m hm).toConsistent) level
  members_object := by
    intro id
    apply ExtTreeSet.ext_mem
    intro s
    refine iff_of_false (fun hs => ?_) ExtTreeSet.not_mem_empty
    obtain ⟨m, hm, hs⟩ := (mem_members_join level).1 hs
    exact (h m hm).not_mem_members id hs

theorem filed_initial : initial.Filed where
  toConsistent := consistent_initial
  members_object := by
    intro id
    rw [cell_initial]
    split <;> rfl

theorem filed_durable : Durable Value.Belongs Filed where
  object := fun _ => trivial
  member := fun _ _ _ => trivial
  aliased := fun _ _ => trivial
  symmetric := fun h => h.symmetric
  isValue := And.left
  storable := Value.belongs_of_arrayOwner?
  own := Value.belongs_array
  held := fun h he => h.held _ _ he
  discard := fun h _ => h.discard _
  write := fun h _ he => h.write he
  declareObject := fun h =>
    h.of_members (consistent_declareObject h.toConsistent _) fun id s hs => by
      rwa [cell_declareObject] at hs
  link := fun h _ _ => h.link
  initial := filed_initial
  realias := fun h i a => h.of_members (consistent_realias h.toConsistent i a) fun id s hs => by
    rwa [members_realias] at hs
  withLevel := fun h level =>
    h.of_members (consistent_durable.withLevel h.toConsistent level) fun _ _ => id
  mapEntries := fun h hf => h.of_members (consistent_mapEntries h.toConsistent hf) fun id s hs => by
    rwa [cell_mapEntries] at hs
  join := fun _ h => Filed.join h

end Memory
end ScriptMemory
