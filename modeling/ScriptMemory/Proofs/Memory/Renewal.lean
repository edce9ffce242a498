import ScriptMemory.Proofs.Memory.Frames
import ScriptMemory.Proofs.Memory.Tidy

/-! Editing tidy memory region by region. Where only variables are aliases, a write to a location
changes nothing outside of what that location contains, and it can be written if its container is
there; so the locations that one path denotes, none of which contains another, do not get in each
other's way. -/
namespace ScriptMemory
open Std

namespace Index
variable {i : Index}

theorem IsVariable.depth_eq (h : i.IsVariable) : i.depth = 0 := by
  obtain ⟨name, table, rfl⟩ := h
  rfl

theorem IsVariable.ne_object (h : i.IsVariable) (id : ObjectId) : i ≠ .object id := by
  obtain ⟨name, table, rfl⟩ := h
  intro heq
  cases heq

end Index

namespace Memory
variable {m n : Memory} {i j x : Index} {s : Segment} {e f : Entry} {gone : Index → Bool}

/-- Tidy memory in which only variables are aliases. -/
structure Neat (m : Memory) : Prop extends Tidy m where
  aliased : ∀ i j s, (m.aliases i).strength? j = some s → i.IsVariable

theorem Neat.aliased_right (h : m.Neat) {t : Strength} (hs : (m.aliases i).strength? j = some t) :
    j.IsVariable :=
  h.aliased j i t (h.symmetric j i ▸ hs)

/-- Without the removal of a variable no alias goes. -/
theorem Neat.aliases_discard (h : m.Neat) (hgone : ∀ j, j.IsVariable → gone j = false) (i : Index) :
    (m.discard gone).aliases i = m.aliases i := by
  apply AliasSet.ext_strength?
  intro j
  rw [strength?_discard]
  cases hs : (m.aliases i).strength? j with
  | none => exact ite_self none
  | some t =>
    have hi := hgone i (h.aliased i j t hs)
    have hj := hgone j (h.aliased_right hs)
    rw [hi, hj]
    rfl

theorem Neat.discard (h : m.Neat) (ht : (m.discard gone).Tidy) : (m.discard gone).Neat where
  toTidy := ht
  aliased := by
    intro i j t hs
    rw [strength?_discard] at hs
    split at hs
    · cases hs
    · exact h.aliased i j t hs

theorem Neat.aliases_clearMembers (h : m.Neat) (x i : Index) :
    (m.clearMembers x).aliases i = m.aliases i := by
  apply h.aliases_discard
  intro j hj
  rw [← Bool.not_eq_true, mem_contains_ofList]
  intro hb
  obtain ⟨s, -, hc⟩ := h.contains_of_mem_below hb
  have hle : x.depth + 1 ≤ j.depth := hc.depth_le
  rw [hj.depth_eq] at hle
  omega

theorem Neat.aliases_write (h : m.Neat) (i j : Index) (e : Entry) :
    (m.write i e).aliases j = m.aliases j := by
  rw [ScriptMemory.Memory.aliases_write]
  split
  · rfl
  · exact h.aliases_clearMembers i j

theorem Neat.write (h : m.Neat) (hi : m.Hosts i) (he : e.All (Value.Belongs i))
    (hin : m.Introduces e) : (m.write i e).Neat where
  toTidy := tidy_write h.toTidy hi he hin
  aliased := by
    intro j k t hs
    rw [h.aliases_write] at hs
    exact h.aliased j k t hs

theorem Neat.declareObject (h : m.Neat) (o : ObjectValue) : (m.declareObject o).Neat where
  toTidy := tidy_declareObject h.toTidy o
  aliased := by
    intro i j t hs
    rw [aliases_declareObject] at hs
    exact h.aliased i j t hs

theorem Consistent.held_entryOrUndefined (h : m.Consistent) (i : Index) :
    (m.entryOrUndefined i).All (Value.Belongs i) :=
  all_entryOrUndefined (Value.belongs_of_arrayOwner? rfl rfl) (h.held i)

/-- The location is defined, but has no entry. -/
def Vacant (m : Memory) (i : Index) : Prop :=
  m.isDefined i = true ∧ m.entry? i = none

theorem hasEntries_iff : m.HasEntries ↔ ∀ i, ¬m.Vacant i := by
  refine forall_congr' fun i => ?_
  unfold Vacant
  rw [not_and, Option.isSome_iff_ne_none]

theorem vacant_discard (h : (m.discard gone).Vacant i) : m.Vacant i := by
  obtain ⟨hg, hd⟩ := isDefined_discard.1 h.1
  have hnone := h.2
  rw [entry?_discard, if_neg (by simp [hg])] at hnone
  exact ⟨hd, hnone⟩

theorem vacant_write (h : (m.write i e).Vacant j) : m.Vacant j := by
  obtain ⟨hd, hnone⟩ := h
  rw [ScriptMemory.Memory.entry?_write] at hnone
  split at hnone
  · cases hnone
  · next hne =>
    have hd := ((isDefined_write m i j e).1 hd).resolve_left hne
    split at hnone
    · next hc =>
      rw [if_pos hc] at hd
      exact ⟨hd, hnone⟩
    · next hc =>
      rw [if_neg hc] at hd
      exact vacant_discard ⟨hd, hnone⟩

theorem vacant_declareObject {o : ObjectValue} (h : (m.declareObject o).Vacant i) :
    m.Vacant i := by
  unfold Vacant at h
  rwa [isDefined_declareObject, entry?_declareObject] at h

theorem introduces_iff :
    m.Introduces e ↔ e.All fun v => ∀ o, v = .object o → o.id ∈ m.objects := by
  constructor
  · rintro h _ hv o rfl
    exact h o hv
  · exact fun h o ho => h _ ho o rfl

theorem introduces_ofValue {v : Value} (hv : ∀ o, v = .object o → o.id ∈ m.objects) :
    m.Introduces (.ofValue v) :=
  introduces_iff.2 (Entry.all_ofValue hv)

theorem Tidy.introduces_entryOrUndefined (h : m.Tidy) (i : Index) :
    m.Introduces (m.entryOrUndefined i) :=
  introduces_iff.2 <| all_entryOrUndefined (fun _ ho => nomatch ho)
    fun e he => introduces_iff.1 (h.introduces i e he)

theorem Introduces.join (he : m.Introduces e) (hf : m.Introduces f) : m.Introduces (e.join f) :=
  fun o ho => (Entry.mem_or_mem_of_mem_join ho).elim (he o) (hf o)

theorem Introduces.insert {v : Value} (he : m.Introduces e)
    (hv : ∀ o, v = .object o → o.id ∈ m.objects) : m.Introduces (e.insert v) :=
  fun o ho => (Entry.eq_or_mem_of_mem_insert ho).elim (fun h => hv o h.symm) (he o)

theorem Introduces.filter (he : m.Introduces e) (p : Value → Bool) : m.Introduces (e.filter p) :=
  fun o ho => he o (Entry.mem_filter.1 ho).1

theorem Introduces.writtenAs (he : m.Introduces e) (hw : e.WrittenAs f) : m.Introduces f := by
  intro o ho
  rw [← Entry.mem_objects, hw.coarsened.objects_eq, Entry.mem_objects] at ho
  exact he o ho

end Memory

namespace ArraySource
variable {a : ArraySource} {arrays : List ArraySource} {m n : Memory} {s : Segment}

/-- An array of tidy memory, all of whose objects have been introduced in `m`. -/
structure Available (m : Memory) (a : ArraySource) : Prop where
  tidy : a.memory.Tidy
  objects : ∀ id : ObjectId, id ∈ a.memory.objects → id ∈ m.objects

theorem Available.mono (h : a.Available m) (ho : ∀ id : ObjectId, id ∈ m.objects → id ∈ n.objects) :
    a.Available n :=
  ⟨h.tidy, fun id hid => ho id (h.objects id hid)⟩

theorem Available.isData (h : a.Available m) : a.IsData :=
  fun i e he v hv => (h.tidy.held i e he v hv).1

theorem introduces_memberEntry (h : ∀ a ∈ arrays, a.Available m) (s : Segment) :
    m.Introduces (memberEntry arrays s) := by
  refine Memory.introduces_iff.2 (all_memberEntry (fun _ ho => nomatch ho) ?_ s)
  intro a ha i e he
  exact Memory.introduces_iff.1 (((h a ha).tidy.introduces i e he).mono (h a ha).objects)

theorem available_of_mem_memberArrays (h : ∀ a ∈ arrays, a.Available m)
    (ha : a ∈ memberArrays arrays s) : a.Available m := by
  obtain ⟨b, hb, rfl⟩ := List.mem_map.1 ha
  have hav := h b (List.mem_filter.1 hb).1
  exact ⟨hav.tidy, hav.objects⟩

theorem mem_allSegments : s ∈ (allSegments arrays).toList ↔ ∃ a ∈ arrays, s ∈ a.segments := by
  unfold allSegments
  rw [ExtTreeSet.mem_toList, OrdSet.mem_ofList, List.mem_flatMap]
  simp only [ExtTreeSet.mem_toList]

theorem available_of_mem_ofEntry {e : Entry} (h : m.Tidy)
    (ho : ∀ id : ObjectId, id ∈ m.objects → id ∈ n.objects) (ha : a ∈ ofEntry m e) :
    a.Available n := by
  obtain ⟨j, -, rfl⟩ := List.mem_map.1 ha
  exact ⟨h, ho⟩

end ArraySource

namespace Draft
variable {d d' d'' : Draft} {R S : Index → Prop} {i j : Index} {e : Entry} {s : Segment}
  {arrays : List ArraySource}

/-- An entry as it is written, which is within the limit. -/
def fit (d : Draft) (e : Entry) : Entry :=
  (d.simplify? e).getD e

theorem writtenAs_fit (d : Draft) (e : Entry) : e.WrittenAs (d.fit e) :=
  Entry.writtenAs_getD d.limit e

theorem fit_congr (h : d'.limit = d.limit) (e : Entry) : d'.fit e = d.fit e := by
  unfold fit simplify?
  rw [h]

theorem write_memory (d : Draft) (i : Index) (e : Entry) :
    (d.write i e).memory = d.memory.write i (d.fit e) := by
  unfold write fit
  cases d.simplify? e <;> rfl

theorem limit_write (d : Draft) (i : Index) (e : Entry) : (d.write i e).limit = d.limit := by
  unfold write
  cases d.simplify? e <;> rfl

/-- The draft `d'` is `d` after neat memory was edited within `R`. -/
structure Renewed (d : Draft) (R : Index → Prop) (d' : Draft) : Prop where
  neat : d'.memory.Neat
  limit_eq : d'.limit = d.limit
  level_eq : d'.memory.level = d.memory.level
  aliases_eq : ∀ i, d'.memory.aliases i = d.memory.aliases i
  objects : ∀ id : ObjectId, id ∈ d.memory.objects → id ∈ d'.memory.objects
  entry?_eq : ∀ i, ¬R i → d'.memory.entry? i = d.memory.entry? i
  vacant : ∀ i, d'.memory.Vacant i → d.memory.Vacant i

namespace Renewed

theorem refl (h : d.memory.Neat) (R : Index → Prop) : d.Renewed R d :=
  ⟨h, rfl, rfl, fun _ => rfl, fun _ => id, fun _ _ => rfl, fun _ => id⟩

theorem mono (h : d.Renewed R d') (hRS : ∀ i, R i → S i) : d.Renewed S d' :=
  { h with entry?_eq := fun i hi => h.entry?_eq i fun hR => hi (hRS i hR) }

theorem trans (h : d.Renewed R d') (h' : d'.Renewed R d'') : d.Renewed R d'' where
  neat := h'.neat
  limit_eq := h'.limit_eq.trans h.limit_eq
  level_eq := h'.level_eq.trans h.level_eq
  aliases_eq := fun i => (h'.aliases_eq i).trans (h.aliases_eq i)
  objects := fun id hid => h'.objects id (h.objects id hid)
  entry?_eq := fun i hi => (h'.entry?_eq i hi).trans (h.entry?_eq i hi)
  vacant := fun i hi => h.vacant i (h'.vacant i hi)

theorem holdsArray_eq (h : d.Renewed R d') (hi : ¬R i) :
    d'.memory.holdsArray i = d.memory.holdsArray i :=
  Memory.holdsArray_congr (h.entry?_eq i hi)

theorem entryOrUndefined_eq (h : d.Renewed R d') (hi : ¬R i) :
    d'.memory.entryOrUndefined i = d.memory.entryOrUndefined i :=
  Memory.entryOrUndefined_congr (h.entry?_eq i hi)

/-- A container outside of the region stays. -/
theorem hosts (h : d.Renewed R d') (hi : d.memory.Hosts i)
    (hR : ∀ p s, i = .member p s → ¬R p) : d'.memory.Hosts i := by
  refine hi.mono ?_ h.objects
  intro p s heq hp
  rwa [h.holdsArray_eq (hR p s heq)]

end Renewed

theorem renewed_write (h : d.memory.Neat) (hi : d.memory.Hosts i) (he : e.All (Value.Belongs i))
    (hin : d.memory.Introduces e) : d.Renewed i.Contains (d.write i e) where
  neat := by
    rw [write_memory]
    have hw := writtenAs_fit d e
    exact h.write hi (he.writtenAs (fun _ => Value.belongs_of_arrayOwner? rfl rfl) hw)
      (hin.writtenAs hw)
  limit_eq := limit_write d i e
  level_eq := by rw [write_memory, Memory.level_write]
  aliases_eq := by
    intro j
    rw [write_memory, h.aliases_write]
  objects := by
    intro id hid
    rw [write_memory]
    exact (Memory.mem_objects_write ..).2 hid
  entry?_eq := by
    intro j hj
    rw [write_memory, h.entry?_write hj]
  vacant := by
    intro j hj
    rw [write_memory] at hj
    exact Memory.vacant_write hj

theorem entry?_write_self (d : Draft) (i : Index) (e : Entry) :
    Memory.entry? (d.write i e).memory i = some (d.fit e) := by
  rw [write_memory, Memory.entry?_write, if_pos rfl]

theorem renewed_clearMembers (h : d.memory.Neat) (i : Index) :
    d.Renewed i.Contains (d.update (·.clearMembers i)) where
  neat := h.discard (Memory.tidy_clearMembers h.toTidy i)
  limit_eq := rfl
  level_eq := rfl
  aliases_eq := h.aliases_clearMembers i
  objects := fun id hid => (Memory.mem_objects_clearMembers d.memory i id).2 hid
  entry?_eq := fun _ hj => Memory.entry?_clearMembers_of_not h.toConsistent (.inl hj)
  vacant := fun _ => Memory.vacant_discard

theorem introduces_placed {m : Memory} {old : Entry} (hold : m.Introduces old)
    (he : m.Introduces e) (i : Index) (hasArray strong : Bool) :
    m.Introduces (placed old i e hasArray strong) := by
  intro o ho
  refine all_placed (W := fun v => ∀ o, v = .object o → o.id ∈ m.objects) ?_ ?_ ?_ hasArray strong
    _ ho o rfl
  · rintro v hv o rfl
    exact hold o hv
  · exact fun o heq => nomatch heq
  · rintro v hv - o rfl
    exact he o hv

theorem mem_placed_iff_of_isSolid {v : Value} (hv : v.IsSolid) (old : Entry) (i : Index) (e : Entry)
    (hasArray strong : Bool) : v ∈ placed old i e hasArray strong ↔ strong = false ∧ v ∈ old ∨
      hasArray = true ∧ v = .array i ∨ v ∈ e ∧ v.arrayOwner? = none := by
  unfold placed
  cases strong <;> cases hasArray <;>
    simp [Entry.mem_join_iff_of_isSolid hv, Entry.mem_insert_iff_of_isSolid hv, Entry.mem_filter]

theorem array_mem_placed (old : Entry) (i : Index) (e : Entry) (strong : Bool) :
    .array i ∈ placed old i e true strong :=
  (mem_placed_iff_of_isSolid (Value.array_isSolid i) ..).2 (.inr (.inl ⟨rfl, rfl⟩))

theorem renewed_place (h : d.memory.Neat) (hi : d.memory.Hosts i) (he : e.IsData)
    (hin : d.memory.Introduces e) (hasArray strong : Bool) :
    d.Renewed i.Contains (d.place i e hasArray strong) := by
  have hbelongs := all_placed (h.held_entryOrUndefined i) (Value.belongs_array i)
    (fun v hv => Value.belongs_of_arrayOwner? (he v hv)) hasArray strong
  have hintroduces := introduces_placed (h.introduces_entryOrUndefined i) hin i hasArray strong
  rw [place_eq]
  cases strong with
  | false => exact renewed_write h hi hbelongs hintroduces
  | true =>
    have hclear := renewed_clearMembers h i
    refine hclear.trans (renewed_write hclear.neat (hi.clearMembers h.toConsistent) hbelongs ?_)
    exact hintroduces.mono hclear.objects

theorem entry?_place (d : Draft) (i : Index) (e : Entry) (hasArray strong : Bool) :
    Memory.entry? (d.place i e hasArray strong).memory i =
      some (d.fit (placed (d.memory.entryOrUndefined i) i e hasArray strong)) := by
  rw [place_eq, entry?_write_self]
  cases strong <;> rfl

/-- A copy changes nothing outside of its target, which holds what was placed there. -/
theorem renewed_copy {depth : Nat} (h : d.memory.Neat) (hi : d.memory.Hosts i) (he : e.IsData)
    (hin : d.memory.Introduces e) (ha : ∀ a ∈ arrays, a.Available d.memory) (strong : Bool) :
    d.Renewed i.Contains (copy depth d i e arrays strong) ∧
      Memory.entry? (copy depth d i e arrays strong).memory i =
        some (d.fit (placed (d.memory.entryOrUndefined i) i e (!arrays.isEmpty) strong)) := by
  induction depth generalizing d i e arrays with
  | zero => exact ⟨renewed_place h hi he hin _ _, entry?_place ..⟩
  | succ depth ih =>
    have hplaced := renewed_place h hi he hin (!arrays.isEmpty) strong
    have hentry := entry?_place d i e (!arrays.isEmpty) strong
    -- each member is copied into what the last one left, and none of them changes the location
    have hfold : ∀ (segments : List Segment) (d' : Draft),
        (∀ s ∈ segments, ∃ a ∈ arrays, s ∈ a.segments) → d.Renewed i.Contains d' →
        d'.memory.entry? i =
          some (d.fit (placed (d.memory.entryOrUndefined i) i e (!arrays.isEmpty) strong)) →
        d.Renewed i.Contains (segments.foldl (fun d s => copy depth d (i.member s)
          (ArraySource.memberEntry arrays s) (ArraySource.memberArrays arrays s) strong) d') ∧
        Memory.entry? (segments.foldl (fun d s => copy depth d (i.member s)
          (ArraySource.memberEntry arrays s)
          (ArraySource.memberArrays arrays s) strong) d').memory i =
          some (d.fit (placed (d.memory.entryOrUndefined i) i e (!arrays.isEmpty) strong)) := by
      intro segments
      induction segments with
      | nil => exact fun d' _ hd' hi' => ⟨hd', hi'⟩
      | cons s segments ihs =>
        intro d' hsegments hd' hi'
        obtain ⟨a, hmem, hs⟩ := hsegments s List.mem_cons_self
        have havailable : ∀ a ∈ arrays, a.Available d'.memory :=
          fun a hmem => (ha a hmem).mono hd'.objects
        have hholds : d'.memory.holdsArray i = true := by
          refine Memory.holdsArray_iff.2 ⟨_, hi', ?_⟩
          rw [(writtenAs_fit d _).coarsened.array_mem_iff]
          have hne : (!arrays.isEmpty) = true := by
            cases arrays with
            | nil => cases hmem
            | cons _ _ => rfl
          rw [hne]
          exact array_mem_placed ..
        have hhosts : d'.memory.Hosts (i.member s) :=
          .inl ⟨((ha a hmem).tidy.holdsArray_of_mem hs).2, hholds⟩
        obtain ⟨hcopied, -⟩ := ih hd'.neat hhosts
          (ArraySource.isData_memberEntry (fun a hmem => (ha a hmem).isData) s)
          (ArraySource.introduces_memberEntry havailable s)
          fun a => ArraySource.available_of_mem_memberArrays havailable
        apply ihs _ fun t ht => hsegments t (List.mem_cons_of_mem s ht)
        · exact hd'.trans (hcopied.mono fun j hj => (Index.contains_member i s).trans hj)
        · rw [hcopied.entry?_eq i (Index.not_member_contains i s), hi']
    exact hfold _ _ (fun s => ArraySource.mem_allSegments.1) hplaced hentry

theorem renewed_store (h : d.memory.Neat) (hi : d.memory.Hosts i) (he : e.IsData)
    (hin : d.memory.Introduces e) (ha : ∀ a ∈ arrays, a.Available d.memory) (strong : Bool) :
    d.Renewed i.Contains (d.store i e arrays strong) :=
  (renewed_copy h hi he hin ha strong).1

theorem entry?_store (h : d.memory.Neat) (hi : d.memory.Hosts i) (he : e.IsData)
    (hin : d.memory.Introduces e) (ha : ∀ a ∈ arrays, a.Available d.memory) (strong : Bool) :
    Memory.entry? (d.store i e arrays strong).memory i =
      some (d.fit (placed (d.memory.entryOrUndefined i) i e (!arrays.isEmpty) strong)) :=
  (renewed_copy h hi he hin ha strong).2

theorem renewed_add {v : Value} (h : d.memory.Neat) (hi : d.memory.Hosts i) (hv : v.Belongs i)
    (hin : ∀ o, v = .object o → o.id ∈ d.memory.objects) (certain : Bool) :
    d.Renewed i.Contains (d.add i v certain) := by
  apply renewed_write h hi
  · split
    · exact Entry.all_ofValue hv
    · exact (h.held_entryOrUndefined i).insert hv
  · split
    · exact Memory.introduces_ofValue hin
    · exact (h.introduces_entryOrUndefined i).insert hin

theorem mem_add {v : Value} (hv : v.IsSolid) (hn : v.isSimplifiable = false) (certain : Bool) :
    ∃ e, Memory.entry? (d.add i v certain).memory i = some e ∧ v ∈ e := by
  refine ⟨_, entry?_write_self .., (writtenAs_fit d _).coarsened.kept v ?_ hv hn⟩
  split
  · exact Entry.mem_ofValue.2 rfl
  · exact (Entry.mem_insert_iff_of_isSolid hv).2 (.inl rfl)

/-- Introducing an object changes no location. -/
theorem renewed_declareObject (h : d.memory.Neat) (o : ObjectValue) :
    d.Renewed (fun _ => False) (d.update (·.declareObject o)) where
  neat := h.declareObject o
  limit_eq := rfl
  level_eq := Memory.level_declareObject ..
  aliases_eq := Memory.aliases_declareObject _ _
  objects := fun id hid => (Memory.mem_objects_declareObject d.memory o id).2 (.inr hid)
  entry?_eq := fun _ _ => Memory.entry?_declareObject ..
  vacant := fun _ => Memory.vacant_declareObject

/-- Preparing a location changes nothing outside of it. -/
theorem renewed_prepare (h : d.memory.Neat) (hi : d.memory.Hosts i) (s : Segment)
    (certain : Bool) : d.Renewed i.Contains (d.prepare s certain i) := by
  rcases d.prepare_cases s certain i with ⟨-, heq⟩ | ⟨-, -, heq⟩ | ⟨-, -, heq⟩ <;> rw [heq]
  · exact .refl h _
  · have hdeclared : d.Renewed i.Contains (d.update (·.declareObject (.madeAt i))) :=
      (renewed_declareObject h _).mono fun _ => False.elim
    refine hdeclared.trans
      (renewed_add hdeclared.neat (hi.mono ?_ hdeclared.objects) ?_ ?_ certain)
    · intro p s _ hp
      exact (Memory.holdsArray_congr (Memory.entry?_declareObject ..)).trans hp
    · exact Value.belongs_of_arrayOwner? rfl rfl
    · rintro o ⟨⟩
      exact (Memory.mem_objects_declareObject ..).2 (.inl rfl)
  · exact renewed_add h hi (Value.belongs_array i) (fun o ho => nomatch ho) certain

/-- After a location was prepared it holds its own array for a key, and an object for a field. -/
theorem opened_prepare (d : Draft) (s : Segment) (certain : Bool) (i : Index) :
    (d.prepare s certain i).memory.Opened s i := by
  rcases d.prepare_cases s certain i with ⟨hopened, heq⟩ | ⟨hs, -, heq⟩ | ⟨hs, -, heq⟩ <;> rw [heq]
  · exact hopened
  · unfold Memory.Opened
    rw [if_pos hs]
    exact List.ne_nil_of_mem
      (Memory.mem_objectsAt.2 (mem_add (Value.object_isSolid _) rfl certain))
  · unfold Memory.Opened
    rw [if_neg (Bool.eq_false_iff.1 hs)]
    exact Memory.holdsArray_iff.2 (mem_add (Value.array_isSolid i) rfl certain)

end Draft
end ScriptMemory
