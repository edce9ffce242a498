import ScriptMemory.Proofs.Assignment

/-! What a location keeps when memory is written elsewhere, or there. An object, an array and the
value for everything are lost only where the entry that holds them is replaced or removed: joining
more to an entry and simplifying it leave them alone. -/
namespace ScriptMemory
open Std

namespace Value

/-- Nothing absorbs the value, and simplification leaves it alone. -/
def IsLasting (v : Value) : Prop :=
  v.IsSolid ∧ v.isSimplifiable = false

theorem any_isLasting : any.IsLasting :=
  ⟨any_isSolid, rfl⟩

theorem array_isLasting (i : Index) : (array i).IsLasting :=
  ⟨array_isSolid i, rfl⟩

theorem object_isLasting (o : ObjectValue) : (object o).IsLasting :=
  ⟨object_isSolid o, rfl⟩

end Value

/-- What a location loses when a container for the segment is made at `v` in place of what was
there: a new object takes the place of all that lies below `v` as well. -/
def Segment.Wipes (s : Segment) (v i : Index) : Prop :=
  if s.isField then v.Contains i else v = i

theorem Segment.Wipes.contains {s : Segment} {v i : Index} (h : s.Wipes v i) : v.Contains i := by
  unfold Segment.Wipes at h
  split at h
  · exact h
  · exact h ▸ Index.contains_refl v

theorem Segment.Wipes.eq_of_key {s : Segment} {v i : Index} (h : s.Wipes v i)
    (hs : s.isField = false) : v = i := by
  unfold Segment.Wipes at h
  rwa [hs, if_neg Bool.false_ne_true] at h

namespace Memory
variable {m n k : Memory} {i j v : Index} {e : Entry} {s : Segment} {x : Value}

/-- The value is in the entry of the location. -/
def Holds (m : Memory) (i : Index) (x : Value) : Prop :=
  ∃ e, m.entry? i = some e ∧ x ∈ e

theorem Holds.congr (h : m.Holds i x) (he : n.entry? i = m.entry? i) : n.Holds i x := by
  obtain ⟨e, hm, hx⟩ := h
  exact ⟨e, he.trans hm, hx⟩

theorem Holds.mem_entryOrUndefined (h : m.Holds i x) : x ∈ m.entryOrUndefined i := by
  obtain ⟨e, he, hx⟩ := h
  rwa [entryOrUndefined_of_some he]

/-- Whatever lasts of what `m` holds at a location is held there in `n`, too. -/
def Retains (m n : Memory) (i : Index) : Prop :=
  ∀ x : Value, x.IsLasting → m.Holds i x → n.Holds i x

theorem retains_of_entry? (h : n.entry? i = m.entry? i) : m.Retains n i :=
  fun _ _ hx => hx.congr h

theorem Retains.trans (h : m.Retains n i) (h' : n.Retains k i) : m.Retains k i :=
  fun x hx hm => h' x hx (h x hx hm)

theorem retains_of_coarsened {f : Index → Entry → Entry} (hf : ∀ i (e : Entry), e.Coarsened (f i e))
    (i : Index) : m.Retains (m.mapEntries f) i := by
  rintro x ⟨hsolid, hn⟩ ⟨e, he, hx⟩
  exact ⟨f i e, by rw [entry?_mapEntries, he]; rfl, (hf i e).kept x hx hsolid hn⟩

theorem opened_iff_of_field (hs : s.isField = true) : m.Opened s i ↔ m.objectsAt i ≠ [] :=
  iff_of_eq (if_pos hs)

theorem Opened.objectsAt_ne_nil (h : m.Opened s i) (hs : s.isField = true) : m.objectsAt i ≠ [] :=
  (opened_iff_of_field hs).1 h

theorem not_opened_of_field (hs : s.isField = true) (h : m.objectsAt i = []) : ¬m.Opened s i :=
  fun hopened => hopened.objectsAt_ne_nil hs h

/-- A write that keeps the array of a location changes no other entry. -/
theorem Consistent.entry?_write_of_keeps (h : m.Consistent)
    (hown : m.holdsArray i = true → .array i ∈ e) (hj : j ≠ i) :
    Memory.entry? (m.write i e) j = m.entry? j := by
  rw [h.write_eq hown, entry?_put_register, if_neg hj]

/-- Whatever is removed with the members of a location, the rest stays as it is. -/
theorem entry?_clearMembers_cases (m : Memory) (i j : Index) :
    Memory.entry? (m.clearMembers i) j = none ∨
      Memory.entry? (m.clearMembers i) j = m.entry? j := by
  unfold clearMembers
  rw [entry?_discard]
  split
  · exact .inl rfl
  · exact .inr rfl

end Memory

namespace Draft
variable {d : Draft} {i j v : Index} {e : Entry} {s : Segment} {certain strong : Bool}
  {x : Value}

theorem holds_write (hlast : x.IsLasting) (hx : x ∈ e) (i : Index) :
    (d.write i e).memory.Holds i x :=
  ⟨d.fit e, entry?_write_self d i e, (writtenAs_fit d e).coarsened.kept x hx hlast.1 hlast.2⟩

/-- A location to whose entry something is added loses nothing, nor does any other. -/
theorem retains_write (h : d.memory.Consistent)
    (hmore : ∀ x : Value, x.IsLasting → d.memory.Holds i x → x ∈ e) (j : Index) :
    d.memory.Retains (d.write i e).memory j := by
  by_cases hj : j = i
  · subst hj
    exact fun x hlast hx => holds_write hlast (hmore x hlast hx) j
  · apply Memory.retains_of_entry?
    rw [write_memory]
    refine h.entry?_write_of_keeps (fun hown => ?_) hj
    have harray := hmore _ (Value.array_isLasting i) (Memory.holdsArray_iff.1 hown)
    exact (writtenAs_fit d e).coarsened.array_mem_iff.2 harray

/-- Where a container may be made, besides what was there, nothing is lost. -/
theorem retains_add_false (h : d.memory.Consistent) (i : Index) (x : Value) (j : Index) :
    d.memory.Retains (d.add i x false).memory j := by
  refine retains_write h (fun y hlast hy => ?_) j
  rw [if_neg Bool.false_ne_true]
  exact (Entry.mem_insert_iff_of_isSolid hlast.1).2 (.inr hy.mem_entryOrUndefined)

/-- Making the container for a segment changes no entry but those that it wipes out, if it is made
for certain, and that of the location itself otherwise. -/
theorem entry?_prepare (h : d.memory.Consistent) (hcertain : certain = true → ¬s.Wipes v j)
    (hpossible : certain = false → v ≠ j) :
    Memory.entry? (d.prepare s certain v).memory j = d.memory.entry? j := by
  have hne : j ≠ v := by
    rintro rfl
    cases certain with
    | true =>
      apply hcertain rfl
      unfold Segment.Wipes
      split
      · exact Index.contains_refl j
      · rfl
    | false => exact hpossible rfl rfl
  rcases d.prepare_cases s certain v with ⟨-, heq⟩ | ⟨hs, -, heq⟩ | ⟨-, hnone, heq⟩ <;> rw [heq]
  · -- an object is made
    let declared := d.update (·.declareObject (.madeAt v))
    have hdeclared : declared.memory.Consistent := Memory.consistent_declareObject h _
    have hentry : declared.memory.entry? j = d.memory.entry? j := Memory.entry?_declareObject ..
    refine Eq.trans ?_ hentry
    cases certain with
    | true =>
      have hout : ¬v.Contains j := by
        have hwipes := hcertain rfl
        unfold Segment.Wipes at hwipes
        rwa [if_pos hs] at hwipes
      change Memory.entry? (declared.write v _).memory j = _
      rw [write_memory]
      exact hdeclared.entry?_write hout _
    | false =>
      change Memory.entry? (declared.write v _).memory j = _
      rw [write_memory]
      refine hdeclared.entry?_write_of_keeps (fun hown => ?_) hne
      apply (writtenAs_fit declared _).coarsened.array_mem_iff.2
      rw [if_neg Bool.false_ne_true, Entry.mem_insert_iff_of_isSolid (Value.array_isSolid v)]
      exact .inr (Memory.Holds.mem_entryOrUndefined (Memory.holdsArray_iff.1 hown))
  · -- an array is made where there was none, so there is nothing below the location
    unfold add
    rw [write_memory]
    exact h.entry?_write_of_keeps (fun hown => absurd hown hnone) hne

/-- Making the container for a segment takes nothing away but what it wipes out, and nothing at
all where the container is there already. -/
theorem retains_prepare (h : d.memory.Consistent)
    (hwipes : certain = true → s.Wipes v j → v = j ∧ d.memory.Opened s v) :
    d.memory.Retains (d.prepare s certain v).memory j := by
  by_cases hopened : d.memory.Opened s v
  · rw [prepare_of_opened hopened]
    exact Memory.retains_of_entry? rfl
  · cases certain with
    | true =>
      apply Memory.retains_of_entry?
      exact entry?_prepare h (fun _ hw => hopened (hwipes rfl hw).2) nofun
    | false =>
      rcases d.prepare_cases s false v with ⟨hyes, -⟩ | ⟨-, -, heq⟩ | ⟨-, -, heq⟩
      · exact absurd hyes hopened
      · rw [heq]
        let declared := d.update (·.declareObject (.madeAt v))
        have hentry : declared.memory.entry? j = d.memory.entry? j :=
          Memory.entry?_declareObject ..
        have hdeclared : declared.memory.Consistent := Memory.consistent_declareObject h _
        exact (Memory.retains_of_entry? hentry).trans (retains_add_false hdeclared v _ j)
      · rw [heq]
        exact retains_add_false h v _ j

theorem holds_place (hlast : x.IsLasting) (hx : x ∈ e) (hnone : x.arrayOwner? = none) (v : Index)
    (hasArray strong : Bool) : (d.place v e hasArray strong).memory.Holds v x := by
  refine ⟨_, entry?_place .., (writtenAs_fit d _).coarsened.kept x ?_ hlast.1 hlast.2⟩
  exact (mem_placed_iff_of_isSolid hlast.1 ..).2 (.inr (.inr ⟨hx, hnone⟩))

/-- A strong write changes no entry outside of the location, and a weak one none but its own. -/
theorem entry?_place_of_ne (h : d.memory.Consistent) (hj : j ≠ v)
    (hout : strong = true → ¬v.Contains j) (e : Entry) (hasArray : Bool) :
    Memory.entry? (d.place v e hasArray strong).memory j = d.memory.entry? j := by
  rw [place_eq, write_memory]
  cases strong with
  | true =>
    rw [if_pos rfl]
    have hcleared : (d.memory.clearMembers v).Consistent := Memory.consistent_discard h _
    refine (hcleared.entry?_write (hout rfl) _).trans ?_
    exact Memory.entry?_clearMembers_of_not h (.inl (hout rfl))
  | false =>
    rw [if_neg Bool.false_ne_true]
    refine h.entry?_write_of_keeps (fun hown => ?_) hj
    apply (writtenAs_fit d _).coarsened.array_mem_iff.2
    refine (mem_placed_iff_of_isSolid (Value.array_isSolid v) ..).2 (.inl ⟨rfl, ?_⟩)
    exact Memory.Holds.mem_entryOrUndefined (Memory.holdsArray_iff.1 hown)

/-- An entry that a write does not reach stays as it is, or it is removed with what lies below. -/
theorem entry?_place_cases (h : d.memory.Consistent) (hj : j ≠ v) (e : Entry)
    (hasArray strong : Bool) :
    Memory.entry? (d.place v e hasArray strong).memory j = none ∨
      Memory.entry? (d.place v e hasArray strong).memory j = d.memory.entry? j := by
  cases strong with
  | true =>
    rw [place_eq, write_memory, if_pos rfl]
    change Memory.entry? ((d.memory.clearMembers v).write v _) j = none ∨
      Memory.entry? ((d.memory.clearMembers v).write v _) j = _
    rw [h.write_clearMembers_eq, Memory.entry?_put_register, if_neg hj]
    exact d.memory.entry?_clearMembers_cases v j
  | false =>
    have hweak : false = true → ¬v.Contains j := fun hf => absurd hf Bool.false_ne_true
    exact .inr (entry?_place_of_ne h hj hweak e hasArray)

/-- A strong write takes nothing away outside of the location, and a weak one nothing at all. -/
theorem retains_place (h : d.memory.Consistent) (hout : strong = true → ¬v.Contains j) (e : Entry)
    (hasArray : Bool) : d.memory.Retains (d.place v e hasArray strong).memory j := by
  by_cases hj : j = v
  · subst hj
    cases strong with
    | true => exact absurd (Index.contains_refl j) (hout rfl)
    | false =>
      intro x hlast hx
      refine ⟨_, entry?_place .., (writtenAs_fit d _).coarsened.kept x ?_ hlast.1 hlast.2⟩
      exact (mem_placed_iff_of_isSolid hlast.1 ..).2 (.inl ⟨rfl, hx.mem_entryOrUndefined⟩)
  · exact Memory.retains_of_entry? (entry?_place_of_ne h hj hout e hasArray)

end Draft
end ScriptMemory
