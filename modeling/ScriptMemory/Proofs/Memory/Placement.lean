import ScriptMemory.Proofs.Memory.Copying

/-! Writing to one location of consistent memory without a limit. A weak write adds to the location
and removes nothing; a strong one removes everything below the location first. So a copy that is
made weakly and one that is made strongly write at the same locations. -/
namespace ScriptMemory
open Std

namespace Memory
variable {m n : Memory} {i j : Index} {e : Entry} {gone : Index → Bool}

/-- A location without an array of its own lists no members. -/
theorem Consistent.members_eq_empty (h : m.Consistent) (hi : ¬m.holdsArray i = true) :
    (m.cell i).members = ∅ := by
  apply ExtTreeSet.ext_mem
  intro s
  exact iff_of_false (fun hs => hi (h.member i s hs).1) ExtTreeSet.not_mem_empty

/-- A write removes nothing from a location that does not lose its array. -/
theorem Consistent.write_eq (h : m.Consistent)
    (hown : m.holdsArray i = true → .array i ∈ e) : m.write i e = (m.register i).put i e := by
  unfold write
  split
  · rfl
  · next hc =>
    have hnone : ¬m.holdsArray i = true := fun hi => hc (Entry.contains_eq_true.2 (hown hi))
    rw [clearMembers_eq_self (h.members_eq_empty hnone)]

/-- Once everything below a location is removed a write removes no more. -/
theorem Consistent.write_clearMembers_eq (h : m.Consistent) (i : Index) (e : Entry) :
    (m.clearMembers i).write i e = ((m.clearMembers i).register i).put i e := by
  unfold write
  rw [clearMembers_eq_self (h.members_clearMembers i), ite_self]

theorem entry?_put_register (m : Memory) (i j : Index) (e : Entry) :
    Memory.entry? ((m.register i).put i e) j = if j = i then some e else m.entry? j := by
  rw [entry?_put, entry?_register]

end Memory

namespace Draft
variable {d : Draft} {i j : Index} {e : Entry}

/-- A draft of consistent memory that no limit bounds. -/
structure Free (d : Draft) : Prop where
  limit_eq : d.limit = none
  consistent : d.memory.Consistent

/-- What a strong write puts at a location, and a weak one adds there. -/
def incoming (i : Index) (e : Entry) (hasArray : Bool) : Entry :=
  placed ∅ i e hasArray true

theorem incoming_flat (he : e.IsFlat) (i : Index) : incoming i e false = e :=
  he.filter_eq

/-- What a location lists stays listed when more is added to what it holds. -/
theorem Free.place_weak (h : d.Free) (i : Index) (e : Entry) (hasArray : Bool) :
    (d.place i e hasArray false).memory =
      (d.memory.register i).put i ((d.memory.entryOrUndefined i).join (incoming i e hasArray)) := by
  rw [place_eq, if_neg Bool.false_ne_true, write_memory, fit_of_limit h.limit_eq]
  -- an array of the location itself stays in the join, so its members stay listed
  apply h.consistent.write_eq
  rw [Memory.holdsArray_eq_contains, Entry.contains_eq_true]
  exact fun hown => (Entry.mem_join_iff_of_isSolid (Value.array_isSolid i)).2 (.inl hown)

theorem Free.place_strong (h : d.Free) (i : Index) (e : Entry) (hasArray : Bool) :
    (d.place i e hasArray true).memory =
      ((d.memory.clearMembers i).register i).put i (incoming i e hasArray) := by
  have hlimit : (d.update (·.clearMembers i)).limit = none := h.limit_eq
  rw [place_eq, if_pos rfl, write_memory, fit_of_limit hlimit]
  exact h.consistent.write_clearMembers_eq i _

theorem Free.place (h : d.Free) (he : e.IsData) (i : Index) (hasArray strong : Bool) :
    (d.place i e hasArray strong).Free where
  limit_eq := by
    rw [place_eq, limit_write]
    cases strong <;> exact h.limit_eq
  consistent :=
    survives_place Memory.consistent_durable.toSurvives h.consistent trivial he hasArray strong

end Draft

/-- What becomes of a location of `m` and of one of `m'` when the same values are written to the one
memory weakly and to the other one strongly. Either both writes reach it, or the weak one leaves it
alone and the strong one at most removes it. -/
inductive Memory.Outcome (m m' n n' : Memory) (j : Index) : Prop where
  | written (t : Entry) (weak : n.entry? j = some ((m.entryOrUndefined j).join t))
    (strong : n'.entry? j = some t)
  | kept (weak : n.entry? j = m.entry? j) (strong : n'.entry? j = m'.entry? j)
  | removed (weak : n.entry? j = m.entry? j) (strong : n'.entry? j = none)

namespace Memory.Outcome
variable {m m' n n' k k' : Memory} {j : Index}

/-- Nothing is written after that. -/
theorem trans_kept (h : Outcome m m' n n' j) (hweak : k.entry? j = n.entry? j)
    (hstrong : k'.entry? j = n'.entry? j) : Outcome m m' k k' j := by
  cases h with
  | written t hw hs => exact .written t (hweak.trans hw) (hstrong.trans hs)
  | kept hw hs => exact .kept (hweak.trans hw) (hstrong.trans hs)
  | removed hw hs => exact .removed (hweak.trans hw) (hstrong.trans hs)

/-- Nothing was written before that, though the strong write may have removed the location. -/
theorem of_unwritten (hweak : n.entry? j = m.entry? j)
    (hstrong : n'.entry? j = m'.entry? j ∨ n'.entry? j = none) (h : Outcome n n' k k' j) :
    Outcome m m' k k' j := by
  cases h with
  | written t hw hs =>
    refine .written t ?_ hs
    unfold entryOrUndefined at hw ⊢
    rwa [hweak] at hw
  | kept hw hs =>
    rcases hstrong with hstrong | hstrong
    · exact .kept (hw.trans hweak) (hs.trans hstrong)
    · exact .removed (hw.trans hweak) (hs.trans hstrong)
  | removed hw hs => exact .removed (hw.trans hweak) hs

end Memory.Outcome

namespace Draft
variable {d d' w s : Draft} {R : Index → Prop} {i j : Index} {e : Entry}
  {arrays : List ArraySource}

/-- `w` and `s` are the free drafts `d` and `d'` after the same values have been written within `R`,
weakly to the one and strongly to the other. -/
structure Parted (d d' : Draft) (R : Index → Prop) (w s : Draft) : Prop where
  weak : w.Free
  strong : s.Free
  outcome : ∀ j, d.memory.Outcome d'.memory w.memory s.memory j
  outside : ∀ j, ¬R j → w.memory.entry? j = d.memory.entry? j ∧
    s.memory.entry? j = d'.memory.entry? j

theorem parted_place (hd : d.Free) (hd' : d'.Free) (he : e.IsData) (i : Index) (hasArray : Bool) :
    Parted d d' i.Contains (d.place i e hasArray false) (d'.place i e hasArray true) ∧
      ∀ j, j ≠ i → (d.place i e hasArray false).memory.entry? j = d.memory.entry? j ∧
        ((d'.place i e hasArray true).memory.entry? j = d'.memory.entry? j ∨
          (d'.place i e hasArray true).memory.entry? j = none) := by
  have hweak (j : Index) : (d.place i e hasArray false).memory.entry? j =
      if j = i then some ((d.memory.entryOrUndefined i).join (incoming i e hasArray))
      else d.memory.entry? j := by
    rw [hd.place_weak, Memory.entry?_put_register]
  have hstrong (j : Index) : (d'.place i e hasArray true).memory.entry? j =
      if j = i then some (incoming i e hasArray)
      else Memory.entry? (d'.memory.clearMembers i) j := by
    rw [hd'.place_strong, Memory.entry?_put_register]
  have hother (j : Index) (hj : j ≠ i) :
      (d.place i e hasArray false).memory.entry? j = d.memory.entry? j ∧
        ((d'.place i e hasArray true).memory.entry? j = d'.memory.entry? j ∨
          (d'.place i e hasArray true).memory.entry? j = none) := by
    rw [hweak, hstrong, if_neg hj, if_neg hj]
    unfold Memory.clearMembers
    rw [Memory.entry?_discard]
    split
    · exact ⟨rfl, .inr rfl⟩
    · exact ⟨rfl, .inl rfl⟩
  refine ⟨⟨hd.place he i _ _, hd'.place he i _ _, ?_, ?_⟩, hother⟩
  · intro j
    by_cases hj : j = i
    · subst hj
      exact .written _ ((hweak j).trans (if_pos rfl)) ((hstrong j).trans (if_pos rfl))
    · obtain ⟨hw, hs | hs⟩ := hother j hj
      · exact .kept hw hs
      · exact .removed hw hs
  · intro j hj
    have hne : j ≠ i := by
      rintro rfl
      exact hj (Index.contains_refl j)
    refine ⟨(hother j hne).1, ?_⟩
    rw [hstrong, if_neg hne, Memory.entry?_clearMembers_of_not hd'.consistent (.inl hj)]

/-- The members of a location are written one after the other; none is in another one's way. -/
theorem parted_foldl {f g : Draft → Segment → Draft} {x : Index} {listed : List Segment}
    (hstep : ∀ d d' s, d.Free → d'.Free → Parted d d' (x.member s).Contains (f d s) (g d' s))
    (hnodup : listed.Nodup) (hd : d.Free) (hd' : d'.Free) :
    Parted d d' (fun j => ∃ s ∈ listed, (x.member s).Contains j) (listed.foldl f d)
      (listed.foldl g d') := by
  induction listed generalizing d d' with
  | nil => exact ⟨hd, hd', fun _ => .kept rfl rfl, fun _ _ => ⟨rfl, rfl⟩⟩
  | cons s listed ih =>
    obtain ⟨hs, hnodup⟩ := List.nodup_cons.1 hnodup
    have hfirst := hstep d d' s hd hd'
    have hrest := ih hnodup hfirst.weak hfirst.strong
    refine ⟨hrest.weak, hrest.strong, ?_, ?_⟩
    · intro j
      -- a location lies below one of the members at most
      by_cases hj : (x.member s).Contains j
      · have hnone : ¬∃ t ∈ listed, (x.member t).Contains j := by
          rintro ⟨t, ht, hc⟩
          exact hs (hj.segment_eq hc ▸ ht)
        obtain ⟨hw, hs⟩ := hrest.outside j hnone
        exact (hfirst.outcome j).trans_kept hw hs
      · obtain ⟨hw, hs⟩ := hfirst.outside j hj
        exact .of_unwritten hw (.inl hs) (hrest.outcome j)
    · intro j hj
      obtain ⟨hw, hs⟩ := hfirst.outside j fun hc => hj ⟨s, List.mem_cons_self, hc⟩
      obtain ⟨hw', hs'⟩ := hrest.outside j fun ⟨t, ht, hc⟩ =>
        hj ⟨t, List.mem_cons_of_mem s ht, hc⟩
      exact ⟨hw'.trans hw, hs'.trans hs⟩

/-- By induction on the depth: the location is written first, then its members. -/
theorem parted_copy {depth : Nat} (hd : d.Free) (hd' : d'.Free) (he : e.IsData)
    (ha : ∀ a ∈ arrays, a.IsData) : Parted d d' i.Contains (copy depth d i e arrays false)
      (copy depth d' i e arrays true) := by
  induction depth generalizing d d' i e arrays with
  | zero => exact (parted_place hd hd' he i _).1
  | succ depth ih =>
    obtain ⟨hplaced, hother⟩ := parted_place hd hd' he i (!arrays.isEmpty)
    let f (strong : Bool) (d : Draft) (s : Segment) : Draft := copy depth d (i.member s)
      (ArraySource.memberEntry arrays s) (ArraySource.memberArrays arrays s) strong
    have hstep (d d' : Draft) (s : Segment) (hd : d.Free) (hd' : d'.Free) :
        Parted d d' (i.member s).Contains (f false d s) (f true d' s) :=
      ih hd hd' (ArraySource.isData_memberEntry ha s)
        fun a => ArraySource.isData_of_mem_memberArrays ha
    have hmembers := parted_foldl hstep (OrdSet.nodup_toList (ArraySource.allSegments arrays))
      hplaced.weak hplaced.strong
    refine ⟨hmembers.weak, hmembers.strong, ?_, ?_⟩
    · intro j
      by_cases hj : j = i
      · -- the location itself lies below none of its members
        subst hj
        obtain ⟨hw, hs⟩ := hmembers.outside j fun ⟨s, _, hc⟩ => Index.not_member_contains j s hc
        exact (hplaced.outcome j).trans_kept hw hs
      · exact .of_unwritten (hother j hj).1 (hother j hj).2 (hmembers.outcome j)
    · intro j hj
      obtain ⟨hw, hs⟩ := hplaced.outside j hj
      obtain ⟨hw', hs'⟩ := hmembers.outside j fun ⟨s, _, hc⟩ =>
        hj ((Index.contains_member i s).trans hc)
      exact ⟨hw'.trans hw, hs'.trans hs⟩

theorem parted_store (hd : d.Free) (hd' : d'.Free) (he : e.IsData)
    (ha : ∀ a ∈ arrays, a.IsData) (i : Index) : Parted d d' i.Contains (d.store i e arrays false)
      (d'.store i e arrays true) :=
  parted_copy hd hd' he ha

end Draft
end ScriptMemory
