import ScriptMemory.Proofs.Memory.Renewal

/-! Copies of arrays without a limit. A strong copy makes its target look like the source at every
depth: nothing that was below the target shows up again, and nothing below the source is missed. -/
namespace ScriptMemory
open Std

namespace Entry
variable {e : Entry} {i x y : Index}

/-- The arrays of an entry of `i`: none but that of `i`. -/
theorem arrays_eq_of_belongs (he : e.All (Value.Belongs i)) :
    e.arrays = if e.contains (.array i) then [i] else [] := by
  have hmem (j : Index) : j ∈ e.arrays ↔ j = i ∧ .array i ∈ e := by
    rw [mem_arrays]
    constructor
    · intro hj
      obtain rfl := (he _ hj).2 j rfl
      exact ⟨rfl, hj⟩
    · rintro ⟨rfl, hj⟩
      exact hj
  split
  · next h =>
    have hnodup : e.arrays.Nodup := by
      refine List.Nodup.filterMap ?_ (OrdSet.nodup_toList e.values)
      intro v w j hv hw
      cases v <;> cases hv
      cases w <;> cases hw
      rfl
    refine List.perm_singleton.1 ((List.perm_ext_iff_of_nodup hnodup (List.nodup_singleton i)).2 ?_)
    intro j
    rw [hmem, List.mem_singleton, and_iff_left (contains_eq_true.1 h)]
  · next h =>
    refine List.eq_nil_iff_forall_not_mem.2 fun j hj => h (contains_eq_true.2 ((hmem j).1 hj).2)

/-- The entry with the array of `y` turned into that of `x`. It holds no array besides. -/
def relocate (e : Entry) (y x : Index) : Entry :=
  if e.contains (.array y) then (e.filter fun v => v.arrayOwner?.isNone).insert (.array x)
  else e.filter fun v => v.arrayOwner?.isNone

theorem relocate_undefined (y x : Index) : undefined.relocate y x = undefined := by
  have harray : ¬undefined.contains (.array y) = true := by
    rw [contains_eq_true, undefined, mem_ofValue]
    exact fun h => nomatch h
  unfold relocate
  rw [if_neg harray]
  exact isFlat_undefined.filter_eq

theorem placed_eq_relocate (old : Entry) (x y : Index) {hasArray : Bool}
    (h : hasArray = e.contains (.array y)) :
    Draft.placed old x e hasArray true = e.relocate y x := by
  subst h
  rfl

end Entry

namespace Memory
variable {m n : Memory} {x y j : Index} {s : Segment} {segments : List Segment}

theorem holdsArray_eq_contains (m : Memory) (y : Index) :
    m.holdsArray y = (m.entryOrUndefined y).contains (.array y) := by
  unfold holdsArray entryOrUndefined
  cases m.entry? y with
  | some e => rfl
  | none =>
    symm
    apply Bool.eq_false_iff.2
    exact fun h => nomatch Entry.mem_ofValue.1 (Entry.contains_eq_true.1 h)

/-- Nothing lies below a member that is not listed. -/
theorem Tidy.entryOrUndefined_of_not_mem (h : m.Tidy) (hy : ∀ id, y ≠ .object id)
    (hs : s ∉ (m.cell y).members) (segments : List Segment) :
    m.entryOrUndefined ((y.member s).descend segments) = .undefined := by
  apply entryOrUndefined_of_none
  have hbelow : (y.member s).Contains ((y.member s).descend segments) := ⟨segments, rfl⟩
  have hne : (y.member s).descend segments ≠ y := by
    intro heq
    exact Index.not_member_contains y s ⟨segments, heq⟩
  rw [← Option.not_isSome_iff_eq_none, Option.isSome_iff_exists]
  intro hentry
  have hmem := (h.mem_below_iff hy).2 ⟨(Index.contains_member y s).trans hbelow, hne, hentry⟩
  obtain ⟨t, ht, hc⟩ := h.contains_of_mem_below hmem
  exact hs (hc.segment_eq hbelow ▸ ht)

/-- What the memory `n` has at `x` and below is what `m` has at `y` and below, each array with its
new owner. -/
def Replicates (m : Memory) (y : Index) (n : Memory) (x : Index) : Prop :=
  ∀ segments, n.entryOrUndefined (x.descend segments) =
    (m.entryOrUndefined (y.descend segments)).relocate (y.descend segments) (x.descend segments)

/-- A location is replicated if what it holds is, and each listed member, and nothing else is
below. -/
theorem replicates_of_members (h : m.Tidy) (hy : ∀ id, y ≠ .object id)
    (hroot : n.entryOrUndefined x = (m.entryOrUndefined y).relocate y x)
    (hlisted : ∀ s ∈ (m.cell y).members, m.Replicates (y.member s) n (x.member s))
    (hnone : ∀ s ∉ (m.cell y).members, ∀ segments,
      n.entryOrUndefined ((x.member s).descend segments) = .undefined) : m.Replicates y n x := by
  intro segments
  cases segments with
  | nil => exact hroot
  | cons s segments =>
    by_cases hs : s ∈ (m.cell y).members
    · exact hlisted s hs segments
    · rw [Index.descend_cons, Index.descend_cons, hnone s hs,
        h.entryOrUndefined_of_not_mem hy hs, Entry.relocate_undefined]

theorem Replicates.congr {k : Memory} (h : m.Replicates y n x)
    (he : ∀ j, x.Contains j → k.entryOrUndefined j = n.entryOrUndefined j) : m.Replicates y k x :=
  fun segments => (he _ ⟨segments, rfl⟩).trans (h segments)

end Memory

namespace ArraySource
variable {m : Memory} {y : Index} {s : Segment}

/-- The array that a location holds, if any, as the source of a copy. -/
def held (m : Memory) (y : Index) : List ArraySource :=
  if m.holdsArray y then [⟨m, y⟩] else []

theorem isEmpty_held (m : Memory) (y : Index) : (!(held m y).isEmpty) = m.holdsArray y := by
  unfold held
  cases m.holdsArray y <;> rfl

/-- The sources of an entry that is stored at `y`, with as many arrays as `y` holds. -/
theorem ofEntry_of_belongs {e : Entry} (he : e.All (Value.Belongs y))
    (hholds : e.contains (.array y) = m.holdsArray y) : ofEntry m e = held m y := by
  unfold ofEntry held
  rw [Entry.arrays_eq_of_belongs he, hholds]
  split <;> rfl

theorem ofEntry_entryOrUndefined (h : m.Consistent) (y : Index) :
    ofEntry m (m.entryOrUndefined y) = held m y :=
  ofEntry_of_belongs (h.held_entryOrUndefined y) (m.holdsArray_eq_contains y).symm

theorem mem_allSegments_held (h : m.Consistent) :
    s ∈ (allSegments (held m y)).toList ↔ s ∈ (m.cell y).members := by
  rw [mem_allSegments]
  unfold held
  constructor
  · rintro ⟨a, ha, hs⟩
    split at ha
    · rwa [List.mem_singleton.1 ha] at hs
    · cases ha
  · intro hs
    rw [if_pos (h.member y s hs).1]
    exact ⟨_, List.mem_singleton.2 rfl, hs⟩

/-- The sources of the members that are copied from a single array. -/
theorem filter_held (h : m.Consistent) (hs : s ∈ (m.cell y).members)
    (test : ArraySource → Bool) :
    (held m y).filter test = if test ⟨m, y⟩ then [⟨m, y⟩] else [] := by
  unfold held
  rw [if_pos (h.member y s hs).1]
  cases ht : test ⟨m, y⟩ <;> simp [ht]

theorem memberEntry_held (h : m.Consistent) (hs : s ∈ (m.cell y).members) :
    memberEntry (held m y) s = m.entryOrUndefined (y.member s) := by
  have hc : (⟨m, y⟩ : ArraySource).segments.contains s = true := ExtTreeSet.contains_iff_mem.2 hs
  have hlength : (held m y).length = 1 := by
    unfold held
    rw [if_pos (h.member y s hs).1]
    rfl
  unfold memberEntry
  rw [filter_held h hs, if_pos hc, hlength]
  exact Entry.empty_join _

theorem memberArrays_held (h : m.Consistent) (hs : s ∈ (m.cell y).members) :
    memberArrays (held m y) s = held m (y.member s) := by
  have hc : (⟨m, y⟩ : ArraySource).segments.contains s = true := ExtTreeSet.contains_iff_mem.2 hs
  unfold memberArrays
  rw [filter_held h hs]
  dsimp only
  rw [hc, Bool.true_and]
  unfold held
  split <;> rfl

/-- The bound on the depth of a copy is no bound on what is copied. -/
theorem length_le_depth_held (h : m.Consistent) {segments : List Segment}
    (hl : m.ListsAlong y segments) : segments.length ≤ depth (held m y) := by
  unfold held
  split
  · calc segments.length
        ≤ m.cells.size := h.length_le_size hl
      _ ≤ depth [⟨m, y⟩] := Nat.le_max_right 0 _
  · next hn =>
    cases segments with
    | nil => exact Nat.zero_le _
    | cons s segments => exact absurd (h.member y s hl.1).1 hn

theorem available_of_mem_held {a : ArraySource} {n : Memory} (h : m.Tidy)
    (ho : ∀ id : ObjectId, id ∈ m.objects → id ∈ n.objects) (ha : a ∈ held m y) :
    a.Available n := by
  unfold held at ha
  split at ha
  · rw [List.mem_singleton.1 ha]
    exact ⟨h, ho⟩
  · cases ha

end ArraySource

namespace Draft
variable {d : Draft} {m : Memory} {x y i j : Index} {e : Entry} {s : Segment}

theorem fit_of_limit (h : d.limit = none) (e : Entry) : d.fit e = e := by
  unfold fit simplify?
  rw [h]
  rfl

/-- A strong write leaves nothing below its location. -/
theorem entry?_place_below (h : d.memory.Neat) (hi : d.memory.Hosts i) (hc : i.Contains j)
    (hne : j ≠ i) (e : Entry) (hasArray : Bool) :
    Memory.entry? (d.place i e hasArray true).memory j = none := by
  have hclear := renewed_clearMembers h i
  have hnone : Memory.entry? (d.memory.clearMembers i) j = none :=
    h.entry?_clearMembers hi.ne_object hc hne
  rw [place_eq, if_pos rfl, write_memory, Memory.entry?_write, if_neg hne]
  split
  · exact hnone
  · exact hclear.neat.entry?_clearMembers hi.ne_object hc hne

/-- Members are copied one after the other without getting in each other's way. -/
theorem replicates_foldl {f : Draft → Segment → Draft} {listed : List Segment} {d' : Draft}
    (hstep : ∀ d' s, s ∈ listed → d.Renewed x.Contains d' → d'.memory.Hosts (x.member s) →
      d'.Renewed (x.member s).Contains (f d' s) ∧
        m.Replicates (y.member s) (f d' s).memory (x.member s))
    (hnodup : listed.Nodup) (hd' : d.Renewed x.Contains d')
    (hhosts : ∀ s ∈ listed, d'.memory.Hosts (x.member s)) :
    (∀ s ∈ listed, m.Replicates (y.member s) (listed.foldl f d').memory (x.member s)) ∧
      ∀ j, (∀ s ∈ listed, ¬(x.member s).Contains j) →
        (listed.foldl f d').memory.entryOrUndefined j = d'.memory.entryOrUndefined j := by
  induction listed generalizing d' with
  | nil => exact ⟨fun _ hs => absurd hs List.not_mem_nil, fun _ _ => rfl⟩
  | cons s listed ih =>
    obtain ⟨hs, hnodup⟩ := List.nodup_cons.1 hnodup
    obtain ⟨hrenewed, hcopied⟩ := hstep d' s List.mem_cons_self hd' (hhosts s List.mem_cons_self)
    have hwithin : d.Renewed x.Contains (f d' s) :=
      hd'.trans (hrenewed.mono fun j hj => (Index.contains_member x s).trans hj)
    -- the container of the other members is untouched
    have hhosts' : ∀ t ∈ listed, (f d' s).memory.Hosts (x.member t) := by
      intro t ht
      apply hrenewed.hosts (hhosts t (List.mem_cons_of_mem s ht))
      rintro p u heq
      cases heq
      exact Index.not_member_contains x s
    obtain ⟨hrest, hothers⟩ := ih
      (fun d' t ht => hstep d' t (List.mem_cons_of_mem s ht)) hnodup hwithin hhosts'
    rw [List.foldl_cons]
    constructor
    · intro t ht
      rcases List.mem_cons.1 ht with rfl | ht
      · apply hcopied.congr
        intro j hj
        apply hothers
        exact fun u hu hc => hs (hc.segment_eq hj ▸ hu)
      · exact hrest t ht
    · intro j hj
      rw [hothers j fun t ht => hj t (List.mem_cons_of_mem s ht)]
      exact hrenewed.entryOrUndefined_eq (hj s List.mem_cons_self)

theorem entryOrUndefined_place_held (hlimit : d.limit = none) (m : Memory) (y x : Index) :
    (d.place x (m.entryOrUndefined y) (!(ArraySource.held m y).isEmpty)
      true).memory.entryOrUndefined
      x = (m.entryOrUndefined y).relocate y x := by
  have hentry := entry?_place d x (m.entryOrUndefined y) (!(ArraySource.held m y).isEmpty) true
  rw [fit_of_limit hlimit, Entry.placed_eq_relocate _ x y
    ((ArraySource.isEmpty_held m y).trans (m.holdsArray_eq_contains y))] at hentry
  unfold Memory.entryOrUndefined at hentry ⊢
  rw [hentry]
  rfl

/-- Where the source has members, its array has been put in place for them. -/
theorem hosts_member_place (hlimit : d.limit = none) (hm : m.Tidy) (x : Index) {s : Segment}
    (hs : s ∈ (m.cell y).members) :
    (d.place x (m.entryOrUndefined y) (!(ArraySource.held m y).isEmpty) true).memory.Hosts
      (x.member s) := by
  obtain ⟨hholds, hfield⟩ := hm.holdsArray_of_mem hs
  refine .inl ⟨hfield, ?_⟩
  rw [Memory.holdsArray_eq_contains, entryOrUndefined_place_held hlimit m y x, Entry.relocate,
    if_pos ((m.holdsArray_eq_contains y).symm.trans hholds), Entry.contains_eq_true]
  exact (Entry.mem_insert_iff_of_isSolid (Value.array_isSolid x)).2 (.inl rfl)

/-- Below a location, an array is copied by copying each of its members. -/
theorem copy_succ_held (h : m.Consistent) (depth : Nat) (d : Draft) (x : Index) (e : Entry)
    (y : Index) (strong : Bool) : copy (depth + 1) d x e (ArraySource.held m y) strong =
      (m.cell y).members.toList.foldl (fun d s => copy depth d (x.member s)
        (m.entryOrUndefined (y.member s)) (ArraySource.held m (y.member s)) strong)
      (d.place x e (m.holdsArray y) strong) := by
  have hsegments : ArraySource.allSegments (ArraySource.held m y) = (m.cell y).members := by
    apply ExtTreeSet.ext_mem
    intro s
    rw [← ExtTreeSet.mem_toList, ArraySource.mem_allSegments_held h]
  rw [copy, hsegments, ArraySource.isEmpty_held]
  apply List.foldl_ext
  intro d s hs
  rw [ExtTreeSet.mem_toList] at hs
  rw [ArraySource.memberEntry_held h hs, ArraySource.memberArrays_held h hs]

/-- By induction on the depth, each member being copied like the location itself. -/
theorem replicates_copy {depth : Nat} (hlimit : d.limit = none) (h : d.memory.Neat)
    (hx : d.memory.Hosts x) (hm : m.Tidy)
    (hobjects : ∀ id : ObjectId, id ∈ m.objects → id ∈ d.memory.objects)
    (hy : ∀ id, y ≠ .object id)
    (hdepth : ∀ segments, m.ListsAlong y segments → segments.length ≤ depth) :
    m.Replicates y
      (copy depth d x (m.entryOrUndefined y) (ArraySource.held m y) true).memory x := by
  induction depth generalizing d x y with
  | zero =>
    -- no way leads down from the source, so no member is listed
    apply Memory.replicates_of_members hm hy (entryOrUndefined_place_held hlimit m y x)
    · intro s hs
      exact absurd (hdepth [s] ⟨hs, trivial⟩) (Nat.not_succ_le_zero 0)
    · intro s _ segments
      apply Memory.entryOrUndefined_of_none
      apply entry?_place_below h hx ((Index.contains_member x s).trans ⟨segments, rfl⟩)
      exact fun heq => Index.not_member_contains x s ⟨segments, heq⟩
  | succ depth ih =>
    have hdata : (m.entryOrUndefined y).IsData := fun v hv => (hm.held_entryOrUndefined y v hv).1
    have hin : d.memory.Introduces (m.entryOrUndefined y) :=
      (hm.introduces_entryOrUndefined y).mono hobjects
    have hplaced := renewed_place h hx hdata hin (!(ArraySource.held m y).isEmpty) true
    have hroot := entryOrUndefined_place_held hlimit m y x
    let f (d : Draft) (s : Segment) : Draft := copy depth d (x.member s)
      (m.entryOrUndefined (y.member s)) (ArraySource.held m (y.member s)) true
    let listed := (m.cell y).members.toList
    have hlisted (s : Segment) : s ∈ listed ↔ s ∈ (m.cell y).members := ExtTreeSet.mem_toList
    have hstep : ∀ d' s, s ∈ listed → d.Renewed x.Contains d' → d'.memory.Hosts (x.member s) →
        d'.Renewed (x.member s).Contains (f d' s) ∧
          m.Replicates (y.member s) (f d' s).memory (x.member s) := by
      intro d' s hs hd' hhosts
      rw [hlisted] at hs
      have hobjects' (id : ObjectId) (hid : id ∈ m.objects) : id ∈ d'.memory.objects :=
        hd'.objects id (hobjects id hid)
      constructor
      · refine (renewed_copy hd'.neat hhosts ?_ ?_ ?_ true).1
        · exact fun v hv => (hm.held_entryOrUndefined _ v hv).1
        · exact (hm.introduces_entryOrUndefined _).mono hobjects'
        · exact fun a => ArraySource.available_of_mem_held hm hobjects'
      · apply ih (hd'.limit_eq.trans hlimit) hd'.neat hhosts hobjects'
        · intro id heq
          cases heq
        · intro segments hl
          exact Nat.le_of_succ_le_succ (hdepth (s :: segments) ⟨hs, hl⟩)
    have hhosts : ∀ s ∈ listed, (d.place x (m.entryOrUndefined y)
        (!(ArraySource.held m y).isEmpty) true).memory.Hosts (x.member s) :=
      fun s hs => hosts_member_place hlimit hm x ((hlisted s).1 hs)
    obtain ⟨hmembers, hothers⟩ :=
      replicates_foldl hstep (OrdSet.nodup_toList _) hplaced hhosts
    rw [copy_succ_held hm.toConsistent, ← ArraySource.isEmpty_held]
    apply Memory.replicates_of_members hm hy
    · rw [hothers x fun s _ => Index.not_member_contains x s]
      exact hroot
    · exact fun s hs => hmembers s ((hlisted s).2 hs)
    · intro s hs segments
      have hbelow : (x.member s).Contains ((x.member s).descend segments) := ⟨segments, rfl⟩
      rw [hothers _ fun t ht hc => hs ((hlisted s).1 (hc.segment_eq hbelow ▸ ht))]
      apply Memory.entryOrUndefined_of_none
      apply entry?_place_below h hx ((Index.contains_member x s).trans hbelow)
      exact fun heq => Index.not_member_contains x s ⟨segments, heq⟩

/-- A copy of what one location holds reproduces all of it. -/
theorem replicates_store (hlimit : d.limit = none) (h : d.memory.Neat) (hx : d.memory.Hosts x)
    (hm : m.Tidy) (hobjects : ∀ id : ObjectId, id ∈ m.objects → id ∈ d.memory.objects)
    (hy : ∀ id, y ≠ .object id) :
    m.Replicates y
      (d.store x (m.entryOrUndefined y) (ArraySource.held m y) true).memory x :=
  replicates_copy hlimit h hx hm hobjects hy
    fun _ => ArraySource.length_le_depth_held hm.toConsistent

end Draft
end ScriptMemory
