import ScriptMemory.Proofs.Memory.Copying
import ScriptMemory.Proofs.Memory.Sweep

/-! Values as trees. A variable is undefined, a scalar or a finite map from keys to such values, and
memory encodes the tree of a variable in the entries of the locations below it. Following known keys
from a location changes the tree there and nothing else. -/
namespace ScriptMemory
open Std

/-- What a variable or a member of an array is: undefined, a scalar or an array of such values. -/
inductive ValueTree where
  | undefined
  | scalar (s : Scalar)
  /-- A key is given at most once; the first of several would count. -/
  | array (members : List (Key × ValueTree))

namespace ValueTree
variable {t u : ValueTree} {k l : Key} {s : Segment}

/-- The members of an array; nothing else has any. -/
def members : ValueTree → List (Key × ValueTree)
  | array members => members
  | _ => []

/-- The value one segment down. Only known keys lead to members. -/
def member (t : ValueTree) : Segment → ValueTree
  | .key k => (t.members.lookup k).getD undefined
  | _ => undefined

/-- The value that some segments lead to. -/
def get (t : ValueTree) : List Segment → ValueTree
  | [] => t
  | s :: segments => (t.member s).get segments

/-- The array with one member replaced or added. What is no array gives way to a fresh one. -/
def insert (t : ValueTree) (k : Key) (u : ValueTree) : ValueTree :=
  array ((k, u) :: t.members.filter fun m => m.1 ≠ k)

/-- The array without one member. -/
def erase (t : ValueTree) (k : Key) : ValueTree :=
  match t with
  | array members => array (members.filter fun m => m.1 ≠ k)
  | other => other

/-- Replaces what is at a path. Arrays come into being on the way. -/
def set (t : ValueTree) : List Key → ValueTree → ValueTree
  | [], u => u
  | k :: keys, u => t.insert k ((t.member (.key k)).set keys u)

/-- Removes what is at a path. Nothing comes into being on the way. -/
def remove (t : ValueTree) : List Key → ValueTree
  | [] => undefined
  | [k] => t.erase k
  | k :: l :: keys =>
    if (t.members.lookup k).isSome then t.insert k ((t.member (.key k)).remove (l :: keys)) else t

/-- What a location holds whose value is this one. -/
def entryAt (t : ValueTree) (i : Index) : Entry :=
  match t with
  | undefined => .undefined
  | scalar s => .ofValue (.scalar s)
  | array _ => .ofValue (.array i)

theorem lookup_filter_ne (members : List (Key × ValueTree)) (k l : Key) :
    (members.filter fun m => m.1 ≠ k).lookup l = if l = k then none else members.lookup l := by
  induction members with
  | nil => exact (ite_self none).symm
  | cons m members ih =>
    obtain ⟨j, u⟩ := m
    by_cases hj : j = k
    · subst hj
      rw [List.filter_cons_of_neg (by simp), ih, List.lookup_cons]
      by_cases hl : l = j
      · rw [if_pos hl, if_pos hl]
      · rw [if_neg hl, if_neg hl, beq_false_of_ne hl]
    · rw [List.filter_cons_of_pos (by simpa using hj), List.lookup_cons, List.lookup_cons, ih]
      by_cases hl : l = j
      · subst hl
        rw [if_neg hj, if_neg hj, beq_self_eq_true]
      · rw [beq_false_of_ne hl]

theorem member_insert (t : ValueTree) (k : Key) (u : ValueTree) (s : Segment) :
    (t.insert k u).member s = if s = .key k then u else t.member s := by
  cases s with
  | key l =>
    change (((k, u) :: t.members.filter fun m => m.1 ≠ k).lookup l).getD undefined = _
    rw [List.lookup_cons, lookup_filter_ne]
    by_cases hl : l = k
    · rw [if_pos (congrArg Segment.key hl), hl, beq_self_eq_true]
      rfl
    · rw [if_neg fun h => hl (Segment.key.inj h), beq_false_of_ne hl, if_neg hl]
      rfl
  | _ => rw [if_neg (by simp)]; rfl

theorem member_erase (t : ValueTree) (k : Key) (s : Segment) :
    (t.erase k).member s = if s = .key k then undefined else t.member s := by
  have hmembers : (t.erase k).members = t.members.filter fun m => m.1 ≠ k := by
    cases t <;> rfl
  cases s with
  | key l =>
    unfold member
    dsimp only
    rw [hmembers, lookup_filter_ne]
    by_cases hl : l = k
    · rw [if_pos hl, if_pos (congrArg Segment.key hl)]
      rfl
    · rw [if_neg hl, if_neg fun h => hl (Segment.key.inj h)]
  | _ => rw [if_neg (by simp)]; rfl

theorem get_undefined (segments : List Segment) : undefined.get segments = undefined := by
  induction segments with
  | nil => rfl
  | cons s segments ih =>
    cases s <;> exact ih

theorem get_append (t : ValueTree) (segments rest : List Segment) :
    t.get (segments ++ rest) = (t.get segments).get rest := by
  induction segments generalizing t with
  | nil => rfl
  | cons s segments ih => exact ih (t.member s)

theorem remove_undefined (k : Key) (keys : List Key) :
    undefined.remove (k :: keys) = undefined := by
  cases keys <;> rfl

theorem entryAt_erase (t : ValueTree) (k : Key) (i : Index) :
    (t.erase k).entryAt i = t.entryAt i := by
  cases t <;> rfl

theorem entryAt_isData (t : ValueTree) (i : Index) : (t.entryAt i).IsData := by
  cases t <;> exact Entry.all_ofValue rfl

theorem array_mem_entryAt {i : Index} : .array i ∈ t.entryAt i ↔ ∃ members, t = array members := by
  cases t <;> simp [entryAt, Entry.undefined, Entry.mem_ofValue]

theorem filter_ofValue_array (y : Index) :
    (Entry.ofValue (.array y)).filter (fun v => v.arrayOwner?.isNone) = ∅ := by
  apply Entry.ext_mem
  intro v
  refine iff_of_false ?_ Entry.not_mem_empty
  rw [Entry.mem_filter, Entry.mem_ofValue]
  rintro ⟨rfl, h⟩
  cases h

theorem isFlat_entryAt (h : ∀ members, t ≠ array members) (i : Index) : (t.entryAt i).IsFlat := by
  cases t with
  | undefined => exact Entry.isFlat_undefined
  | scalar s => exact Entry.all_ofValue ⟨rfl, rfl⟩
  | array members => exact absurd rfl (h members)

theorem relocate_entryAt (t : ValueTree) (x y : Index) :
    (t.entryAt y).relocate y x = t.entryAt x := by
  by_cases ht : ∃ members, t = array members
  · obtain ⟨members, rfl⟩ := ht
    have harray : (Entry.ofValue (.array y)).contains (.array y) = true := by
      rw [Entry.contains_eq_true, Entry.mem_ofValue]
    change (Entry.ofValue (.array y)).relocate y x = _
    unfold Entry.relocate
    rw [if_pos harray, filter_ofValue_array]
    rfl
  · have hflat := isFlat_entryAt (fun members h => ht ⟨members, h⟩) y
    unfold Entry.relocate
    rw [hflat.contains_array, hflat.filter_eq]
    cases t with
    | array members => exact absurd ⟨members, rfl⟩ ht
    | undefined => rfl
    | scalar s => rfl

theorem ofEntry_entryAt {m : Memory} {y : Index} (h : m.entryOrUndefined y = t.entryAt y) :
    ArraySource.ofEntry m (t.entryAt y) = ArraySource.held m y := by
  unfold ArraySource.held
  rw [m.holdsArray_eq_contains, h]
  by_cases ht : ∃ members, t = array members
  · rw [if_pos (Entry.contains_eq_true.2 (array_mem_entryAt.2 ht))]
    obtain ⟨members, rfl⟩ := ht
    have hlist : (Entry.ofValue (.array y)).toList = [.array y] :=
      OrdSet.toList_eq_singleton fun _ => Entry.mem_ofValue
    change List.map _ ((Entry.ofValue (.array y)).toList.filterMap _) = _
    rw [hlist]
    rfl
  · have hflat := isFlat_entryAt (fun members h => ht ⟨members, h⟩) y
    rw [hflat.contains_array]
    exact Draft.ofEntry_flat m hflat

end ValueTree

/-- Some keys in a row. -/
def segmentsOf (keys : List Key) : List Segment :=
  keys.map .key

theorem descend_segmentsOf_concat (i : Index) (keys : List Key) (k : Key) :
    i.descend (segmentsOf (keys.concat k)) = (i.descend (segmentsOf keys)).member (.key k) := by
  unfold segmentsOf
  rw [List.concat_eq_append, List.map_append, Index.descend_append]
  rfl

namespace Memory
variable {m n : Memory} {i j x y : Index} {t u : ValueTree} {k : Key} {s : Segment} {r : Root}

/-- The locations below `i`, and `i` itself, hold what the tree has there. -/
def Encodes (m : Memory) (i : Index) (t : ValueTree) : Prop :=
  ∀ segments, m.entryOrUndefined (i.descend segments) =
    (t.get segments).entryAt (i.descend segments)

theorem encodes_iff : m.Encodes i t ↔
    m.entryOrUndefined i = t.entryAt i ∧ ∀ s, m.Encodes (i.member s) (t.member s) := by
  constructor
  · exact fun h => ⟨h [], fun s segments => h (s :: segments)⟩
  · rintro ⟨hroot, hmembers⟩ segments
    cases segments with
    | nil => exact hroot
    | cons s segments => exact hmembers s segments

theorem Encodes.root (h : m.Encodes i t) : m.entryOrUndefined i = t.entryAt i :=
  h []

theorem Encodes.member (h : m.Encodes i t) (s : Segment) : m.Encodes (i.member s) (t.member s) :=
  (encodes_iff.1 h).2 s

theorem Encodes.congr (h : m.Encodes i t)
    (he : ∀ j, i.Contains j → n.entryOrUndefined j = m.entryOrUndefined j) : n.Encodes i t :=
  fun segments => (he _ ⟨segments, rfl⟩).trans (h segments)

theorem Encodes.replicated (h : m.Encodes y t) (hr : m.Replicates y n x) : n.Encodes x t := by
  intro segments
  rw [hr segments, h segments, ValueTree.relocate_entryAt]

theorem encodes_undefined (h : ∀ j, i.Contains j → m.entry? j = none) :
    m.Encodes i .undefined := by
  intro segments
  rw [ValueTree.get_undefined, entryOrUndefined_of_none (h _ ⟨segments, rfl⟩)]
  rfl

/-- A value without members is encoded where nothing lies below. -/
theorem encodes_of_root (hroot : m.entryOrUndefined i = t.entryAt i) (ht : t.members = [])
    (h : ∀ j, i.Contains j → j ≠ i → m.entry? j = none) : m.Encodes i t := by
  refine encodes_iff.2 ⟨hroot, fun s => ?_⟩
  have hmember : t.member s = .undefined := by
    cases s with
    | key k =>
      change (t.members.lookup k).getD .undefined = _
      rw [ht]
      rfl
    | _ => rfl
  rw [hmember]
  apply encodes_undefined
  intro j hj
  apply h j ((Index.contains_member i s).trans hj)
  rintro rfl
  exact Index.not_member_contains j s hj

/-- Where one member of an array was changed, the array with that member replaced is encoded. -/
theorem Encodes.insert (h : m.Encodes i t) (hu : n.Encodes (i.member (.key k)) u)
    (hroot : n.entryOrUndefined i = .ofValue (.array i))
    (he : ∀ j, ¬(i.member (.key k)).Contains j → j ≠ i →
      n.entryOrUndefined j = m.entryOrUndefined j) : n.Encodes i (t.insert k u) := by
  refine encodes_iff.2 ⟨hroot, fun s => ?_⟩
  rw [ValueTree.member_insert]
  split
  · next hs =>
    subst hs
    exact hu
  · next hs =>
    apply (h.member s).congr
    intro j hj
    apply he
    · exact fun hc => hs (hj.segment_eq hc)
    · rintro rfl
      exact Index.not_member_contains j s hj

/-- Where everything below a path is removed, the value without it is encoded. -/
theorem Encodes.remove (h : m.Encodes i t) (keys : List Key)
    (hgone : ∀ j, (i.descend (segmentsOf keys)).Contains j → n.entry? j = none)
    (hkept : ∀ j, ¬(i.descend (segmentsOf keys)).Contains j → n.entry? j = m.entry? j) :
    n.Encodes i (t.remove keys) := by
  induction keys generalizing i t with
  | nil => exact encodes_undefined hgone
  | cons k keys ih =>
    have hkept' (j : Index) (hj : ¬(i.member (.key k)).Contains j) :
        n.entryOrUndefined j = m.entryOrUndefined j :=
      entryOrUndefined_congr (hkept j fun hc => hj (Index.Contains.trans ⟨segmentsOf keys, rfl⟩ hc))
    have hroot : n.entryOrUndefined i = t.entryAt i := by
      rw [hkept' i (Index.not_member_contains i _), h.root]
    have hothers (s : Segment) (hs : s ≠ .key k) : n.Encodes (i.member s) (t.member s) := by
      apply (h.member s).congr
      intro j hj
      exact hkept' j fun hc => hs (hj.segment_eq hc)
    cases keys with
    | nil =>
      change n.Encodes i (t.erase k)
      refine encodes_iff.2 ⟨hroot.trans (t.entryAt_erase k i).symm, fun s => ?_⟩
      rw [ValueTree.member_erase]
      split
      · next hs =>
        subst hs
        exact encodes_undefined hgone
      · next hs => exact hothers s hs
    | cons l keys =>
      have hmember := ih (h.member (.key k)) hgone hkept
      unfold ValueTree.remove
      split
      · next hsome =>
        have harray : t.entryAt i = .ofValue (.array i) := by
          cases t with
          | array members => rfl
          | _ => cases hsome
        exact h.insert hmember (hroot.trans harray) fun j hj _ => hkept' j hj
      · next hnone =>
        have hundefined : t.member (.key k) = .undefined := by
          change (t.members.lookup k).getD .undefined = _
          rw [Option.not_isSome_iff_eq_none.1 hnone]
          rfl
        refine encodes_iff.2 ⟨hroot, fun s => ?_⟩
        by_cases hs : s = .key k
        · subst hs
          rw [hundefined] at hmember ⊢
          rwa [ValueTree.remove_undefined] at hmember
        · exact hothers s hs

/-- A key that is absent is not read from the unknown member of its container, nor is the container
one that could hold anything. -/
theorem Encodes.readAbsent_eq (h : m.Encodes i t) (segments : List Segment) (k : Key) :
    m.readAbsent ((i.descend segments).member (.key k)) = .undefined := by
  have hcontainer := h segments
  have hunknown : m.entryOrUndefined ((i.descend segments).member .unknownKey) = .undefined := by
    have hentry := h (segments ++ [.unknownKey])
    rw [Index.descend_append, ValueTree.get_append] at hentry
    exact hentry
  have hnamed : m.isBelowOpaque ((i.descend segments).member (.key k)) = false := by
    apply Bool.eq_false_iff.2
    unfold isBelowOpaque
    dsimp only
    rw [ne_eq, Option.any_eq_true]
    rintro ⟨e, he, hc⟩
    rw [entryOrUndefined_of_some he] at hcontainer
    subst hcontainer
    rw [Bool.or_eq_true, Entry.contains_eq_true, Entry.contains_eq_true] at hc
    generalize t.get segments = u at hc
    cases u <;> simp [ValueTree.entryAt, Entry.undefined, Entry.mem_ofValue] at hc
  unfold readAbsent
  rw [hnamed]
  exact hunknown

/-- Where a tree is encoded nothing is read but what it has there. -/
theorem Encodes.readIndex_eq (h : m.Encodes (.root r) t) (keys : List Key) :
    m.readIndex ((Index.root r).descend (segmentsOf keys)) =
      (t.get (segmentsOf keys)).entryAt ((Index.root r).descend (segmentsOf keys)) := by
  have hentry := h (segmentsOf keys)
  unfold readIndex
  unfold entryOrUndefined at hentry
  cases he : m.entry? ((Index.root r).descend (segmentsOf keys)) with
  | some e =>
    rw [he] at hentry
    exact hentry
  | none =>
    rw [he] at hentry
    rw [Option.getD_none, ← hentry]
    rcases List.eq_nil_or_concat keys with rfl | ⟨front, k, rfl⟩
    · rfl
    · rw [descend_segmentsOf_concat]
      exact h.readAbsent_eq (segmentsOf front) k

theorem reach_of_none {α : Type} [Ord α] [TransOrd α] [LawfulEqOrd α] [DecidableEq α]
    {next : α → List α} {start : OrdSet α} (h : ∀ a ∈ start, next a = []) (rounds : Nat) :
    reach next rounds start = start := by
  cases rounds with
  | zero => rfl
  | succ rounds =>
    have hmore : start.insertMany (start.toList.flatMap next) = start := by
      apply ExtTreeSet.ext_mem
      intro a
      rw [OrdSet.mem_insertMany]
      refine or_iff_left ?_
      rintro hmem
      obtain ⟨b, hb, ha⟩ := List.mem_flatMap.1 hmem
      rw [h b (ExtTreeSet.mem_toList.1 hb)] at ha
      cases ha
    exact if_pos hmore

end Memory

/-- A single location, which is certain. -/
def Locations.single (i : Index) : Locations where
  must := (∅ : OrdSet Index).insert i

theorem Locations.toList_single (i : Index) : (Locations.single i).toList = [i] := by
  unfold toList single
  rw [toList_insert_empty, toList_empty]
  rfl

namespace Memory
variable {m : Memory} {i : Index} {k : Key}

/-- No location has an alias. -/
def Unaliased (m : Memory) : Prop :=
  ∀ i, m.aliases i = ∅

/-- Without aliases nothing is closed under them. -/
theorem expand_eq_self {l : Locations} (h : m.Unaliased) (hl : l.Separate) (use : AliasReach) :
    m.expand use l = l := by
  have hmust : ∀ j, (m.aliases j).must = [] := by
    intro j
    rw [h j]
    exact List.eq_nil_iff_forall_not_mem.2 fun k hk => by
      simpa using AliasSet.mem_ofStrength.1 hk
  have hall : ∀ j, (m.aliases j).toList = [] := by
    intro j
    rw [h j]
    exact List.eq_nil_iff_forall_not_mem.2 fun k hk => by
      obtain ⟨t, ht⟩ := AliasSet.mem_toList.1 hk
      simp at ht
  have hsplit (all : OrdSet Index) (ha : ∀ j, j ∈ all ∧ j ∉ l.must ↔ j ∈ l.may) :
      Locations.split l.must all l.unknown = l := by
    have hmay : all \ l.must = l.may := by
      apply ExtTreeSet.ext_mem
      intro j
      rw [ExtTreeSet.mem_diff_iff, ha]
    unfold Locations.split
    rw [hmay]
  unfold expand
  dsimp only
  rw [reach_of_none fun j _ => hmust j]
  cases use with
  | must => exact hsplit _ fun j => and_iff_left_of_imp fun hj hm => hl j hm hj
  | all =>
    dsimp only
    rw [reach_of_none fun j _ => hall j]
    apply hsplit
    intro j
    rw [ExtTreeSet.mem_union_iff]
    exact ⟨fun hj => hj.1.resolve_left hj.2, fun hj => ⟨.inr hj, fun hm => hl j hm hj⟩⟩

theorem expand_single (h : m.Unaliased) (use : AliasReach) (i : Index) :
    m.expand use (.single i) = .single i :=
  expand_eq_self h (fun _ _ hj => ExtTreeSet.not_mem_empty hj) use

/-- A segment that leads into one container leads to its member. -/
theorem step_single_of {c : Index} {s : Segment} (hc : m.containersOf i s = [c])
    (hs : s.isUnknown = false) : m.step (.single i) s = .single (c.member s) := by
  have hmust : (Locations.single i).must.toList = [i] := Locations.toList_insert_empty i
  have hnamed : m.memberNamed? i s = some (c.member s) := by
    unfold memberNamed?
    rw [hc]
    exact if_neg (by rw [hs]; exact Bool.false_ne_true)
  have hmembers : m.membersNamed i s = [c.member s] := by
    unfold membersNamed
    rw [hc, hs]
    rfl
  have hone : (ExtTreeSet.ofList [c.member s] : OrdSet Index) =
      (∅ : OrdSet Index).insert (c.member s) := by
    apply ExtTreeSet.ext_mem
    intro j
    rw [OrdSet.mem_ofList, List.mem_singleton, mem_insert_empty]
  have hnone : (ExtTreeSet.ofList [c.member s] : OrdSet Index) \
      (ExtTreeSet.ofList [c.member s] : OrdSet Index) = ∅ := by
    apply ExtTreeSet.ext_mem
    intro j
    refine iff_of_false ?_ ExtTreeSet.not_mem_empty
    rw [ExtTreeSet.mem_diff_iff]
    exact fun hj => hj.2 hj.1
  unfold step
  simp only [hmust, Locations.toList_single, List.filterMap_cons, List.filterMap_nil, hnamed,
    List.flatMap_cons, List.flatMap_nil, hmembers, List.append_nil, hs]
  change Locations.split (.ofList [c.member s]) (.ofList [c.member s]) false = _
  unfold Locations.split
  rw [hnone, hone]
  rfl

theorem step_single (m : Memory) (i : Index) (k : Key) :
    m.step (.single i) (.key k) = .single (i.member (.key k)) :=
  step_single_of rfl rfl

theorem readLocations_single (m : Memory) (i : Index) :
    m.readLocations (.single i) = m.readIndex i := by
  have hne : ¬(Locations.single i).isEmpty = true := by
    unfold Locations.isEmpty
    rw [Bool.and_eq_true, ExtTreeSet.isEmpty_iff]
    rintro ⟨hmust, -⟩
    have hmem : i ∈ (Locations.single i).must := mem_insert_empty.2 rfl
    rw [hmust] at hmem
    exact ExtTreeSet.not_mem_empty hmem
  unfold readLocations
  rw [if_neg hne, if_neg (by exact Bool.false_ne_true), Locations.toList_single]
  change Entry.join ∅ (m.readIndex i) = _
  rw [Entry.empty_join]

end Memory

namespace Draft
variable {d d' : Draft} {i x : Index} {t u : ValueTree} {k : Key} {keys : List Key} {e : Entry}

/-- Preparing a location for a key makes it hold its own array, and changes no other entry. -/
theorem entry?_prepare_key (hlimit : d.limit = none) (ht : d.memory.Encodes i t) (k : Key) :
    (d.prepare (.key k) true i).memory.entryOrUndefined i = .ofValue (.array i) ∧
      ∀ j, j ≠ i → Memory.entry? (d.prepare (.key k) true i).memory j = d.memory.entry? j := by
  have hprepare : d.prepare (.key k) true i =
      if d.memory.holdsArray i then d else d.write i (.ofValue (.array i)) := rfl
  rw [hprepare]
  split
  · next hholds =>
    rw [Memory.holdsArray_eq_contains, ht.root, Entry.contains_eq_true,
      ValueTree.array_mem_entryAt] at hholds
    obtain ⟨members, rfl⟩ := hholds
    exact ⟨ht.root, fun _ _ => rfl⟩
  · have harray : (Entry.ofValue (.array i)).contains (.array i) = true := by
      rw [Entry.contains_eq_true, Entry.mem_ofValue]
    rw [write_memory, fit_of_limit hlimit]
    constructor
    · exact Memory.entryOrUndefined_of_some ((Memory.entry?_write ..).trans (if_pos rfl))
    · intro j hj
      rw [Memory.entry?_write, if_neg hj, if_pos harray]

theorem advance_single_of (hu : d.memory.Unaliased) (i : Index) (s : Segment) :
    advance s (d, .single i) =
      (d.prepare s true i, (d.prepare s true i).memory.step (.single i) s) := by
  unfold advance
  dsimp only
  rw [Memory.expand_single hu]
  have hmust : (Locations.single i).must.toList = [i] := Locations.toList_insert_empty i
  have hmay : (Locations.single i).may.toList = [] := Locations.toList_empty
  rw [hmust, hmay]
  rfl

theorem advance_single (hu : d.memory.Unaliased) (i : Index) (k : Key) :
    advance (.key k) (d, .single i) =
      (d.prepare (.key k) true i, .single (i.member (.key k))) := by
  rw [advance_single_of hu, Memory.step_single]

theorem storeAll_single (d : Draft) (i : Index) (e : Entry) (arrays : List ArraySource)
    (force : Bool) : d.storeAll (.single i) e arrays force = d.store i e arrays true := by
  have hmust : (Locations.single i).must.toList = [i] := Locations.toList_insert_empty i
  have hmay : (Locations.single i).may.toList = [] := Locations.toList_empty
  have hstrong : (force || !(Locations.single i).unknown) = true := Bool.or_true force
  unfold storeAll
  rw [hmust, hmay, hstrong]
  rfl

/-- Following keys for writing leads to one location. Whatever is put there makes the value at the
start have it at these keys. -/
theorem encodes_follow (hlimit : d.limit = none) (h : d.memory.Neat) (hu : d.memory.Unaliased)
    (hi : d.memory.Hosts i) (ht : d.memory.Encodes i t) (keys : List Key) :
    ∃ d', (segmentsOf keys).foldl (fun dl s => advance s dl) (d, .single i) =
        (d', .single (i.descend (segmentsOf keys))) ∧
      d.Renewed i.Contains d' ∧ d'.memory.Hosts (i.descend (segmentsOf keys)) ∧
      ∀ d'' u, d'.Renewed (i.descend (segmentsOf keys)).Contains d'' →
        d''.memory.Encodes (i.descend (segmentsOf keys)) u →
          d''.memory.Encodes i (t.set keys u) := by
  induction keys generalizing d i t with
  | nil => exact ⟨d, rfl, .refl h _, hi, fun d'' u _ hu => hu⟩
  | cons k keys ih =>
    have hprepared := renewed_prepare h hi (.key k) true
    have hopened := opened_prepare d (.key k) true i
    obtain ⟨hroot, hothers⟩ := entry?_prepare_key hlimit ht k
    have hsame (j : Index) (hj : j ≠ i) :
        (d.prepare (.key k) true i).memory.entryOrUndefined j = d.memory.entryOrUndefined j :=
      Memory.entryOrUndefined_congr (hothers j hj)
    have hunaliased : (d.prepare (.key k) true i).memory.Unaliased :=
      fun j => (hprepared.aliases_eq j).trans (hu j)
    have hmember : (d.prepare (.key k) true i).memory.Encodes (i.member (.key k))
        (t.member (.key k)) := by
      apply (ht.member (.key k)).congr
      intro j hj
      apply hsame
      rintro rfl
      exact Index.not_member_contains j _ hj
    have hcontainer : (d.prepare (.key k) true i).memory.Hosts (i.member (.key k)) :=
      .inl ⟨rfl, hopened⟩
    obtain ⟨d', hfold, hrenewed, hhosts, hset⟩ := ih (hprepared.limit_eq.trans hlimit)
      hprepared.neat hunaliased hcontainer hmember
    refine ⟨d', ?_, ?_, hhosts, ?_⟩
    · change List.foldl _ (advance (.key k) (d, .single i)) (segmentsOf keys) = _
      rw [advance_single hu]
      exact hfold
    · exact hprepared.trans (hrenewed.mono fun j hj => (Index.contains_member i _).trans hj)
    · intro d'' u hd'' hu'
      -- between preparing `i` and now only what the member contains has changed
      have hwithin : (d.prepare (.key k) true i).Renewed (i.member (.key k)).Contains d'' := by
        refine hrenewed.trans (hd''.mono fun j hj => ?_)
        exact Index.Contains.trans ⟨segmentsOf keys, rfl⟩ hj
      apply ht.insert (hset d'' u hd'' hu')
      · rw [hwithin.entryOrUndefined_eq (Index.not_member_contains i _), hroot]
      · intro j hj hne
        rw [hwithin.entryOrUndefined_eq hj, hsame j hne]

/-- A strong write of a value without members leaves it and nothing else. -/
theorem encodes_place (hlimit : d.limit = none) (h : d.memory.Neat) (hx : d.memory.Hosts x)
    (ht : t.members = []) {hasArray : Bool}
    (hentry : placed (d.memory.entryOrUndefined x) x e hasArray true = t.entryAt x) :
    (d.place x e hasArray true).memory.Encodes x t := by
  refine Memory.encodes_of_root ?_ ht fun j hj hne => entry?_place_below h hx hj hne e hasArray
  apply Memory.entryOrUndefined_of_some
  rw [entry?_place, fit_of_limit hlimit, hentry]

end Draft
end ScriptMemory
