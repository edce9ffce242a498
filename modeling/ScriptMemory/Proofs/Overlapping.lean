import ScriptMemory.Proofs.ArrayTrees
import ScriptMemory.Proofs.LocalMerging
import ScriptMemory.Proofs.Memory.Growth
import ScriptMemory.Proofs.Memory.Paving

/-! Assigning an array where source and target may overlap. The array is copied as it is once the
containers on the way to the target are there: what comes into being inside of the source on that
way is copied too, and what had to give way is not. -/
namespace ScriptMemory
open Std

namespace Index
variable {i j x y : Index}

/-- The location with `x` in place of `y`, if it is `y` or below. -/
def rebase (y x j : Index) : Index :=
  if j = y then x
  else match j with
    | root r => root r
    | member parent s => (rebase y x parent).member s

theorem rebase_self (y x : Index) : rebase y x y = x := by
  cases y <;> exact if_pos rfl

theorem rebase_member {s : Segment} (h : j.member s ≠ y) :
    rebase y x (j.member s) = (rebase y x j).member s :=
  if_neg h

theorem rebase_descend (y x : Index) (segments : List Segment) :
    rebase y x (y.descend segments) = x.descend segments := by
  induction segments using List.reverseRecOn with
  | nil => exact rebase_self y x
  | append_singleton segments s ih =>
    have hne : (y.descend segments).member s ≠ y := by
      intro heq
      apply not_member_contains (y.descend segments) s
      rw [heq]
      exact ⟨segments, rfl⟩
    rw [descend_append, descend_append, descend_cons, descend_cons]
    exact (rebase_member hne).trans (congrArg (·.member s) ih)

/-- A root contains whatever hangs below it. -/
theorem base_contains (j : Index) : (root j.base).Contains j := by
  induction j with
  | root r => exact contains_refl _
  | member p s ih => exact ih.trans (contains_member p s)

end Index

namespace Value
variable {v w : Value} {x y : Index}

/-- The value with the owner of an array renamed. -/
def rebase (y x : Index) : Value → Value
  | array j => array (Index.rebase y x j)
  | v => v

theorem absorbs_rebase (y x : Index) (v w : Value) :
    (v.rebase y x).absorbs (w.rebase y x) = v.absorbs w := by
  cases v <;> cases w <;> rfl

theorem rebase_eq_iff (hv : v.arrayOwner? = none) : w.rebase y x = v ↔ w = v := by
  cases w with
  | array j =>
    refine iff_of_false ?_ ?_ <;>
    · rintro rfl
      cases hv
  | _ => exact Iff.rfl

end Value

namespace Entry
variable {e : Entry} {v : Value} {x y : Index} {segments : List Segment}

/-- The entry with the owners of arrays renamed. -/
def rebase (y x : Index) (e : Entry) : Entry :=
  ofList (e.toList.map (Value.rebase y x))

theorem mem_rebase : v ∈ e.rebase y x ↔ ∃ w ∈ e, w.rebase y x = v := by
  unfold rebase ofList
  rw [mem_foldl_insert_of_irredundant, or_iff_left not_mem_empty]
  · simp only [List.mem_map, mem_toList]
  · intro v w hv hw
    obtain ⟨v', hv', rfl⟩ := List.mem_map.1 (hv.resolve_right not_mem_empty)
    obtain ⟨w', hw', rfl⟩ := List.mem_map.1 (hw.resolve_right not_mem_empty)
    rw [Value.absorbs_rebase]
    exact absorbs_eq_false_of_mem (mem_toList.1 hv') (mem_toList.1 hw')

theorem mem_rebase_of_no_array (hv : v.arrayOwner? = none) : v ∈ e.rebase y x ↔ v ∈ e := by
  rw [mem_rebase]
  constructor
  · rintro ⟨w, hw, heq⟩
    rwa [← (Value.rebase_eq_iff hv).1 heq]
  · exact fun h => ⟨v, h, (Value.rebase_eq_iff hv).2 rfl⟩

theorem contains_rebase (hv : v.arrayOwner? = none) :
    (e.rebase y x).contains v = e.contains v := by
  rw [Bool.eq_iff_iff, contains_eq_true, contains_eq_true, mem_rebase_of_no_array hv]

theorem rebase_undefined (y x : Index) : undefined.rebase y x = undefined := by
  apply ext_mem
  intro v
  rw [mem_rebase]
  unfold undefined
  simp only [mem_ofValue, exists_eq_left]
  exact eq_comm

/-- Anything at all may be added before the owners are renamed or after. -/
theorem rebase_insert_any (y x : Index) (e : Entry) :
    (e.insert .any).rebase y x = (e.rebase y x).insert .any := by
  have habsorbs (e : Entry) : e.absorbs .any = false := not_absorbs_of_isSolid Value.any_isSolid
  apply ext_mem
  intro v
  rw [mem_rebase, mem_insert_of_not_absorbs (habsorbs _), mem_rebase]
  simp only [mem_insert_of_not_absorbs (habsorbs _)]
  constructor
  · rintro ⟨w, rfl | ⟨hw, ha⟩, rfl⟩
    · exact .inl rfl
    · exact .inr ⟨⟨w, hw, rfl⟩, (Value.absorbs_rebase y x .any w).trans ha⟩
  · rintro (rfl | ⟨⟨w, hw, rfl⟩, ha⟩)
    · exact ⟨.any, .inl rfl, rfl⟩
    · exact ⟨w, .inr ⟨hw, (Value.absorbs_rebase y x .any w).symm.trans ha⟩, rfl⟩

/-- Giving an array to another location renames its owner. -/
theorem relocate_eq_rebase (he : e.All (Value.Belongs (y.descend segments))) :
    e.relocate (y.descend segments) (x.descend segments) = e.rebase y x := by
  have hothers (v : Value) : v ∈ e.filter (fun v => v.arrayOwner?.isNone) ↔
      v ∈ e ∧ v.arrayOwner? = none := by
    rw [mem_filter, Option.isNone_iff_eq_none]
  have harray : .array (x.descend segments) = (Value.array (y.descend segments)).rebase y x :=
    congrArg Value.array (Index.rebase_descend y x segments).symm
  apply ext_mem
  intro v
  rw [mem_rebase]
  unfold relocate
  constructor
  · intro hv
    split at hv
    · next hown =>
      rcases eq_or_mem_of_mem_insert hv with rfl | hv
      · exact ⟨_, contains_eq_true.1 hown, harray.symm⟩
      · exact ⟨v, ((hothers v).1 hv).1, (Value.rebase_eq_iff ((hothers v).1 hv).2).2 rfl⟩
    · exact ⟨v, ((hothers v).1 hv).1, (Value.rebase_eq_iff ((hothers v).1 hv).2).2 rfl⟩
  · rintro ⟨w, hw, rfl⟩
    cases hwo : w.arrayOwner? with
    | some k =>
      obtain rfl : w = .array k := by
        cases w <;> cases hwo
        rfl
      obtain rfl := (he _ hw).2 k rfl
      rw [if_pos (contains_eq_true.2 hw), ← harray]
      exact (mem_insert_iff_of_isSolid (Value.array_isSolid _)).2 (.inl rfl)
    | none =>
      rw [(Value.rebase_eq_iff hwo).2 rfl]
      have hmem := (hothers w).2 ⟨hw, hwo⟩
      split
      · refine mem_insert_of_mem hmem ?_
        cases w <;> rfl
      · exact hmem

end Entry

namespace KeyPath
variable {p : KeyPath} {keys : List Key}

/-- The location that the path names in the frame at a level. -/
def locate (p : KeyPath) (level : Nat) : Index :=
  (p.path.indexAt level).descend (segmentsOf p.keys)

/-- The path with some more keys. -/
def append (p : KeyPath) (keys : List Key) : KeyPath :=
  { p with keys := p.keys ++ keys }

theorem locate_append (p : KeyPath) (keys : List Key) (level : Nat) :
    (p.append keys).locate level = (p.locate level).descend (segmentsOf keys) := by
  have hkeys : segmentsOf (p.append keys).keys = segmentsOf p.keys ++ segmentsOf keys :=
    List.map_append
  unfold locate
  rw [hkeys, Index.descend_append]
  rfl

theorem locate_ne_object (p : KeyPath) (level : Nat) (id : ObjectId) :
    p.locate level ≠ .object id := by
  intro heq
  have hbase := (Index.base_descend (p.path.indexAt level) (segmentsOf p.keys)).symm.trans
    (congrArg Index.base heq)
  cases hbase

end KeyPath

namespace Memory
variable {m n : Memory} {x y : Index} {s : Segment} {segments : List Segment}

/-- Reading a path of keys is reading the one location that it names. -/
theorem read_keyPath (h : m.Unaliased) (p : KeyPath) :
    m.read p.path = m.readIndex (p.locate m.level) := by
  have hfollow : m.follow .must p.path m.level = .single (p.locate m.level) := by
    unfold follow
    rw [ofVariable_eq]
    exact follow_single h .must _ p.keys
  unfold read readAt resolve
  rw [hfollow, expand_single h, readLocations_single]

/-- A key that is absent is read from the unknown member of its container, and is anything besides
if the container may be anything. -/
theorem readAbsent_key (m : Memory) (i : Index) (k : Key) : m.readAbsent (i.member (.key k)) =
    let fallback := m.entryOrUndefined (i.member .unknownKey)
    if (m.entry? i).any fun e => e.contains .any || e.contains (.anyOf .array) then
      fallback.insert .any
    else fallback :=
  rfl

theorem ListedBelow.entry?_clearMembers (h : m.ListedBelow x) (hm : m.Consistent)
    {j : Index} (hj : (x.member s).Contains j) : Memory.entry? (m.clearMembers x) j = none := by
  refine (entry?_clearMembers_cases m x j).elim id fun heq => ?_
  unfold clearMembers at heq ⊢
  rw [entry?_discard] at heq ⊢
  rw [ite_eq_left_iff]
  intro hkept
  obtain ⟨segments, rfl⟩ := hj
  rw [Option.eq_none_iff_forall_ne_some]
  intro e he
  apply hkept
  exact mem_contains_ofList.2 (hm.mem_below.2 ⟨s, segments, h (s :: segments) e he, rfl⟩)

/-- At `x` and below, `n` has the entries that `m` has at `y` and below, with new owners. -/
def CarriedOver (m : Memory) (y : Index) (n : Memory) (x : Index) : Prop :=
  ∀ segments, n.entry? (x.descend segments) =
    (m.entry? (y.descend segments)).map (Entry.rebase y x)

namespace CarriedOver

theorem entryOrUndefined_eq (h : m.CarriedOver y n x) (segments : List Segment) :
    n.entryOrUndefined (x.descend segments) =
      (m.entryOrUndefined (y.descend segments)).rebase y x := by
  unfold entryOrUndefined
  rw [h segments]
  cases m.entry? (y.descend segments) with
  | some e => rfl
  | none => exact (Entry.rebase_undefined y x).symm

theorem readAbsent_eq (h : m.CarriedOver y n x) (segments : List Segment) (k : Key) :
    n.readAbsent ((x.descend segments).member (.key k)) =
      (m.readAbsent ((y.descend segments).member (.key k))).rebase y x := by
  have hfallback : n.entryOrUndefined ((x.descend segments).member .unknownKey) =
      (m.entryOrUndefined ((y.descend segments).member .unknownKey)).rebase y x := by
    have heq := h.entryOrUndefined_eq (segments ++ [.unknownKey])
    rwa [Index.descend_append, Index.descend_append] at heq
  have hany (e : Entry) : ((e.rebase y x).contains .any ||
      (e.rebase y x).contains (.anyOf .array)) =
      (e.contains .any || e.contains (.anyOf .array)) := by
    rw [Entry.contains_rebase (v := .any) rfl, Entry.contains_rebase (v := .anyOf .array) rfl]
  rw [readAbsent_key, readAbsent_key, h segments, Option.any_map, hfallback]
  simp only [hany]
  split
  · exact (Entry.rebase_insert_any y x _).symm
  · rfl

theorem readIndex_eq {e : Entry} (h : m.CarriedOver y n x) (hy : m.entry? y = some e)
    (keys : List Key) : n.readIndex (x.descend (segmentsOf keys)) =
      (m.readIndex (y.descend (segmentsOf keys))).rebase y x := by
  cases hat : m.entry? (y.descend (segmentsOf keys)) with
  | some f =>
    rw [readIndex_of_some hat, readIndex_of_some ((h _).trans (congrArg _ hat))]
  | none =>
    rw [readIndex_of_none hat, readIndex_of_none ((h _).trans (congrArg _ hat))]
    rcases List.eq_nil_or_concat keys with rfl | ⟨front, k, rfl⟩
    · cases hy.symm.trans hat
    · rw [descend_segmentsOf_concat, descend_segmentsOf_concat]
      exact h.readAbsent_eq (segmentsOf front) k

end CarriedOver

end Memory

namespace Draft
open Memory
variable {d d' : Draft} {x y : Index} {p : KeyPath} {level : Nat}

/-- Resolving a path of keys for writing leads to one location. -/
theorem paved_resolve (hlimit : d.limit = none) (h : d.memory.Consistent) (hu : d.memory.Unaliased)
    (p : KeyPath) (level : Nat) : ∃ d', d.resolve p.path level = (d', .single (p.locate level)) ∧
      d.Paved ((p.path.indexAt level).OnWay (p.locate level)) d' := by
  obtain ⟨d', hfold, hpaved⟩ := paved_follow (i := p.path.indexAt level) hlimit h hu nofun p.keys
  refine ⟨d', ?_, hpaved⟩
  have hfollow : d.follow p.path level = (d', .single (p.locate level)) := by
    unfold follow
    rw [ofVariable_eq]
    exact hfold
  unfold resolve
  rw [hfollow]
  dsimp only
  rw [expand_single fun j => (hpaved.aliases_eq j).trans (hu j)]

/-- An array is carried over as it is at the moment, wherever it is stored, if it and the target
list whatever they have below. -/
theorem carriedOver_store (hlimit : d.limit = none) (h : d.memory.Consistent)
    (hheld : d.memory.entry? y = some (.ofValue (.array y))) (hx : ∀ id, x ≠ .object id)
    (hxl : d.memory.ListedBelow x) (hyl : d.memory.ListedBelow y) :
    d.memory.CarriedOver y
      (d.store x (.ofValue (.array y)) (ArraySource.held d.memory y) true).memory x := by
  have hholds : d.memory.holdsArray y = true :=
    holdsArray_iff.2 ⟨_, hheld, Entry.mem_ofValue.2 rfl⟩
  have hone : ∀ m ∈ [d.memory], m.Consistent := List.forall_mem_singleton.2 h
  have himages : imagesOf [d.memory] y = ArraySource.held d.memory y := List.append_nil _
  have hdata : (Entry.ofValue (.array y)).IsData := Entry.all_ofValue rfl
  obtain ⟨hcopied, hown⟩ :=
    reproduces_store (x := x) (e := .ofValue (.array y)) h h hx hdata (y := y)
  obtain ⟨hbelow, -⟩ := conflates_store (x := x) (e := .ofValue (.array y)) h hdata
    (himages ▸ owned_of_mem_imagesOf hone) (fun _ _ => hx) fun s j => hxl.entry?_clearMembers h
  have hlimit' : (d.store x (.ofValue (.array y)) (ArraySource.held d.memory y) true).limit =
      none := ((writtenBelow_store h hdata
        (fun a ha => ArraySource.isData_of_mem_held h ha) x true).limit_eq).trans hlimit
  have hcarried {segments : List Segment} {e : Entry}
      (he : d.memory.entry? (y.descend segments) = some e) :
      some ((d.memory.entryOrUndefined (y.descend segments)).relocate (y.descend segments)
        (x.descend segments)) = (d.memory.entry? (y.descend segments)).map (Entry.rebase y x) := by
    rw [entryOrUndefined_of_some he, he, Entry.relocate_eq_rebase (h.held _ e he)]
    rfl
  intro segments
  rcases List.eq_nil_or_concat segments with rfl | ⟨front, t, rfl⟩
  · refine (hown.trans ?_).trans (@hcarried [] _ hheld)
    rw [fit_of_limit hlimit, Entry.placed_eq_relocate (y := y)]
    · exact congrArg (some <| Entry.relocate · y x) (entryOrUndefined_of_some hheld).symm
    · rw [hholds, eq_comm, Entry.contains_eq_true, Entry.mem_ofValue]
  · rw [List.concat_eq_append]
    have hsplit (i : Index) : i.descend (front ++ [t]) = (i.descend front).member t :=
      Index.descend_append i front [t]
    by_cases hlists : d.memory.ListsAlong y (front ++ [t])
    · obtain ⟨e, he⟩ := h.entry?_of_listsAlong hlists
      rw [← hsplit] at he
      rw [← hcarried he]
      obtain ⟨s, rest, hcons⟩ := List.exists_cons_of_ne_nil
        (List.append_ne_nil_of_right_ne_nil front (List.cons_ne_nil t []))
      rw [hcons] at hlists ⊢
      rw [hcopied.entry s rest hlists, fit_of_limit hlimit']
    · have hnone : d.memory.entry? (y.descend (front ++ [t])) = none :=
        Option.eq_none_iff_forall_ne_some.2 fun e he => hlists (hyl _ e he)
      rw [hnone, hsplit, hbelow.entry, if_neg]
      · rfl
      · rw [← himages, mem_allSegments_along hone]
        rintro ⟨m, hm, hl⟩
        rw [List.mem_singleton.1 hm] at hl
        exact hlists hl

end Draft

namespace KeyPath
variable {p q : KeyPath} {a : Index} {level : Nat}

/-- A location between those that two paths name is named by a path that continues the first. -/
theorem exists_append (hq : (q.locate level).Contains a) (hp : a.Contains (p.locate level)) :
    ∃ keys, a = (q.locate level).descend (segmentsOf keys) := by
  obtain ⟨segments, rfl⟩ := hq
  obtain ⟨rest, hrest⟩ := hp
  have hroot : q.path.indexAt level = p.path.indexAt level := by
    have hbase := congrArg Index.base hrest
    unfold locate at hbase
    simp only [Index.base_descend] at hbase
    exact congrArg Index.root hbase
  have hsegments : (segmentsOf q.keys ++ segments) ++ rest = segmentsOf p.keys := by
    apply Index.descend_injective (p.path.indexAt level)
    rw [Index.descend_append, Index.descend_append, ← hroot]
    exact hrest.trans (congrArg (Index.descend · _) hroot.symm)
  obtain ⟨front, _, -, hfront, -⟩ := List.map_eq_append_iff.1 hsegments.symm
  obtain ⟨_, keys, -, -, hkeys⟩ := List.map_eq_append_iff.1 hfront
  exact ⟨keys, by rw [← hkeys]; rfl⟩

end KeyPath

namespace Memory
variable {m n : Memory} {x y i j : Index} {k : Key}

/-- The arrays that a key may be read as: its own, or that of the unknown member. -/
theorem Consistent.owner_of_mem_readIndex (h : m.Consistent)
    (hv : .array j ∈ m.readIndex (i.member (.key k))) :
    j = i.member (.key k) ∧ m.holdsArray j = true ∨ j = i.member .unknownKey := by
  cases he : m.entry? (i.member (.key k)) with
  | some e =>
    rw [readIndex_of_some he] at hv
    obtain rfl := (h.held _ e he _ hv).2 j rfl
    exact .inl ⟨rfl, holdsArray_iff.2 ⟨e, he, hv⟩⟩
  | none =>
    have hfallback : .array j ∈ m.entryOrUndefined (i.member .unknownKey) := by
      rw [readIndex_of_none he, readAbsent_key] at hv
      dsimp only at hv
      split at hv
      · exact ((Entry.mem_insert_iff_of_isSolid (Value.array_isSolid j)).1 hv).resolve_left nofun
      · exact hv
    have hbelongs : (m.entryOrUndefined (i.member .unknownKey)).All
        (Value.Belongs (i.member .unknownKey)) :=
      all_entryOrUndefined (Value.belongs_of_arrayOwner? rfl rfl) (h.held _)
    exact .inr ((hbelongs _ hfallback).2 j rfl)

/-- What is read where there is no array is no array of its own under another owner either. -/
theorem Consistent.array_not_mem_rebase (h : m.Consistent) {keys : List Key} (hne : keys ≠ [])
    (hnone : m.holdsArray (y.descend (segmentsOf keys)) = false) :
    .array (x.descend (segmentsOf keys)) ∉
      (m.readIndex (y.descend (segmentsOf keys))).rebase y x := by
  obtain ⟨front, k, rfl⟩ := (List.eq_nil_or_concat keys).resolve_left hne
  rw [descend_segmentsOf_concat] at hnone
  rw [descend_segmentsOf_concat, descend_segmentsOf_concat, Entry.mem_rebase]
  rintro ⟨w, hw, heq⟩
  cases w with
  | array j =>
    rcases h.owner_of_mem_readIndex hw with ⟨rfl, hholds⟩ | rfl
    · exact nomatch hnone.symm.trans hholds
    · have howner := Value.array.inj heq
      have hunknown := Index.rebase_descend y x (segmentsOf front ++ [.unknownKey])
      rw [Index.descend_append, Index.descend_append] at hunknown
      exact nomatch (Index.member.inj (hunknown.symm.trans howner)).2
  | _ => cases heq

end Memory

namespace Draft
open Memory
variable {d : Draft} {p q : KeyPath} {level : Nat}

/-- The parts of assigning an array: first the containers on the way are made, and then the array
is carried over as it has become. -/
theorem carriedOver_assign (d : Draft) (hlimit : d.limit = none) (h : d.memory.Consistent)
    (hu : d.memory.Unaliased)
    (hheld : d.memory.entry? (q.locate level) =
      some (.ofValue (.array (q.locate level))))
    (hp : d.memory.ListedBelow (p.locate level)) (hq : d.memory.ListedBelow (q.locate level))
    (force : Bool) :
    d.Paved ((p.path.indexAt level).OnWay (p.locate level)) (d.resolve p.path level).1 ∧
      (d.resolve p.path level).1.memory.CarriedOver (q.locate level)
        (d.assign p.path level (.ofValue (.array (q.locate level))) force).memory (p.locate level) ∧
      (d.assign p.path level (.ofValue (.array (q.locate level))) force).memory.Unaliased ∧
      (d.assign p.path level (.ofValue (.array (q.locate level))) force).memory.level =
        d.memory.level := by
  obtain ⟨d', hresolve, hpaved⟩ := paved_resolve hlimit h hu p level
  have hholds : d.memory.holdsArray (q.locate level) = true :=
    holdsArray_iff.2 ⟨_, hheld, Entry.mem_ofValue.2 rfl⟩
  have hheld' := (hpaved.entry?_eq _ fun _ => hholds).trans hheld
  have hassign : d.assign p.path level (.ofValue (.array (q.locate level))) force =
      d'.store (p.locate level) (.ofValue (.array (q.locate level)))
        (ArraySource.held d'.memory (q.locate level)) true := by
    unfold assign
    rw [hresolve]
    dsimp only
    rw [storeAll_single, ← ArraySource.ofEntry_entryOrUndefined hpaved.consistent,
      entryOrUndefined_of_some hheld']
  rw [hassign, hresolve]
  refine ⟨hpaved, carriedOver_store (hpaved.limit_eq.trans hlimit) hpaved.consistent hheld'
    (p.locate_ne_object level) (hpaved.listedBelow hp) (hpaved.listedBelow hq), ?_, ?_⟩
  · rw [← replay_storing]
    exact Unaliased.replay (fun j => (hpaved.aliases_eq j).trans (hu j)) _
  · rw [← replay_storing, level_replay, hpaved.level_eq]

end Draft

namespace Snapshot
open Memory
variable {s : Snapshot} {before : Memory} {p q : KeyPath}

/-- Assigning an array to a path of keys. In an open transaction without aliases and a simplify
limit `q` holds an array and nothing else, and whatever is below `p` and `q` is listed. What `p`
leads to afterwards is what `q` led to once the containers on the way to `p` were there. So it is
what `q` led to before the assignment exactly if none of these containers had to be made inside of
the source. -/
theorem assign_copies_array (hs : Reachable s) (hopen : s.phase = .open before)
    (hlimit : s.limits.simplify = none) (hu : s.memory.Unaliased)
    (hheld : s.memory.entry? (q.locate s.memory.level) =
      some (.ofValue (.array (q.locate s.memory.level))))
    (hp : s.memory.ListedBelow (p.locate s.memory.level))
    (hq : s.memory.ListedBelow (q.locate s.memory.level)) :
    let x := p.locate s.memory.level
    let y := q.locate s.memory.level
    let start : Draft := { memory := s.memory, limit := s.limits.simplify }
    let resolved := (start.resolve p.path s.memory.level).1.memory
    ∃ t, (assign p.path (s.memory.read q.path) false).run s = .ok () t ∧
      (∀ keys, t.memory.read (p.append keys).path =
        (resolved.read (q.append keys).path).rebase y x) ∧
      ((∀ keys, t.memory.read (p.append keys).path =
          (s.memory.read (q.append keys).path).rebase y x) ↔
        ∀ a, y.Contains a → a.Contains x → a ≠ x → s.memory.holdsArray a = true) := by
  intro x y start resolved
  have hconsistent := (hs.upholds consistent_durable).memory
  obtain ⟨hpaved, hcarried, hunaliased, hlevel⟩ :=
    start.carriedOver_assign hlimit hconsistent hu hheld hp hq false
  have hread : s.memory.read q.path = .ofValue (.array y) := by
    rw [read_keyPath hu, readIndex_of_some hheld]
  obtain ⟨t, hrun, hmemory⟩ := Transact.mutate_ok .assign hopen
    (Edit.assign_run start p.path (e := .ofValue (.array y)) (Entry.all_ofValue rfl) false)
  have hholds : s.memory.holdsArray y = true :=
    holdsArray_iff.2 ⟨_, hheld, Entry.mem_ofValue.2 rfl⟩
  have hheld' := (hpaved.entry?_eq y fun _ => hholds).trans hheld
  have hafter (keys : List Key) :
      t.memory.read (p.append keys).path = t.memory.readIndex (x.descend (segmentsOf keys)) := by
    rw [hmemory, read_keyPath hunaliased, hlevel, KeyPath.locate_append]
  have hbefore (keys : List Key) :
      s.memory.read (q.append keys).path = s.memory.readIndex (y.descend (segmentsOf keys)) := by
    rw [read_keyPath hu, KeyPath.locate_append]
  have hmiddle (keys : List Key) :
      resolved.read (q.append keys).path = resolved.readIndex (y.descend (segmentsOf keys)) := by
    rw [read_keyPath fun j => (hpaved.aliases_eq j).trans (hu j), hpaved.level_eq,
      KeyPath.locate_append]
  have hcopy (keys : List Key) : t.memory.readIndex (x.descend (segmentsOf keys)) =
      (resolved.readIndex (y.descend (segmentsOf keys))).rebase y x := by
    rw [hmemory]
    exact hcarried.readIndex_eq hheld' keys
  refine ⟨t, ?_, fun keys => ?_, ⟨fun hsame a hya hax hne => ?_, fun hway keys => ?_⟩⟩
  · rw [hread]
    exact hrun
  · rw [hafter, hmiddle, hcopy]
  · -- a container made inside of the source is copied, though nothing like it was there
    by_contra hnone
    rw [Bool.not_eq_true] at hnone
    obtain ⟨keys, rfl⟩ := KeyPath.exists_append hya hax
    have hnil : keys ≠ [] := by
      rintro rfl
      exact nomatch hnone.symm.trans hholds
    have hroot : Index.root (y.descend (segmentsOf keys)).base = p.path.indexAt s.memory.level := by
      rw [← hax.base_eq]
      exact congrArg Index.root (Index.base_descend _ _)
    have hmade := hpaved.entry?_of _ ⟨hroot ▸ Index.base_contains _, hax, hne⟩ hnone
    apply hconsistent.array_not_mem_rebase (x := x) hnil hnone
    rw [← hbefore, ← hsame, hafter, hcopy, readIndex_of_some hmade, Entry.mem_rebase]
    exact ⟨_, Entry.mem_ofValue.2 rfl, congrArg Value.array (Index.rebase_descend y x _)⟩
  · have hunchanged : s.memory.CarriedOver y t.memory x := by
      intro segments
      rw [hmemory, hcarried segments, hpaved.entry?_eq]
      exact fun hway' => hway _ ⟨segments, rfl⟩ hway'.2.1 hway'.2.2
    rw [hafter, hbefore]
    exact hunchanged.readIndex_eq hheld keys

set_option maxRecDepth 20000 in
/-- An array is assigned to a place inside of it whose containers are there. -/
theorem assign_copies_array_inside :
    let a : KeyPath := ⟨.current, "a", []⟩
    let place := a.append [.integer 1, .integer 2]
    let five : Entry := .ofValue (.scalar (.integer 5))
    let ops : List Operation := [.start, .change (.assign place.path five false)]
    let s := ops.foldl after {}
    ∃ t, (assign place.path (s.memory.read a.path) false).run s = .ok () t ∧
      t.memory.read (place.append [.integer 1, .integer 2]).path = five := by
  intro a place five ops s
  have hs : Reachable s := (Reachable.blank {}).foldl
    (by simp [ops, Operation.sources, Mutation.sources])
  have hconsistent := (hs.upholds consistent_durable).memory
  have hu : s.memory.Unaliased := .of_keys (by decide +kernel)
  have hopen : s.phase = .open .initial := by decide +kernel
  obtain ⟨t, hrun, -, hsame⟩ := assign_copies_array (p := place) (q := a) hs hopen
    (by decide +kernel) hu (by decide +kernel)
    (.of_keys hconsistent (by decide +kernel)) (.of_keys hconsistent (by decide +kernel))
  refine ⟨t, hrun, ?_⟩
  rw [hsame.2]
  · decide +kernel
  · -- the containers on the way are the variable and its member
    intro i _ hplace hne
    rcases Index.contains_member_iff.1 hplace with rfl | hi
    · exact absurd rfl hne
    · rcases Index.contains_member_iff.1 hi with rfl | hi
      · decide +kernel
      · rw [Index.contains_root_iff.1 hi]
        decide +kernel

set_option maxRecDepth 20000 in
/-- An array is assigned to a place inside of it that has no container yet. The container comes to
be copied too: a member that was absent is an array afterwards. -/
theorem assign_copies_new_container :
    let a : KeyPath := ⟨.current, "a", []⟩
    let place := a.append [.integer 1, .integer 2]
    let seven : Entry := .ofValue (.scalar (.integer 7))
    let ops : List Operation := [.start, .change (.assign (a.append [.integer 0]).path seven false)]
    let s := ops.foldl after {}
    let after := (assign place.path (s.memory.read a.path) false).run s
    Reachable s ∧ s.memory.Unaliased ∧ s.limits.simplify = none ∧
      s.memory.read a.path = .ofValue (.array (a.locate 0)) ∧
      s.memory.read (a.append [.integer 1]).path = .undefined ∧ failure? after = none ∧
      (left after).memory.read (place.append [.integer 1]).path =
        .ofValue (.array ((place.append [.integer 1]).locate 0)) := by
  intro a place seven ops s after
  exact ⟨(Reachable.blank {}).foldl (by simp [ops, Operation.sources, Mutation.sources]),
    .of_keys (by decide +kernel), by decide +kernel, by decide +kernel, by decide +kernel,
    by decide +kernel, by decide +kernel⟩

end Snapshot
end ScriptMemory
