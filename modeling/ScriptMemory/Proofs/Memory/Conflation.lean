import Mathlib.Data.List.Induction
import ScriptMemory.Proofs.Memory.Placement
import ScriptMemory.Proofs.Memory.Reproduction

/-! One array made of several. Where a strong copy of several arrays has nothing in its way, its
target has just what they have together: a member is there if any of them has it, and may be
undefined if another one that gets as far lacks it. -/
namespace ScriptMemory
open Std

namespace ArraySource
variable {a b : ArraySource} {arrays : List ArraySource} {s : Segment}
  {segments rest : List Segment} {v : Value} {m : Memory} {y : Index}

/-- The array is that of its location, in consistent memory. -/
structure Owned (a : ArraySource) : Prop where
  consistent : a.memory.Consistent
  holdsArray : a.memory.holdsArray a.owner = true

theorem Owned.isData (h : a.Owned) : a.IsData :=
  fun i e he v hv => (h.consistent.held i e he v hv).1

theorem owned_of_mem_memberArrays (h : ∀ a ∈ arrays, a.Owned) (ha : a ∈ memberArrays arrays s) :
    a.Owned := by
  obtain ⟨b, hb, rfl⟩ := List.mem_map.1 ha
  obtain ⟨hb, hs⟩ := List.mem_filter.1 hb
  exact ⟨(h b hb).consistent, (Bool.and_eq_true_iff.1 hs).2⟩

theorem mem_memberArrays : b ∈ memberArrays arrays s ↔ ∃ a ∈ arrays, s ∈ a.segments ∧
    a.memory.holdsArray (a.owner.member s) = true ∧ b = ⟨a.memory, a.owner.member s⟩ := by
  unfold memberArrays
  simp only [List.mem_map, List.mem_filter, Bool.and_eq_true, ExtTreeSet.contains_iff_mem]
  constructor
  · rintro ⟨a, ⟨ha, hs, hholds⟩, rfl⟩
    exact ⟨a, ha, hs, hholds, rfl⟩
  · rintro ⟨a, ha, hs, hholds, rfl⟩
    exact ⟨a, ⟨ha, hs, hholds⟩, rfl⟩

/-- What several arrays hold at a member, and undefinedness if one of them lacks it. -/
theorem covers_memberEntry : (memberEntry arrays s).Covers v ↔
    (∃ a ∈ arrays, s ∈ a.segments ∧ (a.memory.entryOrUndefined (a.owner.member s)).Covers v) ∨
      v = .undefined ∧ ∃ a ∈ arrays, s ∉ a.segments := by
  have hjoin : (((arrays.filter (·.segments.contains s)).map fun a =>
      a.memory.entryOrUndefined (a.owner.member s)).foldl Entry.join ∅).Covers v ↔
        ∃ a ∈ arrays, s ∈ a.segments ∧
          (a.memory.entryOrUndefined (a.owner.member s)).Covers v := by
    rw [Entry.covers_foldl_join, or_iff_right Entry.not_covers_empty]
    simp only [List.mem_map, List.mem_filter, ExtTreeSet.contains_iff_mem]
    constructor
    · rintro ⟨e, ⟨a, ⟨ha, hs⟩, rfl⟩, hv⟩
      exact ⟨a, ha, hs, hv⟩
    · rintro ⟨a, ha, hs, hv⟩
      exact ⟨_, ⟨a, ⟨ha, hs⟩, rfl⟩, hv⟩
  have hlacks : ((arrays.filter (·.segments.contains s)).map fun a =>
      a.memory.entryOrUndefined (a.owner.member s)).length < arrays.length ↔
        ∃ a ∈ arrays, s ∉ a.segments := by
    rw [List.length_map, List.length_filter_lt_length_iff_exists]
    simp only [ExtTreeSet.contains_iff_mem]
  unfold memberEntry
  dsimp only
  split
  · next h =>
    rw [Entry.covers_insert, hjoin, Value.within_undefined, or_comm, and_iff_left (hlacks.1 h)]
  · next h =>
    rw [hjoin, or_iff_left fun hv => h (hlacks.2 hv.2)]

theorem size_le_depth (ha : a ∈ arrays) : a.memory.cells.size ≤ depth arrays := by
  have hfold (sizes : List Nat) (n bound : Nat) (hn : n ≤ bound ∨ n ∈ sizes) :
      n ≤ sizes.foldl max bound := by
    induction sizes generalizing bound with
    | nil => exact hn.resolve_right List.not_mem_nil
    | cons k sizes ih =>
      apply ih
      rcases hn with hn | hn
      · exact .inl (Nat.le_trans hn (Nat.le_max_left _ _))
      · rcases List.mem_cons.1 hn with rfl | hn
        · exact .inl (Nat.le_max_right _ _)
        · exact .inr hn
  exact hfold _ _ 0 (.inr (List.mem_map_of_mem ha))

/-- The arrays that several arrays hold at the end of a way down. -/
def along (arrays : List ArraySource) : List Segment → List ArraySource
  | [] => arrays
  | s :: segments => along (memberArrays arrays s) segments

theorem mem_along (h : ∀ a ∈ arrays, a.Owned) : b ∈ along arrays segments ↔
    ∃ a ∈ arrays, a.memory.ListsAlong a.owner segments ∧
      a.memory.holdsArray (a.owner.descend segments) = true ∧
      b = ⟨a.memory, a.owner.descend segments⟩ := by
  induction segments generalizing arrays with
  | nil =>
    constructor
    · exact fun hb => ⟨b, hb, trivial, (h b hb).holdsArray, rfl⟩
    · rintro ⟨a, ha, -, -, rfl⟩
      exact ha
  | cons s segments ih =>
    refine (ih fun a => owned_of_mem_memberArrays h).trans ?_
    constructor
    · rintro ⟨_, hmember, hlists, hholds, rfl⟩
      obtain ⟨a, ha, hs, -, rfl⟩ := mem_memberArrays.1 hmember
      exact ⟨a, ha, ⟨hs, hlists⟩, hholds, rfl⟩
    · rintro ⟨a, ha, ⟨hs, hlists⟩, hholds, rfl⟩
      refine ⟨_, mem_memberArrays.2 ⟨a, ha, hs, ?_, rfl⟩, hlists, hholds, rfl⟩
      -- a member on the way holds an array, since it lists the next one
      cases segments with
      | nil => exact hholds
      | cons t segments => exact ((h a ha).consistent.member _ t hlists.1).1

theorem mem_allSegments_iff : s ∈ allSegments arrays ↔ ∃ a ∈ arrays, s ∈ a.segments :=
  ExtTreeSet.mem_toList.symm.trans mem_allSegments

theorem not_mem_allSegments_nil (s : Segment) : s ∉ allSegments [] :=
  fun hs => nomatch mem_allSegments_iff.1 hs

/-- Nothing is found beyond a member that no array has. -/
theorem along_of_not_mem (hs : s ∉ allSegments arrays) (segments : List Segment) :
    along arrays (s :: segments) = [] := by
  have hnil : memberArrays arrays s = [] := by
    rw [List.eq_nil_iff_forall_not_mem]
    intro b hb
    obtain ⟨a, ha, hs', -⟩ := mem_memberArrays.1 hb
    exact hs (mem_allSegments_iff.2 ⟨a, ha, hs'⟩)
  rw [along, hnil]
  induction segments with
  | nil => rfl
  | cons t segments ih => exact ih

end ArraySource

namespace Memory
variable {m : Memory} {o : Index} {segments : List Segment} {s : Segment} {sources : List Memory}

/-- Whatever has an entry below `o` is listed all the way down. -/
def ListedBelow (m : Memory) (o : Index) : Prop :=
  ∀ segments e, m.entry? (o.descend segments) = some e → m.ListsAlong o segments

theorem Consistent.entry?_of_listsAlong (h : m.Consistent)
    (hl : m.ListsAlong o (segments ++ [s])) :
    ∃ e, m.entry? ((o.descend segments).member s) = some e :=
  (h.member _ s (listsAlong_append.1 hl).2.1).2

theorem ListedBelow.entryOrUndefined_eq (h : m.ListedBelow o)
    (hl : ¬m.ListsAlong o (segments ++ [s])) :
    m.entryOrUndefined ((o.descend segments).member s) = .undefined := by
  apply entryOrUndefined_of_none
  rw [Option.eq_none_iff_forall_ne_some]
  intro e he
  refine hl (h (segments ++ [s]) e ?_)
  rw [Index.descend_append]
  exact he

theorem ListedBelow.of_keys (h : m.Consistent)
    (hkeys : ∀ j ∈ m.cells.keys, o.isAncestorOf j = true → j ∈ m.below o) : m.ListedBelow o := by
  intro segments e he
  cases segments with
  | nil => trivial
  | cons s segments =>
    have hc : o.Contains (o.descend (s :: segments)) := ⟨_, rfl⟩
    have hne : o ≠ o.descend (s :: segments) := fun heq =>
      Index.not_member_contains o s ⟨segments, heq.symm⟩
    have hkey : o.descend (s :: segments) ∈ m.cells.keys :=
      ExtTreeMap.mem_keys.2 (ExtTreeMap.contains_iff_mem.1 ( isDefined_of_entry? he))
    obtain ⟨t, rest, hlists, heq⟩ :=
      h.mem_below.1 (hkeys _ hkey (Index.isAncestorOf_iff.2 ⟨hc, hne⟩))
    rwa [← Index.descend_injective o heq]

/-- The arrays that several memories hold at `o`. -/
def imagesOf (sources : List Memory) (o : Index) : List ArraySource :=
  sources.flatMap (ArraySource.held · o)

theorem mem_imagesOf {a : ArraySource} : a ∈ imagesOf sources o ↔
    ∃ m ∈ sources, m.holdsArray o = true ∧ a = ⟨m, o⟩ := by
  unfold imagesOf ArraySource.held
  rw [List.mem_flatMap]
  refine exists_congr fun m => and_congr_right fun _ => ?_
  cases m.holdsArray o <;> simp

section
variable (h : ∀ m ∈ sources, m.Consistent)
include h

theorem owned_of_mem_imagesOf : ∀ a ∈ imagesOf sources o, a.Owned := by
  intro a ha
  obtain ⟨m, hm, hholds, rfl⟩ := mem_imagesOf.1 ha
  exact ⟨h m hm, hholds⟩

theorem mem_along_imagesOf {a : ArraySource} :
    a ∈ ArraySource.along (imagesOf sources o) segments ↔ ∃ m ∈ sources,
      m.ListsAlong o segments ∧ m.holdsArray (o.descend segments) = true ∧
        a = ⟨m, o.descend segments⟩ := by
  rw [ArraySource.mem_along (owned_of_mem_imagesOf h)]
  constructor
  · rintro ⟨b, hb, hlists, hholds, rfl⟩
    obtain ⟨m, hm, -, rfl⟩ := mem_imagesOf.1 hb
    exact ⟨m, hm, hlists, hholds, rfl⟩
  · rintro ⟨m, hm, hlists, hholds, rfl⟩
    refine ⟨⟨m, o⟩, mem_imagesOf.2 ⟨m, hm, ?_, rfl⟩, hlists, hholds, rfl⟩
    cases segments with
    | nil => exact hholds
    | cons t segments => exact ((h m hm).member _ t hlists.1).1

/-- What is found at the end of a way down is listed all the way. -/
theorem mem_allSegments_along :
    s ∈ ArraySource.allSegments (ArraySource.along (imagesOf sources o) segments) ↔
      ∃ m ∈ sources, m.ListsAlong o (segments ++ [s]) := by
  rw [ArraySource.mem_allSegments_iff]
  constructor
  · rintro ⟨a, ha, hs⟩
    obtain ⟨m, hm, hlists, -, rfl⟩ := (mem_along_imagesOf h).1 ha
    exact ⟨m, hm, listsAlong_append.2 ⟨hlists, hs, trivial⟩⟩
  · rintro ⟨m, hm, hlists⟩
    obtain ⟨hlists, hs, -⟩ := listsAlong_append.1 hlists
    exact ⟨_, (mem_along_imagesOf h).2 ⟨m, hm, hlists, ((h m hm).member _ s hs).1, rfl⟩, hs⟩

end

end Memory

namespace Draft
variable {d d' : Draft} {x v : Index} {e : Entry} {s : Segment} {segments : List Segment}
  {arrays : List ArraySource}

/-- What a copy of several arrays writes at their member `s` when `x` is where they are
copied to. -/
def conflated (d : Draft) (x : Index) (arrays : List ArraySource) (s : Segment) : Entry :=
  d.fit (incoming (x.member s) (ArraySource.memberEntry arrays s)
    (!(ArraySource.memberArrays arrays s).isEmpty))

/-- The draft has below `x` what several arrays have together, and nothing else. -/
structure Conflates (d : Draft) (x : Index) (arrays : List ArraySource) : Prop where
  members : ∀ segments, (d.memory.cell (x.descend segments)).members =
    ArraySource.allSegments (ArraySource.along arrays segments)
  entry : ∀ segments s, d.memory.entry? ((x.descend segments).member s) =
    if s ∈ ArraySource.allSegments (ArraySource.along arrays segments) then
      some (d.conflated (x.descend segments) (ArraySource.along arrays segments) s)
    else none

/-- A member is what the arrays have there, together with its entry. -/
structure ConflatesMember (d : Draft) (x : Index) (arrays : List ArraySource) (s : Segment) : Prop
    extends d.Conflates (x.member s) (ArraySource.memberArrays arrays s) where
  own : d.memory.entry? (x.member s) = some (d.conflated x arrays s)

/-- Nothing is defined at the member or below it. -/
def Bare (x : Index) (d : Draft) (s : Segment) : Prop :=
  ∀ j, (x.member s).Contains j → d.memory.entry? j = none

theorem conflates_of_members (h : d.memory.Consistent)
    (hmembers : (d.memory.cell x).members = ArraySource.allSegments arrays)
    (hlisted : ∀ s ∈ ArraySource.allSegments arrays, d.ConflatesMember x arrays s)
    (hbare : ∀ s ∉ ArraySource.allSegments arrays, Bare x d s) : d.Conflates x arrays where
  members := by
    rintro (_ | ⟨t, segments⟩)
    · exact hmembers
    · by_cases ht : t ∈ ArraySource.allSegments arrays
      · exact (hlisted t ht).members segments
      · apply ExtTreeSet.ext_mem
        intro s
        rw [ArraySource.along_of_not_mem ht]
        refine iff_of_false (fun hs => ?_) (ArraySource.not_mem_allSegments_nil s)
        -- what lists a member has an entry
        obtain ⟨e, he, -⟩ := Memory.holdsArray_iff.1 (h.member _ s hs).1
        exact nomatch (hbare t ht _ ⟨segments, rfl⟩).symm.trans he
  entry := by
    rintro (_ | ⟨t, segments⟩) s
    · split
      · next hs => exact (hlisted s hs).own
      · next hs => exact hbare s hs _ (Index.contains_refl _)
    · by_cases ht : t ∈ ArraySource.allSegments arrays
      · exact (hlisted t ht).entry segments s
      · rw [ArraySource.along_of_not_mem ht, if_neg (ArraySource.not_mem_allSegments_nil s)]
        exact hbare t ht _ ⟨segments ++ [s], by rw [Index.descend_append]; rfl⟩

/-- Writes apart from a location leave alone what lies below it. -/
theorem Conflates.of_writtenBelow (h : d.Conflates x arrays) (hw : d.WrittenBelow v d')
    (hv : v.Apart x) : d'.Conflates x arrays := by
  have hapart (segments : List Segment) : v.Apart (x.descend segments) :=
    (hv.symm.of_contains ⟨segments, rfl⟩).symm
  constructor
  · intro segments
    rw [hw.members_eq_of_apart (hapart segments)]
    exact h.members segments
  · intro segments s
    have hmember : v.Apart ((x.descend segments).member s) :=
      ((hapart segments).symm.of_contains (Index.contains_member _ s)).symm
    rw [hw.entry?_eq _ hmember.1, conflated, fit_congr hw.limit_eq]
    exact h.entry segments s

theorem privateTo_conflatesMember (x : Index) (arrays : List ArraySource) :
    PrivateTo x fun d s => d.ConflatesMember x arrays s := by
  intro d d' s t hne hw h
  have hapart : (x.member t).Apart (x.member s) := apart_members x hne
  refine ⟨h.toConflates.of_writtenBelow hw hapart, ?_⟩
  rw [hw.entry?_eq _ hapart.1, conflated, fit_congr hw.limit_eq]
  exact h.own

theorem privateTo_bare (x : Index) : PrivateTo x (Bare x) := by
  intro d d' s t hne hw h j hj
  have hapart : (x.member t).Apart j := ((apart_members x hne).symm.of_contains hj).symm
  rw [hw.entry?_eq j hapart.1]
  exact h j hj

theorem bare_place (h : d.memory.Consistent) (x : Index) (e : Entry) {hasArray : Bool}
    (hbare : ∀ s, ∀ j, (x.member s).Contains j →
      Memory.entry? (d.memory.clearMembers x) j = none) (s : Segment) :
    Bare x (d.place x e hasArray true) s := by
  intro j hj
  have hne : j ≠ x := by
    rintro rfl
    exact Index.not_member_contains j s hj
  rw [place_memory h, Memory.entry?_put_register, if_neg hne]
  exact hbare s j hj

/-- By induction on the depth, each member being copied like the location itself. -/
theorem conflates_copy {depth : Nat} (h : d.memory.Consistent) (he : e.IsData)
    (ha : ∀ a ∈ arrays, a.Owned)
    (hdepth : ∀ a ∈ arrays, ∀ segments, a.memory.ListsAlong a.owner segments →
      segments.length ≤ depth)
    (hx : ∀ s ∈ ArraySource.allSegments arrays, ∀ id, x ≠ .object id)
    (hbare : ∀ s, ∀ j, (x.member s).Contains j →
      Memory.entry? (d.memory.clearMembers x) j = none) :
    (copy depth d x e arrays true).Conflates x arrays ∧
      Memory.entry? (copy depth d x e arrays true).memory x =
        some (d.fit (incoming x e (!arrays.isEmpty))) := by
  have hdata : ∀ a ∈ arrays, a.IsData := fun a haa => (ha a haa).isData
  induction depth generalizing d x e arrays with
  | zero =>
    -- no way leads down from any of the arrays, so no member is listed
    have hnone (s : Segment) : s ∉ ArraySource.allSegments arrays := by
      intro hs
      obtain ⟨a, haa, hs⟩ := ArraySource.mem_allSegments_iff.1 hs
      exact Nat.not_succ_le_zero 0 (hdepth a haa [s] ⟨hs, trivial⟩)
    refine ⟨conflates_of_members (consistent_place h he x _ true) ?_
      (fun s hs => absurd hs (hnone s)) fun s _ => bare_place h x e hbare s,
      entry?_place d x e _ true⟩
    refine (members_place_strong h x e _).trans (ExtTreeSet.ext_mem fun s => ?_).symm
    exact iff_of_false (hnone s) ExtTreeSet.not_mem_empty
  | succ depth ih =>
    let listed := (ArraySource.allSegments arrays).toList
    let f (d : Draft) (s : Segment) : Draft := copy depth d (x.member s)
      (ArraySource.memberEntry arrays s) (ArraySource.memberArrays arrays s) true
    have hlisted {s : Segment} : s ∈ listed ↔ s ∈ ArraySource.allSegments arrays :=
      ExtTreeSet.mem_toList
    have hwrite : ∀ (d : Draft) s, s ∈ listed → d.memory.Consistent →
        d.WrittenBelow (x.member s) (f d s) := fun d s _ hd =>
      writtenBelow_copy hd (ArraySource.isData_memberEntry hdata s)
        (fun a => ArraySource.isData_of_mem_memberArrays hdata) _ true
    have hdone : ∀ (d : Draft) s, s ∈ listed → d.memory.Consistent → Bare x d s →
        (f d s).ConflatesMember x arrays s := by
      intro d s hs hd hready
      have hmembers : ∀ a ∈ ArraySource.memberArrays arrays s, a.Owned := fun a =>
        ArraySource.owned_of_mem_memberArrays ha
      have hcleared : ∀ t, ∀ j, ((x.member s).member t).Contains j →
          Memory.entry? (d.memory.clearMembers (x.member s)) j = none := by
        intro t j hj
        have hnone := hready j ((Index.contains_member _ t).trans hj)
        exact (Memory.entry?_clearMembers_cases d.memory (x.member s) j).elim id
          fun heq => heq.trans hnone
      have hshallow : ∀ b ∈ ArraySource.memberArrays arrays s, ∀ segments,
          b.memory.ListsAlong b.owner segments → segments.length ≤ depth := by
        intro b hb segments hl
        obtain ⟨a, haa, hs, -, rfl⟩ := ArraySource.mem_memberArrays.1 hb
        exact Nat.le_of_succ_le_succ (hdepth a haa (s :: segments) ⟨hs, hl⟩)
      obtain ⟨hbelow, hown⟩ := ih (x := x.member s) hd (ArraySource.isData_memberEntry hdata s)
        hmembers hshallow (fun _ _ _ heq => by cases heq) hcleared fun a haa =>
          (hmembers a haa).isData
      refine ⟨hbelow, hown.trans ?_⟩
      rw [conflated, fit_congr (hwrite d s hs hd).limit_eq]
    have hplaced := consistent_place h he x (!arrays.isEmpty) true
    have hentry := entry?_place d x e (!arrays.isEmpty) true
    have hready (s : Segment) : Bare x (d.place x e (!arrays.isEmpty) true) s :=
      bare_place h x e hbare s
    have hobject : listed ≠ [] → ∀ id, x ≠ .object id := by
      intro hne
      obtain ⟨s, hs⟩ := List.exists_mem_of_ne_nil listed hne
      exact hx s (hlisted.1 hs)
    have hholds : listed ≠ [] →
        (d.place x e (!arrays.isEmpty) true).memory.holdsArray x = true := by
      intro hne
      obtain ⟨s, hs⟩ := List.exists_mem_of_ne_nil listed hne
      obtain ⟨a, haa, -⟩ := ArraySource.mem_allSegments.1 hs
      have hnil : (!arrays.isEmpty) = true := by
        rw [Bool.not_eq_true', List.isEmpty_eq_false_iff]
        exact List.ne_nil_of_mem haa
      rw [hnil] at hentry ⊢
      exact Memory.holdsArray_iff.2 ⟨_, hentry,
        (writtenAs_fit d _).coarsened.array_mem_iff.2 (array_mem_placed ..)⟩
    have hall := foldl_of_mem hwrite hplaced (privateTo_conflatesMember x arrays)
      (privateTo_bare x) hdone (OrdSet.nodup_toList _) fun s _ => hready s
    obtain ⟨hconsistent, -, hown, hmembers⟩ := foldl_members hwrite hplaced hobject hholds
    change (listed.foldl f (d.place x e (!arrays.isEmpty) true)).Conflates x arrays ∧
      Memory.entry? (listed.foldl f (d.place x e (!arrays.isEmpty) true)).memory x = _
    refine ⟨conflates_of_members hconsistent (ExtTreeSet.ext_mem fun t => ?_)
      (fun s hs => hall s (hlisted.2 hs)) fun s hs => ?_, hown.trans hentry⟩
    · rw [hmembers, members_place_strong h, or_iff_left ExtTreeSet.not_mem_empty, hlisted]
    · exact foldl_of_not_mem hwrite hplaced (privateTo_bare x) (mt hlisted.1 hs) (hready s)

theorem conflates_store (h : d.memory.Consistent) (he : e.IsData) (ha : ∀ a ∈ arrays, a.Owned)
    (hx : ∀ s ∈ ArraySource.allSegments arrays, ∀ id, x ≠ .object id)
    (hbare : ∀ s, ∀ j, (x.member s).Contains j →
      Memory.entry? (d.memory.clearMembers x) j = none) :
    (d.store x e arrays true).Conflates x arrays ∧
      Memory.entry? (d.store x e arrays true).memory x =
        some (d.fit (incoming x e (!arrays.isEmpty))) :=
  conflates_copy h he ha (fun a haa _ hl =>
    Nat.le_trans ((ha a haa).consistent.length_le_size hl) (ArraySource.size_le_depth haa)) hx hbare

/-- An entry that holds no array but that of its location is written as it is. -/
theorem incoming_eq_self {hasArray : Bool} (hown : ∀ k, .array k ∈ e → k = x)
    (hholds : hasArray = true ↔ .array x ∈ e) : incoming x e hasArray = e := by
  have harray (w : Value) : (Value.array x).absorbs w = false := by cases w <;> rfl
  have hothers (w : Value) :
      w ∈ e.filter (fun v => v.arrayOwner?.isNone) ↔ w ∈ e ∧ w ≠ .array x := by
    rw [Entry.mem_filter]
    refine and_congr_right fun hw => ?_
    cases w with
    | array k => simp [Value.arrayOwner?, hown k hw]
    | _ => simp [Value.arrayOwner?]
  apply Entry.ext_mem
  intro w
  unfold incoming placed
  dsimp only
  rw [if_pos rfl]
  split
  · next h =>
    rw [Entry.mem_insert_of_not_absorbs (Entry.not_absorbs_of_isSolid (Value.array_isSolid x)),
      hothers, and_iff_left (harray w)]
    constructor
    · rintro (rfl | hw)
      · exact hholds.1 h
      · exact hw.1
    · exact fun hw => or_iff_not_imp_left.2 fun hne => ⟨hw, hne⟩
  · next h =>
    rw [hothers, and_iff_left_iff_imp]
    rintro hw rfl
    exact h (hholds.2 hw)

end Draft
end ScriptMemory
