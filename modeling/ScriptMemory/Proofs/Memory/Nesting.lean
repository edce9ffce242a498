import Mathlib.Data.List.Nodup
import Mathlib.Data.List.Perm.Subperm
import ScriptMemory.Proofs.Memory.Consistent

/-! Locations below one another. In consistent memory what lies below a location is what is reached
from it along listed members: every location on such a way is defined, so no way is longer than the
bound on the search. -/
namespace ScriptMemory
open Std

namespace Index
variable {i j k : Index} {s t : Segment} {segments rest : List Segment}

/-- The number of segments below the root. -/
def depth : Index → Nat
  | root _ => 0
  | member parent _ => parent.depth + 1

/-- Where some segments lead from `i`. -/
def descend (i : Index) (segments : List Segment) : Index :=
  segments.foldl member i

/-- `j` is `i` or lies below it. -/
def Contains (i j : Index) : Prop :=
  ∃ segments, i.descend segments = j

theorem descend_cons (i : Index) (s : Segment) (segments : List Segment) :
    i.descend (s :: segments) = (i.member s).descend segments :=
  rfl

theorem descend_append (i : Index) (segments rest : List Segment) :
    i.descend (segments ++ rest) = (i.descend segments).descend rest :=
  List.foldl_append

theorem depth_descend (i : Index) (segments : List Segment) :
    (i.descend segments).depth = i.depth + segments.length := by
  induction segments generalizing i with
  | nil => rfl
  | cons s segments ih =>
    calc (i.descend (s :: segments)).depth
        = (i.member s).depth + segments.length := ih (i.member s)
      _ = i.depth + 1 + segments.length := rfl
      _ = i.depth + (s :: segments).length := by rw [List.length_cons]; omega

theorem base_descend (i : Index) (segments : List Segment) :
    (i.descend segments).base = i.base := by
  induction segments generalizing i with
  | nil => rfl
  | cons s segments ih => exact ih (i.member s)

theorem contains_refl (i : Index) : i.Contains i :=
  ⟨[], rfl⟩

theorem contains_member (i : Index) (s : Segment) : i.Contains (i.member s) :=
  ⟨[s], rfl⟩

theorem Contains.trans (h : i.Contains j) (h' : j.Contains k) : i.Contains k := by
  obtain ⟨segments, rfl⟩ := h
  obtain ⟨rest, rfl⟩ := h'
  exact ⟨segments ++ rest, descend_append i segments rest⟩

theorem Contains.depth_le (h : i.Contains j) : i.depth ≤ j.depth := by
  obtain ⟨segments, rfl⟩ := h
  rw [depth_descend]
  exact Nat.le_add_right _ _

theorem Contains.base_eq (h : i.Contains j) : j.base = i.base := by
  obtain ⟨segments, rfl⟩ := h
  exact base_descend i segments

/-- What lies below a location is deeper. -/
theorem Contains.eq_of_depth_le (h : i.Contains j) (hle : j.depth ≤ i.depth) : i = j := by
  obtain ⟨segments, rfl⟩ := h
  rw [depth_descend] at hle
  have hlength : segments.length = 0 := by omega
  rw [List.length_eq_zero_iff.1 hlength]
  rfl

/-- A location contains a member if it is that member or contains what the member lies in. -/
theorem contains_member_iff : i.Contains (j.member s) ↔ i = j.member s ∨ i.Contains j := by
  constructor
  · rintro ⟨segments, h⟩
    rcases List.eq_nil_or_concat segments with rfl | ⟨rest, t, rfl⟩
    · exact .inl h
    · rw [List.concat_eq_append, descend_append] at h
      exact .inr ⟨rest, (member.inj h).1⟩
  · rintro (rfl | h)
    · exact contains_refl _
    · exact h.trans (contains_member j s)

theorem contains_root_iff {r : Root} : i.Contains (.root r) ↔ i = .root r := by
  constructor
  · exact fun h => h.eq_of_depth_le (Nat.zero_le _)
  · rintro rfl
    exact contains_refl _

theorem not_member_contains (i : Index) (s : Segment) : ¬(i.member s).Contains i := by
  intro h
  have hle : i.depth + 1 ≤ i.depth := h.depth_le
  omega

/-- What lies below a location lies in one of its members. -/
theorem contains_iff : i.Contains j ↔ i = j ∨ ∃ s, (i.member s).Contains j := by
  constructor
  · rintro ⟨segments, rfl⟩
    cases segments with
    | nil => exact .inl rfl
    | cons s segments => exact .inr ⟨s, segments, rfl⟩
  · rintro (rfl | ⟨s, h⟩)
    · exact contains_refl _
    · exact (contains_member i s).trans h

/-- Two members of a location have nothing in common. -/
theorem Contains.segment_eq (h : (i.member s).Contains k) (h' : (i.member t).Contains k) :
    s = t := by
  induction k with
  | root r =>
    rw [contains_root_iff] at h
    cases h
  | member k u ih =>
    rw [contains_member_iff] at h h'
    rcases h with h | h <;> rcases h' with h' | h'
    · exact (member.inj (h.trans h'.symm)).2
    · obtain ⟨rfl, -⟩ := member.inj h
      exact absurd h' (not_member_contains i t)
    · obtain ⟨rfl, -⟩ := member.inj h'
      exact absurd h (not_member_contains i s)
    · exact ih h h'

theorem descend_injective (i : Index) : Function.Injective i.descend := by
  intro segments rest heq
  induction segments generalizing i rest with
  | nil =>
    cases rest with
    | nil => rfl
    | cons t rest => exact absurd ⟨rest, heq.symm⟩ (not_member_contains i t)
  | cons s segments ih =>
    cases rest with
    | nil => exact absurd ⟨segments, heq⟩ (not_member_contains i s)
    | cons t rest =>
      obtain rfl : s = t := Contains.segment_eq ⟨segments, heq⟩ ⟨rest, rfl⟩
      rw [ih (i.member s) heq]

end Index

namespace Memory
variable {m n : Memory} {i j p : Index} {s : Segment} {segments rest : List Segment}
  {gone lost : Index → Bool}

/-- Each of the segments is listed where those before it lead to. -/
def ListsAlong (m : Memory) : Index → List Segment → Prop
  | _, [] => True
  | i, s :: segments => s ∈ (m.cell i).members ∧ m.ListsAlong (i.member s) segments

theorem listsAlong_append : m.ListsAlong i (segments ++ rest) ↔
    m.ListsAlong i segments ∧ m.ListsAlong (i.descend segments) rest := by
  induction segments generalizing i with
  | nil => exact (and_iff_right trivial).symm
  | cons s segments ih =>
    rw [List.cons_append, ListsAlong, ListsAlong, ih, and_assoc]
    rfl

theorem mem_members : j ∈ m.members i ↔ ∃ s, s ∈ (m.cell i).members ∧ i.member s = j := by
  unfold members
  rw [List.mem_map]
  simp only [ExtTreeSet.mem_toList]

/-- The search goes down along listed members, as deep as it may. -/
theorem mem_subtree {bound : Nat} : j ∈ m.subtree bound i ↔
    ∃ segments, segments.length ≤ bound ∧ m.ListsAlong i segments ∧ i.descend segments = j := by
  induction bound generalizing i with
  | zero =>
    rw [subtree, List.mem_singleton]
    constructor
    · rintro rfl
      exact ⟨[], Nat.le_refl 0, trivial, rfl⟩
    · rintro ⟨segments, hle, -, rfl⟩
      rw [List.length_eq_zero_iff.1 (Nat.le_zero.1 hle)]
      rfl
  | succ bound ih =>
    rw [subtree, List.mem_cons, List.mem_flatMap]
    constructor
    · rintro (rfl | ⟨k, hk, hj⟩)
      · exact ⟨[], Nat.zero_le _, trivial, rfl⟩
      · obtain ⟨s, hs, rfl⟩ := mem_members.1 hk
        obtain ⟨segments, hle, hlists, rfl⟩ := ih.1 hj
        exact ⟨s :: segments, Nat.succ_le_succ hle, ⟨hs, hlists⟩, rfl⟩
    · rintro ⟨segments, hle, hlists, rfl⟩
      cases segments with
      | nil => exact .inl rfl
      | cons s segments =>
        refine .inr ⟨i.member s, mem_members.2 ⟨s, hlists.1, rfl⟩, ih.2 ?_⟩
        exact ⟨segments, Nat.le_of_succ_le_succ hle, hlists.2, rfl⟩

theorem contains_of_mem_subtree {bound : Nat} (hj : j ∈ m.subtree bound i) : i.Contains j := by
  obtain ⟨segments, -, -, rfl⟩ := mem_subtree.1 hj
  exact ⟨segments, rfl⟩

/-- The locations on the way that the segments lead from `i`, without `i` itself. -/
def trail (i : Index) : List Segment → List Index
  | [] => []
  | s :: segments => i.member s :: trail (i.member s) segments

theorem length_trail (i : Index) (segments : List Segment) :
    (trail i segments).length = segments.length := by
  induction segments generalizing i with
  | nil => rfl
  | cons s segments ih => rw [trail, List.length_cons, List.length_cons, ih]

theorem depth_lt_of_mem_trail (h : j ∈ trail i segments) : i.depth < j.depth := by
  induction segments generalizing i with
  | nil => cases h
  | cons s segments ih =>
    rcases List.mem_cons.1 h with rfl | h
    · exact Nat.lt_succ_self _
    · exact Nat.lt_trans (Nat.lt_succ_self i.depth) (ih h)

theorem nodup_trail (i : Index) (segments : List Segment) : (trail i segments).Nodup := by
  induction segments generalizing i with
  | nil => exact List.nodup_nil
  | cons s segments ih =>
    rw [trail, List.nodup_cons]
    exact ⟨fun h => Nat.lt_irrefl _ (depth_lt_of_mem_trail h), ih _⟩

namespace Consistent

theorem isDefined_of_mem_trail (h : m.Consistent) (hlists : m.ListsAlong i segments)
    (hj : j ∈ trail i segments) : m.isDefined j = true := by
  induction segments generalizing i with
  | nil => cases hj
  | cons s segments ih =>
    rcases List.mem_cons.1 hj with rfl | hj
    · obtain ⟨-, e, he⟩ := h.member i s hlists.1
      exact isDefined_of_entry? he
    · exact ih hlists.2 hj

/-- A way along listed members passes no location twice, and all of them are defined. -/
theorem length_le_size (h : m.Consistent) (hlists : m.ListsAlong i segments) :
    segments.length ≤ m.cells.size := by
  have hsubset : trail i segments ⊆ m.cells.keys := by
    intro j hj
    exact ExtTreeMap.mem_keys.2 (ExtTreeMap.contains_iff_mem.1 (h.isDefined_of_mem_trail hlists hj))
  calc segments.length
      = (trail i segments).length := (length_trail i segments).symm
    _ ≤ m.cells.keys.length := (List.subperm_of_subset (nodup_trail i segments) hsubset).length_le
    _ = m.cells.size := ExtTreeMap.length_keys

/-- What lies below a location is what listed members lead to. -/
theorem mem_below (h : m.Consistent) :
    j ∈ m.below i ↔
      ∃ s segments, m.ListsAlong i (s :: segments) ∧ i.descend (s :: segments) = j := by
  unfold below
  rw [List.mem_flatMap]
  constructor
  · rintro ⟨k, hk, hj⟩
    obtain ⟨s, hs, rfl⟩ := mem_members.1 hk
    obtain ⟨segments, -, hlists, rfl⟩ := mem_subtree.1 hj
    exact ⟨s, segments, ⟨hs, hlists⟩, rfl⟩
  · rintro ⟨s, segments, hlists, rfl⟩
    refine ⟨i.member s, mem_members.2 ⟨s, hlists.1, rfl⟩, mem_subtree.2 ?_⟩
    exact ⟨segments, h.length_le_size hlists.2, hlists.2, rfl⟩

theorem mem_below_member (h : m.Consistent) (hp : p ∈ m.below i) (hs : s ∈ (m.cell p).members) :
    p.member s ∈ m.below i := by
  obtain ⟨t, segments, hlists, rfl⟩ := h.mem_below.1 hp
  refine h.mem_below.2 ⟨t, segments ++ [s], ?_, ?_⟩
  · rw [← List.cons_append, listsAlong_append]
    exact ⟨hlists, hs, trivial⟩
  · rw [← List.cons_append, Index.descend_append]
    rfl

/-- Nothing lies below a location but what its members contain. -/
theorem contains_of_mem_below (h : m.Consistent) (hj : j ∈ m.below i) :
    ∃ s ∈ (m.cell i).members, (i.member s).Contains j := by
  obtain ⟨s, segments, hlists, rfl⟩ := h.mem_below.1 hj
  exact ⟨s, hlists.1, segments, rfl⟩

end Consistent

theorem mem_members_discard : s ∈ ((m.discard gone).cell i).members ↔
    s ∈ (m.cell i).members ∧ gone i = false ∧ gone (i.member s) = false := by
  rw [members_discard]
  split
  · next hg => simp [hg]
  · next hg =>
    rw [OrdSet.mem_filter]
    simp [hg]

/-- Where everything listed below what is removed is removed, too, a way down that leads to what is
left is still there. -/
theorem ListsAlong.discard
    (hclosed : ∀ p s, s ∈ (m.cell p).members → gone p = true → gone (p.member s) = true)
    (h : m.ListsAlong i segments) (hg : gone (i.descend segments) = false) :
    gone i = false ∧ (m.discard gone).ListsAlong i segments := by
  induction segments generalizing i with
  | nil => exact ⟨hg, trivial⟩
  | cons s segments ih =>
    obtain ⟨hmember, hlists⟩ := ih h.2 hg
    have hi : gone i = false := by
      rw [← Bool.not_eq_true]
      intro hi
      exact nomatch hmember.symm.trans (hclosed i s h.1 hi)
    exact ⟨hi, mem_members_discard.2 ⟨h.1, hi, hmember⟩, hlists⟩

theorem ListsAlong.of_discard (h : (m.discard gone).ListsAlong i segments) :
    m.ListsAlong i segments := by
  induction segments generalizing i with
  | nil => trivial
  | cons s segments ih => exact ⟨(mem_members_discard.1 h.1).1, ih h.2⟩

theorem Consistent.mem_below_discard (h : m.Consistent)
    (hclosed : ∀ p s, s ∈ (m.cell p).members → gone p = true → gone (p.member s) = true) :
    gone j = true ∨ j ∈ (m.discard gone).below i ↔ gone j = true ∨ j ∈ m.below i := by
  rw [(consistent_discard h gone).mem_below, h.mem_below]
  constructor
  · rintro (hj | ⟨s, segments, hlists, hj⟩)
    · exact .inl hj
    · exact .inr ⟨s, segments, hlists.of_discard, hj⟩
  · rintro (hj | ⟨s, segments, hlists, rfl⟩)
    · exact .inl hj
    · cases hg : gone (i.descend (s :: segments)) with
      | true => exact .inl rfl
      | false => exact .inr ⟨s, segments, (hlists.discard hclosed hg).2, rfl⟩

/-- Which locations are to go matters where something is defined only: nothing else is mentioned. -/
theorem Consistent.discard_congr (h : m.Consistent)
    (hsame : ∀ i, m.isDefined i = true → gone i = lost i) : m.discard gone = m.discard lost := by
  have hentry {i : Index} {e : Entry} (he : m.entry? i = some e) : gone i = lost i :=
    hsame i <| isDefined_of_entry? he
  refine ext_parts (fun i => ?_) (fun i => ?_) (fun i => ?_) (fun i s => ?_) (fun id => ?_) rfl
  · rw [isDefined_discard, isDefined_discard]
    exact and_congr_left fun hd => by rw [hsame i hd]
  · rw [entry?_discard, entry?_discard]
    cases he : m.entry? i with
    | none => rw [ite_self, ite_self]
    | some e => rw [hentry he]
  · apply AliasSet.ext_strength?
    intro j
    rw [strength?_discard, strength?_discard]
    cases hs : (m.aliases i).strength? j with
    | none => rw [ite_self, ite_self]
    | some t =>
      rw [hsame i (isDefined_of_strength? hs),
        hsame j (isDefined_of_strength? ((h.symmetric j i).trans hs))]
  · rw [mem_members_discard, mem_members_discard]
    refine and_congr_right fun hs => ?_
    obtain ⟨ha, e, he⟩ := h.member i s hs
    obtain ⟨f, hf, -⟩ := holdsArray_iff.1 ha
    rw [hentry hf, hentry he]
  · rw [object?_discard, object?_discard]
    refine Option.map_congr fun d hd => ?_
    have hfields : (d.fields.filter fun s => !gone ((Index.object id).member s)) =
        d.fields.filter fun s => !lost ((Index.object id).member s) := by
      apply ExtTreeSet.ext_mem
      intro s
      rw [OrdSet.mem_filter, OrdSet.mem_filter]
      refine and_congr_right fun hs => ?_
      obtain ⟨e, he⟩ := h.field id d hd s hs
      rw [hentry he]
    rw [hfields]

theorem discard_eq_of_iff (h : ∀ i, gone i = true ↔ lost i = true) :
    m.discard gone = m.discard lost :=
  congrArg m.discard (funext fun i => Bool.eq_iff_iff.2 (h i))

theorem discard_discard (m : Memory) (gone lost : Index → Bool) :
    (m.discard gone).discard lost = m.discard fun i => gone i || lost i := by
  refine ext_parts (fun i => ?_) (fun i => ?_) (fun i => ?_) (fun i s => ?_) (fun id => ?_) rfl
  · simp only [isDefined_discard, Bool.or_eq_false_iff]
    tauto
  · rw [entry?_discard, entry?_discard, entry?_discard]
    cases gone i <;> cases lost i <;> rfl
  · apply AliasSet.ext_strength?
    intro j
    simp only [strength?_discard]
    cases gone i <;> cases lost i <;> cases gone j <;> cases lost j <;> rfl
  · simp only [mem_members_discard, Bool.or_eq_false_iff]
    tauto
  · rw [object?_discard, object?_discard, object?_discard, Option.map_map]
    refine Option.map_congr fun d _ => ?_
    have hfields : ((d.fields.filter fun s => !gone ((Index.object id).member s)).filter fun s =>
        !lost ((Index.object id).member s)) = d.fields.filter fun s =>
          !(gone ((Index.object id).member s) || lost ((Index.object id).member s)) := by
      apply ExtTreeSet.ext_mem
      intro s
      simp only [OrdSet.mem_filter, Bool.not_or, Bool.and_eq_true, and_assoc]
    show ({ d with fields := _ } : ObjectDescriptor) = { d with fields := _ }
    rw [hfields]

/-- What lies below a location is the same as long as nothing there is removed. -/
theorem subtree_discard {depth : Nat} (hg : ∀ j, i.Contains j → gone j = false) :
    (m.discard gone).subtree depth i = m.subtree depth i := by
  induction depth generalizing i with
  | zero => rfl
  | succ depth ih =>
    have hmembers : (m.discard gone).members i = m.members i := by
      have hlist : ((m.discard gone).cell i).members = (m.cell i).members := by
        apply ExtTreeSet.ext_mem
        intro s
        rw [mem_members_discard]
        exact and_iff_left ⟨hg i (Index.contains_refl i), hg _ (Index.contains_member i s)⟩
      unfold members
      rw [hlist]
    rw [subtree, subtree, hmembers]
    refine congrArg (i :: ·) (List.flatMap_congr fun k hk => ?_)
    obtain ⟨s, -, rfl⟩ := mem_members.1 hk
    exact ih fun j hj => hg j ((Index.contains_member i s).trans hj)

end Memory
end ScriptMemory
