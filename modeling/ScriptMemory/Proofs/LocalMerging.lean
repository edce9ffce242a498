import ScriptMemory.Proofs.Memory.Conflation
import ScriptMemory.Proofs.Memory.Filed
import ScriptMemory.Proofs.Merging
import ScriptMemory.Proofs.Reachability

/-! Merging one location. Where nothing is in the way, merging a location of several snapshots gives
it and everything below it what joining the snapshots gives, with one exception: a snapshot without
an array at some level is not asked what it lacks below. -/
namespace ScriptMemory
open Std

namespace Memory
variable {m : Memory} {o : Index} {segments : List Segment} {s : Segment} {v : Value}
  {sources : List Memory}

/-- An array at the end of a way down from `o` lacks a member. -/
def Lacks (m : Memory) (o : Index) (segments : List Segment) (s : Segment) : Prop :=
  m.ListsAlong o segments ∧ m.holdsArray (o.descend segments) = true ∧
    s ∉ (m.cell (o.descend segments)).members

/-- A join lists what any of the sources lists. -/
theorem listsAlong_join (hne : sources ≠ []) (h : ∀ m ∈ sources, m.Consistent ∧ m.ListedBelow o)
    (level : Nat) :
    (join sources level).ListsAlong o segments ↔ ∃ m ∈ sources, m.ListsAlong o segments := by
  induction segments using List.reverseRecOn with
  | nil =>
    obtain ⟨m, hm⟩ := List.exists_mem_of_ne_nil sources hne
    exact iff_of_true trivial ⟨m, hm, trivial⟩
  | append_singleton segments s ih =>
    rw [listsAlong_append, ih]
    change (_ ∧ (s ∈ ((join sources level).cell (o.descend segments)).members ∧ True)) ↔ _
    rw [mem_members_join, and_true]
    constructor
    · rintro ⟨-, m, hm, hs⟩
      refine ⟨m, hm, listsAlong_append.2 ⟨?_, hs, trivial⟩⟩
      -- what lists a member has an entry, and is listed itself
      obtain ⟨e, he, -⟩ := holdsArray_iff.1 ((h m hm).1.member _ s hs).1
      exact (h m hm).2 segments e he
    · rintro ⟨m, hm, hl⟩
      obtain ⟨hl, hs, -⟩ := listsAlong_append.1 hl
      exact ⟨⟨m, hm, hl⟩, m, hm, hs⟩

/-- What a merge makes of a member is what a join makes of it if nobody takes it to be there who
does not know it. -/
theorem merged_eq_joined_iff (h : ∀ m ∈ sources, m.ListedBelow o) {e f : Entry}
    (he : ∀ v, e.Covers v ↔ (∃ m ∈ sources, m.ListsAlong o (segments ++ [s]) ∧
      (m.entryOrUndefined ((o.descend segments).member s)).Covers v) ∨
      v = .undefined ∧ ∃ m ∈ sources, m.Lacks o segments s)
    (hf : ∀ v, f.Covers v ↔
      ∃ m ∈ sources, (m.entryOrUndefined ((o.descend segments).member s)).Covers v) :
    e = f ↔ (∀ m ∈ sources, m.ListsAlong o (segments ++ [s])) ∨
      (∃ m ∈ sources, m.ListsAlong o (segments ++ [s]) ∧
        .undefined ∈ m.entryOrUndefined ((o.descend segments).member s)) ∨
      ∃ m ∈ sources, m.Lacks o segments s := by
  have hunlisted {m : Memory} (hm : m ∈ sources) (hl : ¬m.ListsAlong o (segments ++ [s]))
      (v : Value) : (m.entryOrUndefined ((o.descend segments).member s)).Covers v ↔
        v = .undefined := by
    rw [(h m hm).entryOrUndefined_eq hl, Entry.covers_undefined]
  constructor
  · rintro rfl
    by_cases hall : ∀ m ∈ sources, m.ListsAlong o (segments ++ [s])
    · exact .inl hall
    · push Not at hall
      obtain ⟨m, hm, hl⟩ := hall
      rcases (he .undefined).1 ((hf .undefined).2 ⟨m, hm, (hunlisted hm hl _).2 rfl⟩) with
        ⟨m, hm, hl, hv⟩ | ⟨-, hlacks⟩
      · exact .inr (.inl ⟨m, hm, hl, (Entry.covers_iff_of_isSolid Value.undefined_isSolid).1 hv⟩)
      · exact .inr (.inr hlacks)
  · intro hcases
    apply Entry.ext_covers
    intro v
    rw [he, hf]
    constructor
    · rintro (⟨m, hm, -, hv⟩ | ⟨rfl, m, hm, hl, -, hs⟩)
      · exact ⟨m, hm, hv⟩
      · exact ⟨m, hm, (hunlisted hm (fun hl => hs (listsAlong_append.1 hl).2.1) _).2 rfl⟩
    · rintro ⟨m, hm, hv⟩
      by_cases hl : m.ListsAlong o (segments ++ [s])
      · exact .inl ⟨m, hm, hl, hv⟩
      · obtain rfl := (hunlisted hm hl v).1 hv
        rcases hcases with hall | ⟨m, hm, hl, hv⟩ | hlacks
        · exact absurd (hall m hm) hl
        · exact .inl ⟨m, hm, hl, Entry.covers_of_mem hv⟩
        · exact .inr ⟨rfl, hlacks⟩

section
variable (h : ∀ m ∈ sources, m.Consistent)
include h

/-- The members that several memories list below `o` together hold what each of them holds there,
and may be undefined if an array lacks them. -/
theorem covers_memberEntry_along : (ArraySource.memberEntry
      (ArraySource.along (imagesOf sources o) segments) s).Covers v ↔
    (∃ m ∈ sources, m.ListsAlong o (segments ++ [s]) ∧
      (m.entryOrUndefined ((o.descend segments).member s)).Covers v) ∨
    v = .undefined ∧ ∃ m ∈ sources, m.Lacks o segments s := by
  rw [ArraySource.covers_memberEntry]
  refine or_congr ⟨?_, ?_⟩ (and_congr_right fun _ => ⟨?_, ?_⟩)
  · rintro ⟨a, ha, hs, hv⟩
    obtain ⟨m, hm, hlists, -, rfl⟩ := (mem_along_imagesOf h).1 ha
    exact ⟨m, hm, listsAlong_append.2 ⟨hlists, hs, trivial⟩, hv⟩
  · rintro ⟨m, hm, hlists, hv⟩
    obtain ⟨hlists, hs, -⟩ := listsAlong_append.1 hlists
    exact ⟨_, (mem_along_imagesOf h).2 ⟨m, hm, hlists, ((h m hm).member _ s hs).1, rfl⟩, hs, hv⟩
  · rintro ⟨a, ha, hs⟩
    obtain ⟨m, hm, hlists, hholds, rfl⟩ := (mem_along_imagesOf h).1 ha
    exact ⟨m, hm, hlists, hholds, hs⟩
  · rintro ⟨m, hm, hlists, hholds, hs⟩
    exact ⟨_, (mem_along_imagesOf h).2 ⟨m, hm, hlists, hholds, rfl⟩, hs⟩

/-- Arrays stay where they are, since all of them come from one location. -/
theorem incoming_memberEntry_along : Draft.incoming ((o.descend segments).member s)
      (ArraySource.memberEntry (ArraySource.along (imagesOf sources o) segments) s)
      (!(ArraySource.memberArrays (ArraySource.along (imagesOf sources o) segments) s).isEmpty) =
    ArraySource.memberEntry (ArraySource.along (imagesOf sources o) segments) s := by
  have hsolid (k : Index) : .array k ∈ ArraySource.memberEntry
      (ArraySource.along (imagesOf sources o) segments) s ↔ ∃ m ∈ sources,
        m.ListsAlong o (segments ++ [s]) ∧
          .array k ∈ m.entryOrUndefined ((o.descend segments).member s) := by
    rw [← Entry.covers_iff_of_isSolid (Value.array_isSolid k), covers_memberEntry_along h,
      or_iff_left fun hv => nomatch hv.1]
    simp only [Entry.covers_iff_of_isSolid (Value.array_isSolid k)]
  apply Draft.incoming_eq_self
  · intro k hk
    obtain ⟨m, hm, -, hk⟩ := (hsolid k).1 hk
    exact ((h m hm).held_entryOrUndefined _ _ hk).2 k rfl
  · rw [Bool.not_eq_true', List.isEmpty_eq_false_iff_exists_mem, hsolid]
    constructor
    · rintro ⟨b, hb⟩
      obtain ⟨a, ha, hs, hholds, rfl⟩ := ArraySource.mem_memberArrays.1 hb
      obtain ⟨m, hm, hlists, -, rfl⟩ := (mem_along_imagesOf h).1 ha
      rw [holdsArray_eq_contains, Entry.contains_eq_true] at hholds
      exact ⟨m, hm, listsAlong_append.2 ⟨hlists, hs, trivial⟩, hholds⟩
    · rintro ⟨m, hm, hlists, hk⟩
      obtain ⟨hlists, hs, -⟩ := listsAlong_append.1 hlists
      rw [← Entry.contains_eq_true, ← holdsArray_eq_contains] at hk
      exact ⟨_, ArraySource.mem_memberArrays.2 ⟨_, (mem_along_imagesOf h).2
        ⟨m, hm, hlists, ((h m hm).member _ s hs).1, rfl⟩, hs, hk, rfl⟩⟩

end

/-- What several memories hold at `o` together. -/
def heldTogether (sources : List Memory) (o : Index) : Entry :=
  (sources.map (·.entryOrUndefined o)).foldl Entry.join ∅

theorem covers_heldTogether : (heldTogether sources o).Covers v ↔
    ∃ m ∈ sources, (m.entryOrUndefined o).Covers v := by
  unfold heldTogether
  rw [Entry.covers_foldl_join, or_iff_right Entry.not_covers_empty]
  simp only [List.mem_map, exists_exists_and_eq_and]

theorem belongs_heldTogether (h : ∀ m ∈ sources, m.Filed) :
    (heldTogether sources o).All (Value.Belongs o) := by
  refine Entry.all_foldl_join Entry.all_empty fun e he => ?_
  obtain ⟨m, hm, rfl⟩ := List.mem_map.1 he
  exact (h m hm).held_entryOrUndefined o

end Memory

namespace Draft
open Memory
variable {d : Draft} {o : Index} {sources : List Memory} {segments : List Segment} {s : Segment}
  {v : Value}

/-- What lies at `o` and below after several memories have been merged there. -/
structure MergedAt (d : Draft) (o : Index) (sources : List Memory) : Prop where
  own : d.memory.entry? o = some (heldTogether sources o)
  listsAlong_iff : ∀ segments, d.memory.ListsAlong o segments ↔
    ∃ m ∈ sources, m.ListsAlong o segments
  entry : ∀ segments s, (∃ m ∈ sources, m.ListsAlong o (segments ++ [s])) → ∃ e,
    d.memory.entry? ((o.descend segments).member s) = some e ∧ ∀ v, e.Covers v ↔
      (∃ m ∈ sources, m.ListsAlong o (segments ++ [s]) ∧
        (m.entryOrUndefined ((o.descend segments).member s)).Covers v) ∨
      v = .undefined ∧ ∃ m ∈ sources, m.Lacks o segments s

/-- Aliases do not matter. -/
theorem MergedAt.of_realias (h : d.MergedAt o sources) (a : AliasSet) :
    ({ memory := d.memory.realias o a, limit := none } : Draft).MergedAt o sources where
  own := (entry?_realias ..).trans h.own
  listsAlong_iff := by
    intro segments
    rw [← h.listsAlong_iff]
    exact listsAlong_congr fun j _ => members_realias ..
  entry := by
    intro segments s hlists
    obtain ⟨e, he, hcovers⟩ := h.entry segments s hlists
    exact ⟨e, (entry?_realias ..).trans he, hcovers⟩

theorem mergedAt_store (hlimit : d.limit = none) (h : d.memory.Consistent) (hne : sources ≠ [])
    (hsources : ∀ m ∈ sources, m.Filed)
    (hnone : ∀ j, o.Contains j → d.memory.isDefined j = false) :
    (d.store o (heldTogether sources o) (imagesOf sources o) true).MergedAt o sources := by
  have hconsistent : ∀ m ∈ sources, m.Consistent := fun m hm => (hsources m hm).toConsistent
  have hbelongs := belongs_heldTogether hsources (o := o)
  have hbare : ∀ t, ∀ j, (o.member t).Contains j →
      Memory.entry? (d.memory.clearMembers o) j = none := by
    intro t j hj
    have hundefined := entry?_of_not_isDefined (hnone j ((Index.contains_member o t).trans hj))
    exact (entry?_clearMembers_cases d.memory o j).elim id fun heq => heq.trans hundefined
  have hobject : ∀ t ∈ ArraySource.allSegments (imagesOf sources o), ∀ id, o ≠ .object id := by
    rintro t ht id rfl
    obtain ⟨a, ha, ht⟩ := ArraySource.mem_allSegments_iff.1 ht
    obtain ⟨m, hm, -, rfl⟩ := mem_imagesOf.1 ha
    change t ∈ (m.cell (.object id)).members at ht
    rw [(hsources m hm).members_object id] at ht
    exact ExtTreeSet.not_mem_empty ht
  obtain ⟨hbelow, hown⟩ := conflates_store h (fun v hv => (hbelongs v hv).1)
    (owned_of_mem_imagesOf hconsistent) hobject hbare
  have hlimit' : (d.store o (heldTogether sources o) (imagesOf sources o) true).limit = none :=
    (writtenBelow_store h (fun v hv => (hbelongs v hv).1)
      (fun a ha => (owned_of_mem_imagesOf hconsistent a ha).isData) o true).limit_eq.trans hlimit
  generalize d.store o (heldTogether sources o) (imagesOf sources o) true = d' at *
  constructor
  · rw [hown, fit_of_limit hlimit, incoming_eq_self (fun k hk => (hbelongs _ hk).2 k rfl)]
    rw [Bool.not_eq_true', List.isEmpty_eq_false_iff_exists_mem,
      ← Entry.covers_iff_of_isSolid (Value.array_isSolid o), covers_heldTogether]
    simp only [mem_imagesOf, Entry.covers_iff_of_isSolid (Value.array_isSolid o),
      holdsArray_eq_contains, Entry.contains_eq_true]
    constructor
    · rintro ⟨-, m, hm, ho, -⟩
      exact ⟨m, hm, ho⟩
    · rintro ⟨m, hm, ho⟩
      exact ⟨_, m, hm, ho, rfl⟩
  · intro segments
    induction segments using List.reverseRecOn with
    | nil =>
      obtain ⟨m, hm⟩ := List.exists_mem_of_ne_nil sources hne
      exact iff_of_true trivial ⟨m, hm, trivial⟩
    | append_singleton segments s ih =>
      rw [listsAlong_append, ih]
      change (_ ∧ (s ∈ (d'.memory.cell (o.descend segments)).members ∧ True)) ↔ _
      rw [hbelow.members, mem_allSegments_along hconsistent, and_true, and_iff_right_iff_imp]
      rintro ⟨m, hm, hlists⟩
      exact ⟨m, hm, (listsAlong_append.1 hlists).1⟩
  · intro segments s hlists
    refine ⟨_, ?_, fun v => covers_memberEntry_along hconsistent⟩
    rw [hbelow.entry, if_pos ((mem_allSegments_along hconsistent).2 hlists), conflated,
      fit_of_limit hlimit', incoming_memberEntry_along hconsistent]

end Draft

namespace Edit
open Memory
variable {o : Index} {sources : List Memory}

theorem mergeInto_run (hne : sources ≠ []) (hsources : ∀ m ∈ sources, m.Filed) (d : Draft) :
    ∃ a, (mergeInto o (sources.map (o, ·))).run d = .ok ()
      ((d.store o (heldTogether sources o) (imagesOf sources o) true).update (·.realias o a)) := by
  have harrays : (sources.map (o, ·)).flatMap
      (fun x => ArraySource.ofEntry x.2 (x.2.entryOrUndefined x.1)) = imagesOf sources o := by
    rw [List.flatMap_map]
    exact List.flatMap_congr fun m hm =>
      ArraySource.ofEntry_entryOrUndefined (hsources m hm).toConsistent o
  have hheld : ((sources.map (o, ·)).map fun x => x.2.entryOrUndefined x.1).foldl Entry.join ∅ =
      heldTogether sources o := by
    rw [List.map_map]
    rfl
  refine ⟨AliasSet.merge ((sources.map (o, ·)).map fun x => x.2.aliases x.1), ?_⟩
  unfold mergeInto
  rw [if_neg (by simpa using hne), ← harrays, ← hheld]
  rfl

end Edit

namespace Snapshot
open Memory
variable {o : Index} {sources : List Snapshot} {receiver fresh : Snapshot} {before origin : Memory}
  {level : Nat}

/-- The sources of a merge, a single one twice. -/
def twiceIfAlone : List Snapshot → List Snapshot
  | [s] => [s, s]
  | sources => sources

theorem mem_twiceIfAlone {s : Snapshot} : s ∈ twiceIfAlone sources ↔ s ∈ sources := by
  unfold twiceIfAlone
  split <;> simp

theorem Reachable.filed {s : Snapshot} (h : Reachable s) : s.memory.Filed :=
  (h.upholds filed_durable).memory

/-- Sources of one level are joined by a receiver without a simplify limit. -/
theorem extend_twiceIfAlone_run (hne : sources ≠ [])
    (hlevel : ∀ s ∈ sources, s.memory.level = level) (hopen : fresh.phase = .open origin)
    (hlimit : fresh.limits.simplify = none) :
    ∃ u, (extend (twiceIfAlone sources)).run fresh = .ok () u ∧
      u.memory = join ((twiceIfAlone sources).map (·.memory)) level := by
  have hne' : twiceIfAlone sources ≠ [] := by
    obtain ⟨s, hs⟩ := List.exists_mem_of_ne_nil sources hne
    exact List.ne_nil_of_mem (mem_twiceIfAlone.2 hs)
  obtain ⟨u, hu, hmemory⟩ :=
    extend_run hne' (fun s hs => hlevel s (mem_twiceIfAlone.1 hs)) hopen
  refine ⟨u, hu, ?_⟩
  rw [hmemory, hlimit]
  match sources, hne with
  | [s], _ =>
    rw [← hlevel s List.mem_cons_self]
    exact simplified_none _
  | s :: r :: rest, _ =>
    rw [← hlevel s List.mem_cons_self]
    exact simplified_none _

theorem mergeInto_mergedAt (hne : sources ≠ []) (hsources : ∀ s ∈ sources, Reachable s)
    (hreceiver : Reachable receiver) (hopen : receiver.phase = .open before)
    (hlimit : receiver.limits.simplify = none)
    (hnone : ∀ j, o.Contains j → receiver.memory.isDefined j = false) :
    ∃ t, (mergeInto o (sources.map (o, ·))).run receiver = .ok () t ∧
      ({ memory := t.memory, limit := none } : Draft).MergedAt o (sources.map (·.memory)) := by
  have hne' : sources.map (·.memory) ≠ [] := by simpa using hne
  have hfiled : ∀ m ∈ sources.map (·.memory), m.Filed := by
    intro m hm
    obtain ⟨s, hs, rfl⟩ := List.mem_map.1 hm
    exact (hsources s hs).filed
  obtain ⟨a, hrun⟩ := Edit.mergeInto_run (o := o) hne' hfiled
    { memory := receiver.memory, limit := receiver.limits.simplify }
  have hsame : (sources.map (o, ·)).map (fun x => (x.1, x.2.memory)) =
      (sources.map (·.memory)).map (o, ·) := by
    rw [List.map_map, List.map_map]
    rfl
  obtain ⟨t, ht, hmemory⟩ := Transact.mutate_ok .merge hopen hrun
  refine ⟨t, ?_, ?_⟩
  · rw [← hsame] at ht
    exact ht
  · have hmerged := Draft.mergedAt_store (d := ⟨receiver.memory, receiver.limits.simplify, 0⟩)
      hlimit hreceiver.filed.toConsistent hne' hfiled hnone
    rw [hmemory]
    exact hmerged.of_realias a

/-- Merging a location agrees with joining. In an open transaction where nothing is defined at `o`
or below, a location is merged from several snapshots of one level: it then has the entry that the
join of the snapshots has, and lists what any of them lists. A member below holds what the snapshots
that list it hold there, and may be undefined if an array lacks it. So, if the snapshots list
whatever they hold below `o`, a member has the entry that the join gives it exactly if all of them
have the member, or one of them may have it undefined, or the array of one of them lacks it: where
the others hold no array at all, the member is wrongly taken to be always there. -/
theorem mergeInto_agrees_with_extend (hne : sources ≠ []) (hsources : ∀ s ∈ sources, Reachable s)
    (hlevel : ∀ s ∈ sources, s.memory.level = level) (hreceiver : Reachable receiver)
    (hopen : receiver.phase = .open before) (hlimit : receiver.limits.simplify = none)
    (hnone : ∀ j, o.Contains j → receiver.memory.isDefined j = false)
    (hfresh : fresh.phase = .open origin) (hfresh' : fresh.limits.simplify = none) :
    ∃ t u, (mergeInto o (sources.map (o, ·))).run receiver = .ok () t ∧
      (extend (twiceIfAlone sources)).run fresh = .ok () u ∧
      t.memory.entry? o = some (u.memory.entryOrUndefined o) ∧
      (∀ segments, t.memory.ListsAlong o segments ↔
        ∃ s ∈ sources, s.memory.ListsAlong o segments) ∧
      (∀ segments k, t.memory.ListsAlong o (segments ++ [k]) →
        ∃ e, t.memory.entry? ((o.descend segments).member k) = some e ∧ ∀ v, e.Covers v ↔
          (∃ s ∈ sources, s.memory.ListsAlong o (segments ++ [k]) ∧
            (s.memory.entryOrUndefined ((o.descend segments).member k)).Covers v) ∨
          v = .undefined ∧ ∃ s ∈ sources, s.memory.Lacks o segments k) ∧
      ((∀ s ∈ sources, s.memory.ListedBelow o) →
        (∀ segments, u.memory.ListsAlong o segments ↔ t.memory.ListsAlong o segments) ∧
        ∀ segments k, t.memory.ListsAlong o (segments ++ [k]) →
          (t.memory.entry? ((o.descend segments).member k) =
              u.memory.entry? ((o.descend segments).member k) ↔
            (∀ s ∈ sources, s.memory.ListsAlong o (segments ++ [k])) ∨
            (∃ s ∈ sources, s.memory.ListsAlong o (segments ++ [k]) ∧
              .undefined ∈ s.memory.entryOrUndefined ((o.descend segments).member k)) ∨
            ∃ s ∈ sources, s.memory.Lacks o segments k)) := by
  obtain ⟨t, ht, hmerged⟩ := mergeInto_mergedAt hne hsources hreceiver hopen hlimit hnone
  obtain ⟨u, hu, hjoin⟩ := extend_twiceIfAlone_run hne hlevel hfresh hfresh'
  have hmem (m : Memory) :
      m ∈ (twiceIfAlone sources).map (·.memory) ↔ ∃ s ∈ sources, s.memory = m := by
    simp only [List.mem_map, mem_twiceIfAlone]
  have hsome : (twiceIfAlone sources).map (·.memory) ≠ [] := by
    obtain ⟨s, hs⟩ := List.exists_mem_of_ne_nil sources hne
    exact List.ne_nil_of_mem ((hmem _).2 ⟨s, hs, rfl⟩)
  have hcovers (j : Index) (v : Value) : (u.memory.entryOrUndefined j).Covers v ↔
      ∃ s ∈ sources, (s.memory.entryOrUndefined j).Covers v := by
    rw [hjoin, covers_entry_join hsome]
    simp only [hmem, exists_exists_and_eq_and]
  have hdefined {j : Index} {s : Snapshot} {e : Entry} (hs : s ∈ sources)
      (he : s.memory.entry? j = some e) :
      u.memory.entry? j = some (u.memory.entryOrUndefined j) := by
    have hj : ∃ m ∈ (twiceIfAlone sources).map (·.memory), m.isDefined j = true :=
      ⟨_, (hmem _).2 ⟨s, hs, rfl⟩, isDefined_of_entry? he⟩
    unfold entryOrUndefined
    rw [hjoin, entry?_join, if_pos hj]
    rfl
  have hlists (segments : List Segment) : t.memory.ListsAlong o segments ↔
      ∃ s ∈ sources, s.memory.ListsAlong o segments := by
    rw [hmerged.listsAlong_iff]
    simp only [List.mem_map, exists_exists_and_eq_and]
  have hentry (segments : List Segment) (k : Segment)
      (hl : t.memory.ListsAlong o (segments ++ [k])) :
      ∃ e, t.memory.entry? ((o.descend segments).member k) = some e ∧ ∀ v, e.Covers v ↔
        (∃ s ∈ sources, s.memory.ListsAlong o (segments ++ [k]) ∧
          (s.memory.entryOrUndefined ((o.descend segments).member k)).Covers v) ∨
        v = .undefined ∧ ∃ s ∈ sources, s.memory.Lacks o segments k := by
    obtain ⟨e, he, hv⟩ := hmerged.entry segments k ((hmerged.listsAlong_iff _).1 hl)
    refine ⟨e, he, fun v => (hv v).trans ?_⟩
    simp only [List.mem_map, exists_exists_and_eq_and]
  refine ⟨t, u, ht, hu, ?_, hlists, hentry, fun hlisted => ⟨fun segments => ?_, ?_⟩⟩
  · rw [hmerged.own, Option.some_inj]
    apply Entry.ext_covers
    intro v
    rw [covers_heldTogether, hcovers]
    simp only [List.mem_map, exists_exists_and_eq_and]
  · have hconsistent : ∀ m ∈ (twiceIfAlone sources).map (·.memory),
        m.Consistent ∧ m.ListedBelow o := by
      intro m hm
      obtain ⟨s, hs, rfl⟩ := (hmem m).1 hm
      exact ⟨(hsources s hs).filed.toConsistent, hlisted s hs⟩
    rw [hjoin, listsAlong_join hsome hconsistent, hlists]
    simp only [hmem, exists_exists_and_eq_and]
  · intro segments k hl
    obtain ⟨e, he, hv⟩ := hentry segments k hl
    obtain ⟨s, hs, hls⟩ := (hlists _).1 hl
    obtain ⟨f, hf⟩ := (hsources s hs).filed.toConsistent.entry?_of_listsAlong hls
    have hlisted' : ∀ m ∈ sources.map (·.memory), m.ListedBelow o := List.forall_mem_map.2 hlisted
    rw [he, hdefined hs hf, Option.some_inj, merged_eq_joined_iff hlisted'
      (by simpa only [List.mem_map, exists_exists_and_eq_and] using hv)
      (by simpa only [List.mem_map, exists_exists_and_eq_and] using hcovers _)]
    simp only [List.mem_map, forall_exists_index, and_imp, forall_apply_eq_imp_iff₂,
      exists_exists_and_eq_and]

end Snapshot

namespace Sample

/-- A script that has assigned a number to a path. -/
def assigned (p : Path) (n : Int64) : Snapshot :=
  let ops : List Operation :=
    [.start, .change (.assign p (.ofValue (.scalar (.integer n))) false), .commit]
  ops.foldl Snapshot.after {}

theorem reachable_assigned (p : Path) (n : Int64) : (assigned p n).Reachable :=
  (Snapshot.Reachable.blank {}).foldl (by simp [Operation.sources, Mutation.sources])

/-- A script that has begun with its first transaction. -/
def begun : Snapshot :=
  Snapshot.after {} .start

end Sample

namespace Snapshot
open Memory

set_option maxRecDepth 20000 in
/-- Each of two branches sets a member that the other one lacks. -/
theorem mergeInto_agrees_with_extend_members :
    let a : Index := .ofVariable "a" .global
    let one : Segment := .key (.integer 1)
    let two : Segment := .key (.integer 2)
    let sources := [Sample.assigned ((Path.ofVariable "a").member one) 7,
      Sample.assigned ((Path.ofVariable "a").member two) 5]
    ∃ t u, (mergeInto a (sources.map (a, ·))).run Sample.begun = .ok () t ∧
      (extend (twiceIfAlone sources)).run Sample.begun = .ok () u ∧
      t.memory.entry? (a.member one) = u.memory.entry? (a.member one) ∧
      .undefined ∈ t.memory.entryOrUndefined (a.member one) := by
  intro a one two sources
  have hreachable : ∀ s ∈ sources, Reachable s := by
    intro s hs
    rcases List.mem_cons.1 hs with rfl | hs
    · exact Sample.reachable_assigned ..
    · rw [List.mem_singleton.1 hs]
      exact Sample.reachable_assigned ..
  have hbegun : Reachable Sample.begun := (Reachable.blank {}).after .start nofun
  have hnone : ∀ j, a.Contains j → Sample.begun.memory.isDefined j = false := by
    intro j hj
    rw [Bool.eq_false_iff]
    intro hd
    rcases (isDefined_insert (m := {}) .diagnostics j).1 hd with rfl | hd
    · cases hj.base_eq
    · cases hd
  have hlisted : ∀ s ∈ sources, s.memory.ListedBelow a := fun s hs =>
    .of_keys (hreachable s hs).filed.toConsistent (by revert s; decide +kernel)
  have hlevel : ∀ s ∈ sources, s.memory.level = 0 := by decide +kernel
  have hopen : Sample.begun.phase = .open .initial := by decide +kernel
  have hlimit : Sample.begun.limits.simplify = none := by decide +kernel
  obtain ⟨t, u, ht, hu, -, hlists, hentry, hagree⟩ := mergeInto_agrees_with_extend (o := a)
    (List.cons_ne_nil _ _) hreachable hlevel hbegun hopen hlimit hnone hopen hlimit
  have hone : t.memory.ListsAlong a ([] ++ [one]) := (hlists _).2
    ⟨_, List.mem_cons_self, ExtTreeSet.contains_iff_mem.1 (by decide +kernel), trivial⟩
  have hlacks : ∃ s ∈ sources, s.memory.Lacks a [] one :=
    ⟨_, List.mem_cons_of_mem _ List.mem_cons_self, trivial, by decide +kernel, by decide +kernel⟩
  obtain ⟨e, he, hcovers⟩ := hentry [] one hone
  refine ⟨t, u, ht, hu, ((hagree hlisted).2 [] one hone).2 (.inr (.inr hlacks)), ?_⟩
  have hmember : t.memory.entryOrUndefined (a.member one) = e := entryOrUndefined_of_some he
  rw [hmember, ← Entry.covers_iff_of_isSolid Value.undefined_isSolid]
  exact (hcovers .undefined).2 (.inr ⟨rfl, hlacks⟩)

set_option maxRecDepth 20000 in
/-- One branch sets a member, another one a number. Merged at the variable, the member is taken to
be always there; joined, it may be undefined. -/
theorem mergeInto_forgets_absence :
    let a : Index := .ofVariable "a" .global
    let one : Segment := .key (.integer 1)
    let sources := [Sample.assigned ((Path.ofVariable "a").member one) 5,
      Sample.assigned (.ofVariable "a") 3]
    let merged := (mergeInto a (sources.map (a, ·))).run Sample.begun
    let joined := (extend (twiceIfAlone sources)).run Sample.begun
    (∀ s ∈ sources, Reachable s ∧ s.memory.level = 0) ∧ Reachable Sample.begun ∧
      failure? merged = none ∧ failure? joined = none ∧
      (left merged).memory.entry? (a.member one) = some (.ofValue (.scalar (.integer 5))) ∧
      (left joined).memory.entry? (a.member one) =
        some (.ofList [.undefined, .scalar (.integer 5)]) := by
  intro a one sources merged joined
  refine ⟨?_, (Reachable.blank {}).after .start nofun, by decide +kernel, by decide +kernel,
    by decide +kernel, by decide +kernel⟩
  intro s hs
  refine ⟨?_, by revert s; decide +kernel⟩
  rcases List.mem_cons.1 hs with rfl | hs
  · exact Sample.reachable_assigned ..
  · rw [List.mem_singleton.1 hs]
    exact Sample.reachable_assigned ..

end Snapshot
end ScriptMemory
