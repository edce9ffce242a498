import ScriptMemory.Proofs.Memory.Join
import ScriptMemory.Proofs.Transaction

/-! Taking over the memory of several snapshots. Where sources give one class to each object, the
result is a join: order, repetition and grouping of the sources do not matter. It keeps whatever a
source has stored, but not everything that a source reads at a location that it does not define. -/
namespace ScriptMemory
open Std

namespace Snapshot
open Memory
variable {sources : List Snapshot} {receiver s t : Snapshot} {before : Memory} {level : Nat}

/-- In an open transaction sources of one level are taken over, whatever was there before. -/
theorem extend_run (hne : sources ≠ []) (hlevel : ∀ s ∈ sources, s.memory.level = level)
    (hopen : receiver.phase = .open before) :
    ∃ t, (extend sources).run receiver = .ok () t ∧
      t.memory = takenOver receiver.limits.simplify (sources.map (·.memory)) := by
  have hne' : sources.map (·.memory) ≠ [] := by simpa using hne
  have hlevel' : ∀ m ∈ sources.map (·.memory), m.level = level := by
    intro m hm
    obtain ⟨s, hs, rfl⟩ := List.mem_map.1 hm
    exact hlevel s hs
  obtain ⟨d, hd, -, hrun⟩ := Edit.extend_run hne' hlevel' receiver.limits.simplify
  have hmutate := Transact.mutate_run .extend (Edit.extend (sources.map (·.memory))) hopen
  rw [hrun receiver.memory] at hmutate
  exact ⟨_, hmutate, hd⟩

/-- Only sources of one level are taken over, and there has to be one. -/
theorem of_extend_run (hopen : receiver.phase = .open before)
    (hrun : (extend sources).run receiver = .ok () t) :
    sources ≠ [] ∧ (∃ level, ∀ s ∈ sources, s.memory.level = level) ∧
      t.memory = takenOver receiver.limits.simplify (sources.map (·.memory)) := by
  cases sources with
  | nil =>
    have hmutate := Transact.mutate_run .extend (Edit.extend []) hopen
    have herror := hmutate.symm.trans hrun
    cases herror
  | cons first rest =>
    have hlevel : ∀ s ∈ first :: rest, s.memory.level = first.memory.level := by
      intro s hs
      by_cases hsame : s.memory.level = first.memory.level
      · exact hsame
      · -- a source of another level would have been refused
        have hrest : s ∈ rest := by
          rcases List.mem_cons.1 hs with rfl | hs
          · exact absurd rfl hsame
          · exact hs
        have hother : ∃ m ∈ rest.map (·.memory), m.level ≠ first.memory.level :=
          ⟨s.memory, List.mem_map.2 ⟨s, hrest, rfl⟩, hsame⟩
        obtain ⟨found, hmismatch⟩ := Edit.extend_run_mismatch hother
          { memory := receiver.memory, limit := receiver.limits.simplify }
        have hmutate := Transact.mutate_run .extend
          (Edit.extend ((first :: rest).map (·.memory))) hopen
        rw [List.map_cons, hmismatch] at hmutate
        have herror := hmutate.symm.trans hrun
        cases herror
    refine ⟨List.cons_ne_nil _ _, ⟨_, hlevel⟩, ?_⟩
    obtain ⟨u, hu, hmemory⟩ := extend_run (List.cons_ne_nil _ _) hlevel hopen
    have htu : EStateM.Result.ok () t = EStateM.Result.ok () u := hrun.symm.trans hu
    cases htu
    exact hmemory

/-- The snapshot has been merged from the listed ones, all at once or by way of partial merges into
receivers without a simplify limit. -/
inductive MergedFrom : List Snapshot → Snapshot → Prop where
  | source (s : Snapshot) : MergedFrom [s] s
  | extend {parts : List (List Snapshot × Snapshot)} {receiver t u : Snapshot} {before : Memory} :
    (∀ x ∈ parts, MergedFrom x.1 x.2) → receiver.phase = .open before →
    receiver.limits.simplify = none →
    (Snapshot.extend (parts.map (·.2))).run receiver = .ok () t → u.memory = t.memory →
    MergedFrom (parts.flatMap (·.1)) u

/-- Snapshots of one level whose memories have entries everywhere and agree on classes. -/
structure Mergeable (level : Nat) (origins : List Snapshot) : Prop where
  level_eq : ∀ s ∈ origins, s.memory.level = level
  hasEntries : ∀ s ∈ origins, s.memory.HasEntries
  classesAgree : ClassesAgree (origins.map (·.memory))

variable {origins : List Snapshot}

/-- Joins of memories that agree on classes agree on classes. -/
theorem classesAgree_of_isJoin (h : ClassesAgree (origins.map (·.memory)))
    {parts : List (List Snapshot × Snapshot)} (hsub : ∀ x ∈ parts, x.1 ⊆ origins)
    (hparts : ∀ x ∈ parts, IsJoin (x.1.map (·.memory)) x.2.memory) :
    ClassesAgree (parts.map (·.2.memory)) := by
  -- the class of an object in a part is the class it has in some origin of the part
  have horigin : ∀ x ∈ parts, ∀ (id : ObjectId) (d : ObjectDescriptor),
      x.2.memory.objects[id]? = some d →
      ∃ s ∈ origins, ∃ d', s.memory.objects[id]? = some d' ∧ d'.className = d.className := by
    intro x hx id d hd
    obtain ⟨m, hm, d', hd'⟩ := ((hparts x hx).object_iff id).1 ⟨d, hd⟩
    have hclass := (hparts x hx).className_eq id d hd m hm d' hd'
    obtain ⟨s, hs, rfl⟩ := List.mem_map.1 hm
    exact ⟨s, hsub x hx hs, d', hd', hclass⟩
  intro m hm n hn id d d' hd hd'
  obtain ⟨x, hx, rfl⟩ := List.mem_map.1 hm
  obtain ⟨y, hy, rfl⟩ := List.mem_map.1 hn
  obtain ⟨s, hs, ds, hds, hclass⟩ := horigin x hx id d hd
  obtain ⟨r, hr, dr, hdr, hclass'⟩ := horigin y hy id d' hd'
  have hsame := h _ (List.mem_map.2 ⟨s, hs, rfl⟩) _ (List.mem_map.2 ⟨r, hr, rfl⟩) id ds dr hds hdr
  rw [← hclass, hsame, hclass']

/-- A snapshot merged from mergeable ones holds their join. -/
theorem MergedFrom.isJoin (hm : Mergeable level origins) (h : MergedFrom sources s)
    (hsub : sources ⊆ origins) :
    sources ≠ [] ∧ IsJoin (sources.map (·.memory)) s.memory := by
  induction h with
  | source s =>
    have hs : s ∈ origins := hsub List.mem_cons_self
    exact ⟨List.cons_ne_nil _ _, isJoin_singleton (hm.hasEntries s hs)⟩
  | @extend parts receiver t u before _ hopen hlimit hrun hmemory ih =>
    have hparts : ∀ x ∈ parts, x.1 ≠ [] ∧ IsJoin (x.1.map (·.memory)) x.2.memory := fun x hx =>
      ih x hx fun s hs => hsub (List.mem_flatMap.2 ⟨x, hx, hs⟩)
    obtain ⟨hne, -, htaken⟩ := of_extend_run hopen hrun
    have hne' : parts ≠ [] := by simpa using hne
    -- the parts are mergeable in turn
    have hlevel : ∀ m ∈ parts.map (·.2.memory), m.level = level := by
      intro m hm'
      obtain ⟨x, hx, rfl⟩ := List.mem_map.1 hm'
      obtain ⟨s, hs⟩ := List.exists_mem_of_ne_nil x.1 (hparts x hx).1
      rw [← (hparts x hx).2.level_eq s.memory (List.mem_map.2 ⟨s, hs, rfl⟩)]
      exact hm.level_eq s (hsub (List.mem_flatMap.2 ⟨x, hx, hs⟩))
    have hclasses : ClassesAgree (parts.map (·.2.memory)) :=
      classesAgree_of_isJoin hm.classesAgree
        (fun x hx s hs => hsub (List.mem_flatMap.2 ⟨x, hx, hs⟩)) fun x hx => (hparts x hx).2
    have hentries : ∀ m ∈ parts.map (·.2.memory), m.HasEntries := by
      intro m hm'
      obtain ⟨x, hx, rfl⟩ := List.mem_map.1 hm'
      exact (hparts x hx).2.hasEntries
    have hjoin : IsJoin (parts.map (·.2.memory)) u.memory := by
      rw [hmemory, htaken, hlimit, List.map_map]
      exact isJoin_takenOver (by simpa using hne') hentries hclasses hlevel
    constructor
    · obtain ⟨x, hx⟩ := List.exists_mem_of_ne_nil parts hne'
      obtain ⟨s, hs⟩ := List.exists_mem_of_ne_nil x.1 (hparts x hx).1
      exact List.ne_nil_of_mem (List.mem_flatMap.2 ⟨x, hx, hs⟩)
    · let memories (x : List Snapshot × Snapshot) := (x.1.map (·.memory), x.2.memory)
      have hmemories : ∀ y ∈ parts.map memories, IsJoin y.1 y.2 := by
        intro y hy
        obtain ⟨x, hx, rfl⟩ := List.mem_map.1 hy
        exact (hparts x hx).2
      have hjoin' : IsJoin ((parts.map memories).map (·.2)) u.memory := by
        rw [List.map_map]
        exact hjoin
      have hflat := hjoin'.flatten hmemories
      rw [List.flatMap_map] at hflat
      rw [List.map_flatMap]
      exact hflat

/-- Merging is joining. Partial merges of mergeable snapshots can always be merged on, and any two
ways of merging the same snapshots, in whatever order, grouping and multiplicity and into whatever
receivers, end with the same memory. So a snapshot merged with itself has its own memory. -/
theorem merge_is_join (hm : Mergeable level origins) :
    (∀ (parts : List (List Snapshot × Snapshot)) (receiver : Snapshot) (before : Memory),
      parts ≠ [] → (∀ x ∈ parts, MergedFrom x.1 x.2 ∧ x.1 ⊆ origins) →
      receiver.phase = .open before → receiver.limits.simplify = none →
      ∃ t, (extend (parts.map (·.2))).run receiver = .ok () t ∧
        MergedFrom (parts.flatMap (·.1)) t) ∧
    ∀ sources others s t, sources ⊆ origins → (∀ r, r ∈ sources ↔ r ∈ others) →
      MergedFrom sources s → MergedFrom others t → s.memory = t.memory := by
  constructor
  · intro parts receiver before hne hparts hopen hlimit
    have hlevel : ∀ s ∈ parts.map (·.2), s.memory.level = level := by
      intro s hs
      obtain ⟨x, hx, rfl⟩ := List.mem_map.1 hs
      obtain ⟨hmerged, hsub⟩ := hparts x hx
      obtain ⟨hne, hjoin⟩ := hmerged.isJoin hm hsub
      obtain ⟨r, hr⟩ := List.exists_mem_of_ne_nil x.1 hne
      rw [← hjoin.level_eq r.memory (List.mem_map.2 ⟨r, hr, rfl⟩)]
      exact hm.level_eq r (hsub hr)
    obtain ⟨t, hrun, -⟩ := extend_run (by simpa using hne) hlevel hopen
    exact ⟨t, hrun, .extend (fun x hx => (hparts x hx).1) hopen hlimit hrun rfl⟩
  · intro sources others s t hsub hsame hs ht
    have hsub' : others ⊆ origins := fun r hr => hsub ((hsame r).2 hr)
    obtain ⟨hne, hjoin⟩ := hs.isJoin hm hsub
    obtain ⟨-, hjoin'⟩ := ht.isJoin hm hsub'
    apply hjoin.unique hjoin' (by simpa using hne)
    intro m
    simp only [List.mem_map, hsame]

end Snapshot

namespace Sample

/-- The snapshot after one transaction. -/
def session (steps : Transact Unit) : Snapshot :=
  match (do Snapshot.start; steps; discard Snapshot.commit : Transact Unit).run {} with
  | .ok _ s => s
  | .error _ s => s

/-- A snapshot with an open transaction, ready to take over others. -/
def receiver : Snapshot :=
  { phase := .open .initial }

theorem phase_receiver : receiver.phase = .open .initial :=
  rfl

/-- A script that has assigned a number to the member of `$a` that a segment names. -/
def memberSession (s : Segment) (n : Int64) : Snapshot :=
  session (Snapshot.assign ((Path.ofVariable "a").member s) (.ofValue (.scalar (.integer n))) false)

/-- A script that has made an object of a class, always at the same site. -/
def objectSession (className : String) : Snapshot :=
  session (discard (Snapshot.createObject className "site" []))

/-- Some branches of a script: one sets a member, one sets another, one makes an object. -/
def branches : List Snapshot :=
  [memberSession (.key (.integer 1)) 7, memberSession .unknownKey 5, objectSession "A"]

end Sample

namespace Snapshot
open Memory
variable {sources : List Snapshot} {receiver : Snapshot} {before : Memory} {level : Nat}

set_option maxRecDepth 20000 in
/-- The branches merged at once, and merged in another order by way of a merge of two. -/
theorem merge_is_join_branches : Mergeable 0 Sample.branches ∧
    ∃ s t u, (extend Sample.branches).run Sample.receiver = .ok () s ∧
      (extend Sample.branches.tail).run Sample.receiver = .ok () t ∧
      (extend (t :: Sample.branches.reverse)).run Sample.receiver = .ok () u ∧
      s.memory = u.memory := by
  have hm : Mergeable 0 Sample.branches := by
    refine ⟨?_, ?_, ?_⟩
    · decide +kernel
    · decide +kernel
    · decide +kernel
  have hself : ∀ r ∈ Sample.branches, MergedFrom [r] r ∧ [r] ⊆ Sample.branches := by
    intro r hr
    refine ⟨.source r, ?_⟩
    intro q hq
    rwa [List.mem_singleton.1 hq]
  have hsingles {l : List Snapshot} (hl : l ⊆ Sample.branches) :
      ∀ x ∈ l.map fun r => ([r], r), MergedFrom x.1 x.2 ∧ x.1 ⊆ Sample.branches := by
    intro x hx
    obtain ⟨r, hr, rfl⟩ := List.mem_map.1 hx
    exact hself r (hl hr)
  have hmerge := (merge_is_join hm).1
  obtain ⟨s, hs, hs'⟩ := hmerge (Sample.branches.map fun r => ([r], r)) Sample.receiver _
    (List.cons_ne_nil _ _) (hsingles fun _ h => h) rfl rfl
  obtain ⟨t, ht, ht'⟩ := hmerge (Sample.branches.tail.map fun r => ([r], r)) Sample.receiver _
    (List.cons_ne_nil _ _) (hsingles fun _ h => List.mem_of_mem_tail h) rfl rfl
  have hparts : ∀ x ∈ (Sample.branches.tail, t) :: Sample.branches.reverse.map fun r => ([r], r),
      MergedFrom x.1 x.2 ∧ x.1 ⊆ Sample.branches := by
    intro x hx
    rcases List.mem_cons.1 hx with rfl | hx
    · exact ⟨ht', fun _ h => List.mem_of_mem_tail h⟩
    · exact hsingles (fun _ h => List.mem_reverse.1 h) x hx
  obtain ⟨u, hu, hu'⟩ := hmerge _ Sample.receiver _ (List.cons_ne_nil _ _) hparts rfl rfl
  refine ⟨hm, s, t, u, hs, ht, hu, (merge_is_join hm).2 _ _ s u (fun _ h => h) ?_ hs' hu'⟩
  intro r
  change r ∈ Sample.branches ↔ r ∈ Sample.branches.tail ++ Sample.branches.reverse
  rw [List.mem_append, List.mem_reverse]
  exact ⟨.inr, fun h => h.elim List.mem_of_mem_tail id⟩

set_option maxRecDepth 20000 in
/-- Two branches that make objects of different classes at one site are merged to the class of
whichever comes first. -/
theorem merge_depends_on_order :
    (∀ r ∈ [Sample.objectSession "A", Sample.objectSession "B"],
      r.memory.level = 0 ∧ r.memory.HasEntries) ∧
    ∃ s t, (extend [Sample.objectSession "A", Sample.objectSession "B"]).run Sample.receiver =
        .ok () s ∧
      (extend [Sample.objectSession "B", Sample.objectSession "A"]).run Sample.receiver =
        .ok () t ∧
      s.memory.sameStructure t.memory = false := by
  have hlevel : ∀ r ∈ [Sample.objectSession "A", Sample.objectSession "B"],
      r.memory.level = 0 ∧ r.memory.HasEntries := by
    decide +kernel
  have hlevel' : ∀ r ∈ [Sample.objectSession "B", Sample.objectSession "A"],
      r.memory.level = 0 := by
    intro r hr
    have hswap : r ∈ [Sample.objectSession "A", Sample.objectSession "B"] := by
      simpa [or_comm] using hr
    exact (hlevel r hswap).1
  obtain ⟨s, hs, hmemory⟩ := extend_run (List.cons_ne_nil _ _) (fun r hr => (hlevel r hr).1)
    Sample.phase_receiver
  obtain ⟨t, ht, hmemory'⟩ := extend_run (List.cons_ne_nil _ _) hlevel' Sample.phase_receiver
  refine ⟨hlevel, s, t, hs, ht, ?_⟩
  rw [hmemory, hmemory']
  decide +kernel

/-- A merge without a simplify limit always succeeds. Of what a source reads at a location it keeps
what the source has stored there, undefinedness, and everything if no source defines the location:
then the containers answer, which are merged themselves. Any other value is kept only if some source
has it stored there. -/
theorem merge_keeps_readings (hne : sources ≠ []) (hlevel : ∀ s ∈ sources, s.memory.level = level)
    (hopen : receiver.phase = .open before) (hlimit : receiver.limits.simplify = none) :
    ∃ t, (extend sources).run receiver = .ok () t ∧ ∀ s ∈ sources, ∀ i, ∀ v ∈ s.memory.readIndex i,
      (t.memory.readIndex i).Covers v ↔
        (s.memory.entry? i).isSome = true ∨ v = .undefined ∨
          (∀ r ∈ sources, r.memory.isDefined i = false) ∨
          (∃ r ∈ sources, ∃ e, r.memory.entry? i = some e ∧ e.Covers v) ∨ sources = [s] := by
  obtain ⟨t, hrun, hmemory⟩ := extend_run hne hlevel hopen
  refine ⟨t, hrun, ?_⟩
  intro s hs i v hv
  rw [hmemory, hlimit]
  match sources, hs with
  | [r], hs =>
    -- one source is taken over as it is
    rw [List.mem_singleton.1 hs] at hv ⊢
    exact iff_of_true (Entry.covers_of_mem hv) (.inr (.inr (.inr (.inr rfl))))
  | first :: second :: rest, hs =>
    have hjoin : takenOver none ((first :: second :: rest).map (·.memory)) =
        join ((first :: second :: rest).map (·.memory)) first.memory.level := simplified_none _
    rw [hjoin, covers_readIndex_join (List.mem_map.2 ⟨s, hs, rfl⟩) _ hv]
    simp only [List.mem_map, forall_exists_index, and_imp, forall_apply_eq_imp_iff₂,
      exists_exists_and_eq_and]
    simp

set_option maxRecDepth 20000 in
/-- The branches that set members: what each of them has stored is kept, and so is the absence of a
member that neither of them has. -/
theorem merge_keeps_readings_branches :
    ∃ t, (extend Sample.branches).run Sample.receiver = .ok () t ∧
    (t.memory.readIndex ((Index.ofVariable "a" .global).member (.key (.integer 1)))).Covers
      (.scalar (.integer 7)) ∧
    (t.memory.readIndex ((Index.ofVariable "a" .global).member (.key (.integer 2)))).Covers
      (.scalar (.integer 5)) := by
  have hlevel : ∀ r ∈ Sample.branches, r.memory.level = 0 := by
    decide +kernel
  obtain ⟨t, hrun, hkeeps⟩ := merge_keeps_readings (List.cons_ne_nil _ _) hlevel
    Sample.phase_receiver rfl
  refine ⟨t, hrun, ?_, ?_⟩
  · apply (hkeeps (Sample.memberSession (.key (.integer 1)) 7) List.mem_cons_self _ _ ?_).2
    · exact .inl (by decide +kernel)
    · exact Entry.contains_eq_true.1 (by decide +kernel)
  · apply (hkeeps (Sample.memberSession .unknownKey 5)
      (List.mem_cons_of_mem _ List.mem_cons_self) _ _ ?_).2
    · exact .inr (.inr (.inl (by decide +kernel)))
    · exact Entry.contains_eq_true.1 (by decide +kernel)

set_option maxRecDepth 20000 in
/-- One branch sets an unknown member of an array, so that a known member may hold that value. After
a merge with a branch that sets the known member it may not. -/
theorem merge_forgets_unknown_member :
    ∃ t, (extend [Sample.memberSession .unknownKey 5,
        Sample.memberSession (.key (.integer 1)) 7]).run Sample.receiver = .ok () t ∧
      .scalar (.integer 5) ∈ (Sample.memberSession .unknownKey 5).memory.readIndex
        ((Index.ofVariable "a" .global).member (.key (.integer 1))) ∧
      ¬(t.memory.readIndex ((Index.ofVariable "a" .global).member (.key (.integer 1)))).Covers
        (.scalar (.integer 5)) := by
  have hlevel : ∀ r ∈ [Sample.memberSession .unknownKey 5,
      Sample.memberSession (.key (.integer 1)) 7], r.memory.level = 0 := by
    decide +kernel
  obtain ⟨t, ht, hmemory⟩ := extend_run (List.cons_ne_nil _ _) hlevel Sample.phase_receiver
  refine ⟨t, ht, Entry.contains_eq_true.1 (by decide +kernel), ?_⟩
  rw [hmemory]
  decide +kernel

end Snapshot
end ScriptMemory
