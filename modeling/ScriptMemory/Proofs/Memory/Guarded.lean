import ScriptMemory.Proofs.Memory.Agreement

/-! Guarded memory: no entry is over the limit, and what lies under a segment that stands for
several members may be undefined. A path names no such location for certain, so a write adds to it
and replaces nothing; a reference to it is the only way around that. -/
namespace ScriptMemory
open Std

section
variable {U : Segment → Prop} {limit : Option Nat}

/-- The location lies under no segment of `U`. -/
def Index.Avoids (U : Segment → Prop) (i : Index) : Prop :=
  ∀ p s, i = .member p s → ¬U s

theorem Index.avoids_root (r : Root) : (Index.root r).Avoids U :=
  fun _ _ => (nomatch ·)

theorem Index.avoids_member {i : Index} {s : Segment} : (i.member s).Avoids U ↔ ¬U s := by
  constructor
  · exact fun h => h i s rfl
  · rintro h p t heq
    cases heq
    exact h

/-- The path ends in no segment that stands for several members, as far as `U` has any. -/
def Path.Avoids (U : Segment → Prop) (p : Path) : Prop :=
  (∀ s ∈ p.segments.getLast?, s.isUnknown = false) ∨ ∀ s, ¬U s

/-- The entry may stand at `i`: data within the limit that may be undefined under a segment of
`U`. -/
structure Entry.Allowed (limit : Option Nat) (U : Segment → Prop) (i : Index) (e : Entry) :
    Prop where
  isData : e.IsData
  fits : e.Fits limit
  loose : i.Avoids U ∨ .undefined ∈ e

theorem Entry.undefined_mem_undefined : .undefined ∈ Entry.undefined :=
  Entry.mem_ofValue.2 rfl

theorem Entry.allowed_undefined (i : Index) : Entry.undefined.Allowed limit U i where
  isData := Entry.isData_undefined
  fits := Entry.fits_undefined
  loose := .inr Entry.undefined_mem_undefined

end

namespace Memory
variable {U : Segment → Prop} {limit : Option Nat} {level : Nat} {m n : Memory} {i j : Index}
  {l : Locations} {s : Segment}

/-- Every entry of memory is allowed, and no alias lies under a segment of `U`. -/
structure Guarded (limit : Option Nat) (U : Segment → Prop) (level : Nat) (m : Memory) : Prop where
  level_eq : m.level = level
  symmetric : m.AliasesSymmetric
  aliased : ∀ i j t, (m.aliases i).strength? j = some t → j.Avoids U
  allowed : ∀ i e, m.entry? i = some e → e.Allowed limit U i

namespace Guarded

theorem entryOrUndefined (h : m.Guarded limit U level) (i : Index) :
    (m.entryOrUndefined i).Allowed limit U i := by
  unfold Memory.entryOrUndefined
  cases he : m.entry? i with
  | none => exact Entry.allowed_undefined i
  | some e => exact h.allowed i e he

theorem isData (h : m.Guarded limit U level) (i : Index) (e : Entry) (he : m.entry? i = some e) :
    e.IsData :=
  (h.allowed i e he).isData

/-- Memory with the same entries and aliases is guarded alike. -/
theorem congr (h : m.Guarded limit U level) (he : ∀ i, n.entry? i = m.entry? i)
    (ha : ∀ i, n.aliases i = m.aliases i) : n.Guarded limit U n.level where
  level_eq := rfl
  symmetric := aliasesSymmetric_of_aliases_eq h.symmetric ha
  aliased := fun i j t ht => h.aliased i j t (ha i ▸ ht)
  allowed := fun i e hi => h.allowed i e (he i ▸ hi)

theorem discard (h : m.Guarded limit U level) (gone : Index → Bool) :
    (m.discard gone).Guarded limit U level where
  level_eq := h.level_eq
  symmetric := aliasesSymmetric_discard h.symmetric gone
  aliased := by
    intro i j t ht
    rw [strength?_discard] at ht
    split at ht
    · cases ht
    · exact h.aliased i j t ht
  allowed := by
    intro i e he
    rw [entry?_discard] at he
    split at he
    · cases he
    · exact h.allowed i e he

theorem write (h : m.Guarded limit U level) {e : Entry} (he : e.Allowed limit U i) :
    (m.write i e).Guarded limit U level := by
  -- apart from the entry itself nothing is new
  have hrest : (if e.contains (.array i) then m else m.clearMembers i).Guarded limit U level := by
    split
    · exact h
    · exact h.discard _
  refine ⟨(level_write ..).trans h.level_eq, aliasesSymmetric_write h.symmetric i e, ?_, ?_⟩
  · intro j k t ht
    apply hrest.aliased j k t
    rw [aliases_write] at ht
    split at ht <;> rename_i hc
    · rwa [if_pos hc]
    · rwa [if_neg hc]
  · intro j f hf
    rw [entry?_write] at hf
    split at hf
    · next hj =>
      cases hf
      rwa [hj]
    · apply hrest.allowed j f
      split at hf <;> rename_i hc
      · rwa [if_pos hc]
      · rwa [if_neg hc]

theorem declareObject (h : m.Guarded limit U level) (o : ObjectValue) :
    (m.declareObject o).Guarded limit U level := by
  have hsame := h.congr (fun _ => entry?_declareObject m o _) fun _ => aliases_declareObject m o _
  rwa [level_declareObject, h.level_eq] at hsame

theorem link (h : m.Guarded limit U level) (hi : i.Avoids U) (hj : j.Avoids U) :
    ∃ n, m.link i j = .ok n ∧ n.Guarded limit U level := by
  by_cases hne : i = j
  · exact ⟨m, if_pos hne, h⟩
  · obtain ⟨n, hn, hlinked⟩ := exists_linkedTo h.symmetric hne
    refine ⟨n, hn, hlinked.level_eq.trans h.level_eq, hlinked.aliasesSymmetric h.symmetric, ?_, ?_⟩
    · intro a b t ht
      -- an edge afterwards is the new one, in either direction, or was there
      rcases hlinked.edge ht with ⟨-, rfl⟩ | ⟨-, rfl⟩ | ⟨t', ht'⟩
      · exact hj
      · exact hi
      · exact h.aliased a b t' ht'
    · exact fun k e he => h.allowed k e (hlinked.entry?_eq k ▸ he)

theorem withLevel (h : m.Guarded limit U level) (k : Nat) :
    ({ m with level := k } : Memory).Guarded limit U k :=
  h.congr (n := { m with level := k }) (fun _ => rfl) fun _ => rfl

theorem widen (h : m.Guarded limit U level) (before : Memory) :
    (m.widen before).Guarded limit U level where
  level_eq := h.level_eq
  symmetric := aliasesSymmetric_of_aliases_eq h.symmetric fun i => aliases_mapEntries ..
  aliased := by
    intro i j t ht
    rw [Memory.widen, aliases_mapEntries] at ht
    exact h.aliased i j t ht
  allowed := by
    intro i e he
    rw [Memory.widen, entry?_mapEntries] at he
    obtain ⟨f, hf, rfl⟩ := Option.map_eq_some_iff.1 he
    have hallowed := h.allowed i f hf
    rcases widenEntry_cases before i f with heq | ⟨old, heq⟩
    · rwa [heq]
    · rw [heq]
      exact ⟨hallowed.isData.widen old, hallowed.fits.widen old,
        hallowed.loose.imp_right fun hmem => Entry.mem_widen_of_mem hmem rfl⟩

theorem initial : Memory.initial.Guarded limit U 0 where
  level_eq := rfl
  symmetric := wellFormed_initial.symmetric
  aliased := by
    intro i j t ht
    rw [aliases_initial] at ht
    cases ht
  allowed := by
    intro i e he
    rw [entry?_initial] at he
    split at he
    · next hi =>
      cases he
      exact ⟨Entry.all_empty, Entry.fits_iff.2 fun _ _ => Nat.zero_le _,
        .inl (hi ▸ Index.avoids_root _)⟩
    · cases he

end Guarded

/-- In a join what is under a segment of `U` may be undefined, since each source either says so or
does not have it. -/
theorem guarded_takenOver {sources : List Memory} (hne : sources ≠ [])
    (h : ∀ m ∈ sources, m.Guarded limit U level) :
    (takenOver limit sources).Guarded limit U level := by
  have hlevel := level_takenOver hne (fun m hm => (h m hm).level_eq) limit
  unfold takenOver at hlevel ⊢
  split at hlevel
  · exact h _ List.mem_cons_self
  refine ⟨hlevel, ?_, ?_, ?_⟩
  · exact aliasesSymmetric_of_aliases_eq
      (aliasesSymmetric_join (fun m hm => (h m hm).symmetric) _) fun i => aliases_mapEntries ..
  · intro i j t ht
    rw [simplified, aliases_mapEntries, strength?_join] at ht
    split at ht
    · next hany =>
      obtain ⟨m, hm, hc⟩ := List.any_eq_true.1 hany
      obtain ⟨u, hu⟩ := AliasSet.contains_iff.1 hc
      exact (h m hm).aliased i j u hu
    · cases ht
  · intro i e he
    rw [simplified, entry?_mapEntries, entry?_join] at he
    obtain ⟨f, hf, rfl⟩ := Option.map_eq_some_iff.1 he
    split at hf
    · next hdefined =>
      cases hf
      obtain ⟨m, hm, -⟩ := hdefined
      -- a source without an entry counts as undefined here, so any one source will do
      have hw := Entry.writtenAs_getD limit
        ((sources.map (·.entryOrUndefined i)).foldl Entry.join ∅)
      refine ⟨Entry.IsData.writtenAs ?_ hw, Draft.fits_fit ⟨m, limit, 0⟩ _, ?_⟩
      · apply Entry.isData_foldl_join
        intro f hf
        obtain ⟨m, hm, rfl⟩ := List.mem_map.1 hf
        exact ((h m hm).entryOrUndefined i).isData
      · refine ((h m hm).entryOrUndefined i).loose.imp_right fun hmem => ?_
        refine hw.mem_of_isSolid Value.undefined_isSolid rfl ?_
        exact (Entry.mem_foldl_join_iff_of_isSolid Value.undefined_isSolid).2
          (.inr ⟨_, List.mem_map.2 ⟨m, hm, rfl⟩, hmem⟩)
    · cases hf

theorem undefined_mem_summarize {entries : List Entry} {e : Entry} (he : e ∈ entries)
    (hmem : .undefined ∈ e) : .undefined ∈ summarize entries := by
  have hvalues : ((entries.flatMap Entry.toList).filter fun v => v.finding?.isNone).contains
      .undefined = true :=
    List.contains_iff_mem.2 (List.mem_filter.2
      ⟨List.mem_flatMap.2 ⟨e, he, Entry.mem_toList.2 hmem⟩, rfl⟩)
  unfold summarize
  dsimp only
  rw [hvalues, Bool.true_or, if_pos rfl]
  exact (Entry.mem_insert_iff_of_isSolid Value.undefined_isSolid).2 (.inl rfl)

section
variable (hU : ∀ s : Segment, s.isUnknown = true → U s)
include hU

/-- Where nothing was written, the unknown member of the container leaves it open whether there is
anything. -/
theorem Guarded.undefined_mem_readIndex (h : m.Guarded limit U level) (hi : m.entry? i = none) :
    .undefined ∈ m.readIndex i := by
  have hfallback : .undefined ∈ m.fallback i := by
    unfold fallback
    split
    · next k hk =>
      obtain ⟨parent, s, rfl, hs⟩ := Index.exists_of_standIn? hk
      exact (h.entryOrUndefined _).loose.resolve_left fun havoids =>
        Index.avoids_member.1 havoids (hU s hs)
    · exact Entry.undefined_mem_undefined
  unfold readIndex
  rw [hi, Option.getD_none, readAbsent_eq]
  split
  · exact (Entry.mem_insert_iff_of_isSolid Value.undefined_isSolid).2 (.inr hfallback)
  · exact hfallback

/-- A path that may mean a location where nothing was written may be undefined. -/
theorem Guarded.undefined_mem_readAt (h : m.Guarded limit U level) {p : Path} {k : Nat}
    (hmem : i ∈ (m.resolve p k).toList) (hknown : i.isUnknownMember = false)
    (hi : m.entry? i = none) : .undefined ∈ m.readAt p k := by
  have hread := h.undefined_mem_readIndex hU hi
  unfold readAt readLocations
  split
  · exact Entry.undefined_mem_undefined
  · split
    · refine undefined_mem_summarize (List.mem_map.2 ⟨i, List.mem_filter.2 ⟨hmem, ?_⟩, rfl⟩) hread
      rw [hknown, Bool.not_false, Bool.or_true]
    · exact (Entry.mem_foldl_join_iff_of_isSolid Value.undefined_isSolid).2
        (.inr ⟨_, List.mem_map.2 ⟨i, hmem, rfl⟩, hread⟩)

end

/-- One segment down, nothing that lies under an unknown segment is certain. -/
theorem avoids_must_step (hU : ∀ s, U s → s.isUnknown = true) (m : Memory) (l : Locations)
    (s : Segment) : ∀ i ∈ (m.step l s).must, i.Avoids U := by
  intro i hi
  obtain ⟨j, -, hij⟩ := List.mem_filterMap.1 (OrdSet.mem_ofList.1 hi)
  unfold memberNamed? at hij
  split at hij
  · split at hij
    · cases hij
    · next hs =>
      cases hij
      exact Index.avoids_member.2 fun hus => hs (hU s hus)
  · cases hij

/-- A known segment leads to nothing that lies under an unknown one. -/
theorem avoids_step (hU : ∀ s, U s → s.isUnknown = true) (m : Memory) (l : Locations)
    (hs : s.isUnknown = false) : (m.step l s).All (Index.Avoids U) := by
  have hmember (c : Index) : (c.member s).Avoids U :=
    Index.avoids_member.2 fun hus => by rw [hU s hus] at hs; cases hs
  apply Locations.all_split
  · exact avoids_must_step hU m l s
  · intro j hj
    obtain ⟨i, -, hij⟩ := List.mem_flatMap.1 (OrdSet.mem_ofList.1 hj)
    obtain ⟨c, -, hj⟩ := List.mem_flatMap.1 hij
    rw [hs] at hj
    rw [List.mem_singleton.1 hj]
    exact hmember c

/-- What aliases of certain locations add lies under no segment of `U`. -/
theorem Guarded.avoids_must_expand (h : m.Guarded limit U level) (use : AliasReach)
    (hl : ∀ i ∈ l.must, i.Avoids U) : ∀ i ∈ (m.expand use l).must, i.Avoids U := by
  have hreach : ∀ i ∈ reach (fun i => (m.aliases i).must) m.cells.size l.must, i.Avoids U := by
    apply forall_mem_reach _ hl
    intro i _ j hj
    exact h.aliased i j _ (AliasSet.mem_ofStrength.1 hj)
  cases use <;> exact hreach

theorem avoids_ofVariable (p : Path) (level : Nat) :
    (Locations.ofVariable p level).All (Index.Avoids U) :=
  Locations.all_ofVariable (fun _ _ => Index.avoids_root _) p level

end Memory

namespace ArraySource
variable {U : Segment → Prop} {limit : Option Nat} {level : Nat} {arrays : List ArraySource}
  {s : Segment}

/-- The memory that an array is copied from holds allowed entries only. -/
def Guarded (limit : Option Nat) (U : Segment → Prop) (a : ArraySource) : Prop :=
  ∃ level, a.memory.Guarded limit U level

theorem guarded_ofEntry {m : Memory} (h : m.Guarded limit U level) (e : Entry) :
    ∀ a ∈ ofEntry m e, a.Guarded limit U := by
  intro a ha
  obtain ⟨j, -, rfl⟩ := List.mem_map.1 ha
  exact ⟨level, h⟩

theorem Guarded.isData {a : ArraySource} (h : a.Guarded limit U) : a.IsData :=
  fun i e he => (h.choose_spec.allowed i e he).isData

theorem guarded_memberArrays (h : ∀ a ∈ arrays, a.Guarded limit U) (s : Segment) :
    ∀ a ∈ memberArrays arrays s, a.Guarded limit U := by
  intro a ha
  obtain ⟨b, hb, rfl⟩ := List.mem_map.1 ha
  exact h b (List.mem_filter.1 hb).1

/-- A member under a segment of `U` may be undefined in each of the arrays that has it. -/
theorem undefined_mem_memberEntry (h : ∀ a ∈ arrays, a.Guarded limit U)
    (hs : s ∈ (allSegments arrays).toList) (hus : U s) : .undefined ∈ memberEntry arrays s := by
  obtain ⟨a, ha, hsegment⟩ := mem_allSegments.1 hs
  obtain ⟨level, hguarded⟩ := h a ha
  have hmember := (hguarded.entryOrUndefined (a.owner.member s)).loose.resolve_left
    fun havoids => Index.avoids_member.1 havoids hus
  have hjoin : .undefined ∈ ((arrays.filter (·.segments.contains s)).map fun a =>
      a.memory.entryOrUndefined (a.owner.member s)).foldl Entry.join ∅ := by
    refine (Entry.mem_foldl_join_iff_of_isSolid Value.undefined_isSolid).2 (.inr ⟨_, ?_, hmember⟩)
    exact List.mem_map.2 ⟨a, List.mem_filter.2 ⟨ha, ExtTreeSet.contains_iff_mem.2 hsegment⟩, rfl⟩
  unfold memberEntry
  dsimp only
  split
  · exact (Entry.mem_insert_iff_of_isSolid Value.undefined_isSolid).2 (.inl rfl)
  · exact hjoin

end ArraySource

namespace Draft
variable {U : Segment → Prop} {limit : Option Nat} {level : Nat} {d : Draft} {i : Index}
  {e : Entry} {arrays : List ArraySource} {l : Locations} {p : Path} {s : Segment}

/-- A draft of guarded memory with the limit of the guard. -/
structure Guarded (limit : Option Nat) (U : Segment → Prop) (level : Nat) (d : Draft) : Prop where
  limit_eq : d.limit = limit
  memory : d.memory.Guarded limit U level

namespace Guarded

theorem update (h : d.Guarded limit U level) {f : Memory → Memory}
    (hf : d.memory.Guarded limit U level → (f d.memory).Guarded limit U level) :
    (d.update f).Guarded limit U level :=
  ⟨h.limit_eq, hf h.memory⟩

/-- What is written fits the limit once it is simplified. -/
theorem write (h : d.Guarded limit U level) (he : e.IsData) (hu : i.Avoids U ∨ .undefined ∈ e) :
    (d.write i e).Guarded limit U level where
  limit_eq := (limit_write d i e).trans h.limit_eq
  memory := by
    rw [write_memory]
    apply h.memory.write
    have hw := writtenAs_fit d e
    exact ⟨he.writtenAs hw, h.limit_eq ▸ fits_fit d e,
      hu.imp_right (hw.mem_of_isSolid Value.undefined_isSolid rfl)⟩

theorem place (h : d.Guarded limit U level) (he : e.IsData) (hasArray strong : Bool)
    (hu : strong = true → i.Avoids U ∨ .undefined ∈ e) :
    (d.place i e hasArray strong).Guarded limit U level := by
  have hold := h.memory.entryOrUndefined i
  have hdata : (placed (d.memory.entryOrUndefined i) i e hasArray strong).IsData :=
    all_placed hold.isData rfl (fun v hv _ => he v hv) hasArray strong
  have hundefined := mem_placed_iff_of_isSolid Value.undefined_isSolid
    (d.memory.entryOrUndefined i) i e hasArray strong
  rw [place_eq]
  cases strong with
  | false =>
    -- a weak write joins, and a join is undefined where the old entry was
    exact h.write hdata (hold.loose.imp_right fun hmem => hundefined.2 (.inl ⟨rfl, hmem⟩))
  | true =>
    exact (h.update (·.discard _)).write hdata
      ((hu rfl).imp_right fun hmem => hundefined.2 (.inr (.inr ⟨hmem, rfl⟩)))

theorem copy {depth : Nat} (h : d.Guarded limit U level) (he : e.IsData)
    (ha : ∀ a ∈ arrays, a.Guarded limit U) (strong : Bool)
    (hu : strong = true → i.Avoids U ∨ .undefined ∈ e) :
    (Draft.copy depth d i e arrays strong).Guarded limit U level := by
  induction depth generalizing d i e arrays with
  | zero => exact h.place he _ _ hu
  | succ depth ih =>
    refine List.foldlRecOn _ _ (h.place he _ _ hu) fun d' hd' s hs => ?_
    -- an unknown member of the copy takes its doubt from the arrays, not from where it is put
    apply ih hd' (ArraySource.isData_memberEntry (fun a hmem => (ha a hmem).isData) s)
      (ArraySource.guarded_memberArrays ha s)
    intro _
    by_cases hus : U s
    · exact .inr (ArraySource.undefined_mem_memberEntry ha hs hus)
    · exact .inl (Index.avoids_member.2 hus)

theorem store (h : d.Guarded limit U level) (he : e.IsData)
    (ha : ∀ a ∈ arrays, a.Guarded limit U) (strong : Bool)
    (hu : strong = true → i.Avoids U ∨ .undefined ∈ e) :
    (d.store i e arrays strong).Guarded limit U level :=
  h.copy he ha strong hu

/-- Certain locations may be replaced since they avoid `U`; to all others is added. -/
theorem storeAll (h : d.Guarded limit U level) (hl : ∀ i ∈ l.must, i.Avoids U) (he : e.IsData)
    (ha : ∀ a ∈ arrays, a.Guarded limit U) (force : Bool) :
    (d.storeAll l e arrays force).Guarded limit U level := by
  refine List.foldlRecOn _ _ (List.foldlRecOn _ _ h fun d' hd' i hi => ?_) fun d' hd' i _ => ?_
  · exact hd'.store he ha _ fun _ => .inl (hl i (ExtTreeSet.mem_toList.1 hi))
  · exact hd'.store he ha false (nomatch ·)

theorem add (h : d.Guarded limit U level) {v : Value} (hv : v.isReference = false) {certain : Bool}
    (hi : certain = true → i.Avoids U) : (d.add i v certain).Guarded limit U level := by
  unfold Draft.add
  split
  · next hc => exact h.write (Entry.all_ofValue hv) (.inl (hi hc))
  · have hold := h.memory.entryOrUndefined i
    refine h.write (hold.isData.insert hv) (hold.loose.imp_right fun hmem => ?_)
    exact (Entry.mem_insert_iff_of_isSolid Value.undefined_isSolid).2 (.inr hmem)

theorem prepare (h : d.Guarded limit U level) (s : Segment) {certain : Bool}
    (hi : certain = true → i.Avoids U) : (d.prepare s certain i).Guarded limit U level := by
  rcases d.prepare_cases s certain i with ⟨-, heq⟩ | ⟨-, -, heq⟩ | ⟨-, -, heq⟩ <;> rw [heq]
  · exact h
  · exact (h.update (·.declareObject _)).add rfl hi
  · exact h.add rfl hi

/-- Containers are made under every alias before a path moves down. -/
theorem prepareAll (h : d.Guarded limit U level) (hl : ∀ i ∈ l.must, i.Avoids U) (s : Segment) :
    (d.prepareAll s l).Guarded limit U level := by
  refine List.foldlRecOn _ _ h fun d' hd' v hv => hd'.prepare s fun hc => hl v.2 ?_
  rcases Locations.mem_visits.1 hv with ⟨-, hmust⟩ | ⟨hmay, -⟩
  · exact hmust
  · rw [hc] at hmay
    cases hmay

section
variable (hU : ∀ s, U s → s.isUnknown = true)
include hU

theorem advance (h : d.Guarded limit U level) (hl : ∀ i ∈ l.must, i.Avoids U) (s : Segment) :
    (Draft.advance s (d, l)).1.Guarded limit U level ∧
      ∀ i ∈ (Draft.advance s (d, l)).2.must, i.Avoids U := by
  rw [advance_eq]
  exact ⟨h.prepareAll (h.memory.avoids_must_expand .all hl) s, Memory.avoids_must_step hU _ _ s⟩

theorem foldl_advance (segments : List Segment) (h : d.Guarded limit U level)
    (hl : ∀ i ∈ l.must, i.Avoids U) :
    (segments.foldl (fun dl s => Draft.advance s dl) (d, l)).1.Guarded limit U level ∧
      ∀ i ∈ (segments.foldl (fun dl s => Draft.advance s dl) (d, l)).2.must, i.Avoids U := by
  induction segments generalizing d l with
  | nil => exact ⟨h, hl⟩
  | cons s segments ih =>
    obtain ⟨h', hl'⟩ := h.advance hU hl s
    exact ih h' hl'

theorem follow (h : d.Guarded limit U level) (p : Path) (k : Nat) :
    (d.follow p k).1.Guarded limit U level ∧ ∀ i ∈ (d.follow p k).2.must, i.Avoids U :=
  h.foldl_advance hU p.segments fun i hi => Memory.avoids_ofVariable p k i (.inl hi)

theorem resolve (h : d.Guarded limit U level) (p : Path) (k : Nat) :
    (d.resolve p k).1.Guarded limit U level ∧ ∀ i ∈ (d.resolve p k).2.must, i.Avoids U := by
  obtain ⟨h', hl⟩ := h.follow hU p k
  exact ⟨h', h'.memory.avoids_must_expand .all hl⟩

theorem assign (h : d.Guarded limit U level) (p : Path) (k : Nat) (he : e.IsData) (force : Bool) :
    (d.assign p k e force).Guarded limit U level := by
  obtain ⟨h', hl⟩ := h.resolve hU p k
  exact h'.storeAll hl he (ArraySource.guarded_ofEntry h'.memory e) force

theorem storeResult (h : d.Guarded limit U level) (k : Nat) (result : Option Path) (he : e.IsData)
    (ha : ∀ a ∈ arrays, a.Guarded limit U) :
    (d.storeResult k result e arrays).Guarded limit U level := by
  cases result with
  | none => exact h
  | some p =>
    obtain ⟨h', hl⟩ := h.resolve hU p k
    exact h'.storeAll hl he ha true

end

theorem unset (h : d.Guarded limit U level) (p : Path) : (d.unset p).Guarded limit U level := by
  refine List.foldlRecOn _ _ (h.update (·.discard _)) fun d' hd' i _ => ?_
  split
  · exact hd'.store Entry.isData_undefined (by simp) false (nomatch ·)
  · exact hd'

end Guarded

/-- A path that ends in a known segment leads to nothing under a segment of `U`. -/
theorem follow_avoids (hU : ∀ s, U s → s.isUnknown = true) (d : Draft) (hp : p.Avoids U)
    (k : Nat) : (d.follow p k).2.All (Index.Avoids U) := by
  rcases hp with hp | hnone
  · rcases List.eq_nil_or_concat p.segments with hnil | ⟨front, s, hlast⟩
    · unfold Draft.follow
      rw [hnil]
      exact Memory.avoids_ofVariable p k
    · have hs : s.isUnknown = false := hp s (by rw [hlast]; simp)
      unfold Draft.follow
      rw [hlast, List.concat_eq_append, List.foldl_append]
      exact Memory.avoids_step hU _ _ hs
  · exact fun i _ p s _ => hnone s

end Draft

namespace Edit
variable {U : Segment → Prop} {limit : Option Nat} {level : Nat} {i j : Index} {e : Entry}
  {target source : Path}

theorem sustains_assign (hU : ∀ s, U s → s.isUnknown = true) (p : Path) (he : e.IsData)
    (force : Bool) : Sustains (Draft.Guarded limit U level) (assign p e force) fun _ => True :=
  fun d h => ⟨(), _, assign_run d p he force, h.assign hU p _ he force, trivial⟩

theorem sustains_assignIndex (he : e.IsData) (strong : Bool) (hi : i.Avoids U) :
    Sustains (Draft.Guarded limit U level) (assignIndex i e strong) fun _ => True :=
  fun d h => ⟨(), _, assignIndex_run d i he strong, h.store he
    (ArraySource.guarded_ofEntry h.memory e) strong fun _ => .inl hi, trivial⟩

theorem sustains_link (hi : i.Avoids U) (hj : j.Avoids U) :
    Sustains (Draft.Guarded limit U level) (link i j) fun _ => True := by
  intro d h
  obtain ⟨n, hn, hguarded⟩ := h.memory.link hi hj
  refine ⟨(), d.update fun _ => n, ?_, h.update fun _ => hguarded, trivial⟩
  unfold link
  rw [EStateM.run_bind, EStateM.run_get]
  dsimp only
  rw [hn]
  rfl

/-- A reference between paths that avoid `U` makes no alias under a segment of `U`. -/
theorem sustains_bindPaths (hU : ∀ s, U s → s.isUnknown = true) (ht : target.Avoids U)
    (hs : source.Avoids U) (targetLevel sourceLevel : Nat) : Sustains (Draft.Guarded limit U level)
      (bindPaths target targetLevel source sourceLevel) fun _ => True := by
  have hfollow {p : Path} (hp : p.Avoids U) (k : Nat) :
      Sustains (Draft.Guarded limit U level) (follow p k) (Locations.All (Index.Avoids U)) :=
    Sustains.modifyGet fun d h => ⟨(h.follow hU p k).1, d.follow_avoids hU hp k⟩
  have hcreate (strong : Bool) (is : List Index) (his : ∀ i ∈ is, i.Avoids U) :
      Sustains (Draft.Guarded limit U level) (modify fun d => is.foldl (fun d i =>
        if d.memory.isDefined i then d else d.store i (.ofValue (.scalar .null)) [] strong) d)
        fun _ => True := by
    refine Sustains.modify fun d h => List.foldlRecOn _ _ h fun d' hd' i hi => ?_
    split
    · exact hd'
    · exact hd'.store (Entry.all_ofValue rfl) (by simp) strong fun _ => .inl (his i hi)
  unfold bindPaths
  refine (hfollow hs sourceLevel).bind fun sources hsources => ?_
  refine (hcreate true _ hsources.mem_must).bind fun _ _ => ?_
  refine (hcreate false _ hsources.mem_may).bind fun _ _ => ?_
  refine Sustains.get.bind fun read hread => ?_
  refine (hfollow ht targetLevel).bind fun targets htargets => ?_
  refine (Sustains.forM fun t hmt => Sustains.forM fun s hms => ?_).bind fun _ _ => ?_
  · exact sustains_link (htargets t (Locations.mem_toList.1 hmt))
      (hsources s (Locations.mem_toList.1 hms))
  · -- what was read of guarded memory is written to the targets
    refine Sustains.modify fun d h => h.storeAll (fun i hi => htargets i (.inl hi)) ?_
      (ArraySource.guarded_ofEntry hread.memory _) true
    apply Entry.isData_foldl_join
    intro f hf
    obtain ⟨i, -, rfl⟩ := List.mem_map.1 hf
    exact Memory.isData_readIndex hread.memory.isData i

theorem sustains_assignAlias (hU : ∀ s, U s → s.isUnknown = true) (ht : target.Avoids U)
    (hs : source.Avoids U) :
    Sustains (Draft.Guarded limit U level) (assignAlias target source) fun _ => True :=
  Sustains.get.bind fun _ _ => sustains_bindPaths hU ht hs _ _

theorem sustains_bindReference (hU : ∀ s, U s → s.isUnknown = true) (ht : target.Avoids U)
    (hs : source.Avoids U) :
    Sustains (Draft.Guarded limit U (level + 1)) (bindReference target source) fun _ => True := by
  refine Sustains.get.bind fun d hd => ?_
  rw [hd.memory.level_eq]
  exact sustains_bindPaths hU ht hs _ _

theorem sustains_report (f : Finding) :
    Sustains (Draft.Guarded limit U level) (report f) fun _ => True := by
  refine Sustains.modify fun d h => h.write ?_ (.inl (Index.avoids_root _))
  cases he : d.memory.entry? .diagnostics with
  | none => exact Entry.all_empty.insert rfl
  | some e => exact (h.memory.isData _ e he).insert rfl

/-- The fields of a new object have names. -/
theorem sustains_createObject (hU : ∀ s, U s → s.isUnknown = true) (className : String)
    (site : ObjectId) {fields : List (String × Entry)} (hf : ∀ x ∈ fields, x.2.IsData) :
    Sustains (Draft.Guarded limit U level) (createObject className site fields) fun _ => True := by
  unfold createObject
  refine Sustains.get.bind fun d _ => ?_
  refine (Sustains.modify fun d h => h.update (·.declareObject _)).bind fun _ _ => ?_
  refine Sustains.bind (Q := fun _ => True) (Sustains.forM fun x hx => ?_)
    fun _ _ => Sustains.pure trivial
  exact sustains_assignIndex (hf x hx) _ (Index.avoids_member.2 fun hus => nomatch hU _ hus)

end Edit
end ScriptMemory
