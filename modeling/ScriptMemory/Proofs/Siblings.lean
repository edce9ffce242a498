import ScriptMemory.Proofs.Memory.Vivification
import ScriptMemory.Proofs.Operations

/-! Writing one element of a container next to what the others may hold. The write may make the
container first, which replaces what was there, and where objects refer to each other it may replace
what the others are looked up through. -/
namespace ScriptMemory
open Std

namespace Memory
variable {m : Memory} {p : Path} {level : Nat} {s t t' : Segment} {v : Value} {start j : Index}
  {segments : List Segment} {holders : List Index}

/-- A way comes to a location that holds no object, and a field is looked up next. -/
def Strays (m : Memory) (start : Index) (segments : List Segment) (holders : List Index) : Prop :=
  ∃ front f back i, segments = front ++ f :: back ∧ f.isField = true ∧
    m.Walk start front holders i ∧ m.objectsAt i = []

/-- Where the last segment leads to does not matter for where a way strays. -/
theorem Strays.of_concat (h : m.Strays start (segments ++ [t']) holders)
    (hsort : t.isField = t'.isField) : m.Strays start (segments ++ [t]) holders := by
  obtain ⟨front, f, back, i, hsegments, hf, hway, hnone⟩ := h
  rcases List.eq_nil_or_concat back with rfl | ⟨back, last, rfl⟩
  · obtain ⟨rfl, hlast⟩ := List.append_inj' hsegments rfl
    cases hlast
    exact ⟨segments, t, [], i, rfl, hsort.trans hf, hway, hnone⟩
  · rw [List.concat_eq_append, ← List.cons_append, ← List.append_assoc] at hsegments
    obtain ⟨rfl, -⟩ := List.append_inj' hsegments rfl
    refine ⟨front, f, back ++ [t], i, ?_, hf, hway, hnone⟩
    rw [← List.cons_append, List.append_assoc]

theorem known_member (hknown : ∀ s ∈ p.segments, s.isUnknown = false)
    (ht : t.isUnknown = false) : ∀ s ∈ (p.member t).segments, s.isUnknown = false := by
  intro s hs
  rcases List.mem_append.1 hs with hs | hs
  · exact hknown s hs
  · rwa [List.mem_singleton.1 hs]

theorem unknown_member (hknown : ∀ s ∈ p.segments, s.isUnknown = false)
    (ht : t.isUnknown = false) : (m.resolve (p.member t) level).unknown = false := by
  rw [unknown_resolve_member, ht, Bool.or_false, List.any_eq_false]
  exact fun s hs => Bool.eq_false_iff.1 (hknown s hs)

/-- What the end of a way reads as, the path reads as. -/
theorem Walk.covers_readAt (h : m.Walk (p.indexAt level) (p.segments ++ [t]) holders j)
    (hknown : ∀ s ∈ p.segments, s.isUnknown = false) (ht : t.isUnknown = false)
    (hv : (m.readIndex j).Covers v) : (m.readAt (p.member t) level).Covers v := by
  have hmem : j ∈ (m.resolve (p.member t) level).toList :=
    mem_expand_of_mem (Walk.mem_follow (p := p.member t) h) .must
  unfold readAt readLocations
  rw [if_neg (Locations.not_isEmpty_of_mem hmem),
    if_neg (Bool.eq_false_iff.1 (unknown_member hknown ht)), Entry.covers_foldl_join]
  exact .inr ⟨_, List.mem_map_of_mem hmem, hv⟩

/-- A path denotes something. -/
theorem exists_mem_resolve (m : Memory) (p : Path) (level : Nat) :
    ∃ j, j ∈ (m.resolve p level).toList := by
  have hfold (segments : List Segment) (l : Locations) (h : ∃ i, i ∈ l.toList) :
      ∃ j, j ∈ (segments.foldl (fun l s => m.step (m.expand .must l) s) l).toList := by
    induction segments generalizing l with
    | nil => exact h
    | cons s segments ih =>
      obtain ⟨i, hi⟩ := h
      exact ih _ ⟨_, mem_step_of_mem (mem_expand_of_mem hi .must) (into_mem_membersNamed m i s)⟩
  obtain ⟨j, hj⟩ := hfold p.segments (.ofVariable p level) ⟨p.indexAt level, by
    rw [toList_ofVariable]
    exact List.mem_singleton.2 rfl⟩
  exact ⟨j, mem_expand_of_mem hj .must⟩

/-- By induction on the way that the path has come: it denotes nothing but what ways lead to, unless
one strays. -/
theorem Unaliased.walk_or_strays {front : List Segment} (h : m.Unaliased)
    (hknown : ∀ s ∈ front, s.isUnknown = false) :
    (m.resolve (p.upTo front) level).Sole ∧
      ∀ j ∈ (m.resolve (p.upTo front) level).toList, ∃ holders,
        m.Walk (p.indexAt level) front holders j ∨ m.Strays (p.indexAt level) front holders := by
  induction front using List.reverseRecOn with
  | nil =>
    have hsingle : m.resolve (p.upTo []) level = .single (p.indexAt level) := by
      refine (congrArg (m.expand .must) (ofVariable_eq p level)).trans ?_
      exact expand_single h .must (p.indexAt level)
    rw [hsingle]
    refine ⟨.inl ⟨_, rfl⟩, fun j hj => ⟨[], .inl ?_⟩⟩
    rw [Locations.toList_single, List.mem_singleton] at hj
    rw [hj]
    exact .nil
  | append_singleton front s ih =>
    obtain ⟨hsole, hways⟩ := ih fun t ht => hknown t (List.mem_append_left _ ht)
    have hs := hknown s (List.mem_append_right _ List.mem_cons_self)
    have hresolve : m.resolve (p.upTo (front ++ [s])) level =
        m.step (m.resolve (p.upTo front) level) s := by
      refine (resolve_member m (p.upTo front) level s).trans ?_
      exact expand_eq_self h (hsole.step m s).separate .must
    rw [hresolve]
    refine ⟨hsole.step m s, fun j hj => ?_⟩
    obtain ⟨i, hi, hnamed⟩ := exists_of_mem_step hj
    obtain ⟨c, hc, rfl⟩ := (mem_membersNamed_of_known hs).1 hnamed
    obtain ⟨holders, hway | ⟨front', f, back, k, rfl, hf, hway, hnone⟩⟩ := hways i hi
    · cases hfield : s.isField with
      | false =>
        rw [containersOf_key hfield, List.mem_singleton] at hc
        exact ⟨holders, .inl (hc ▸ .key hway hfield)⟩
      | true =>
        by_cases hnone : m.objectsAt i = []
        · exact ⟨holders, .inr ⟨front, s, [], i, rfl, hfield, hway, hnone⟩⟩
        · rw [containersOf_field hfield hnone] at hc
          obtain ⟨o, ho, rfl⟩ := List.mem_map.1 hc
          exact ⟨_, .inl (.field hway hfield ho)⟩
    · refine ⟨holders, .inr ⟨front', f, back ++ [s], k, ?_, hf, hway, hnone⟩⟩
      rw [List.append_assoc, List.cons_append]

/-- All that a path reads as is read at the end of a way, unless one strays. -/
theorem Unaliased.exists_of_mem_readAt (h : m.Unaliased)
    (hknown : ∀ s ∈ p.segments, s.isUnknown = false) (ht : t.isUnknown = false)
    (hv : v ∈ m.readAt (p.member t) level) : ∃ holders,
      m.Strays (p.indexAt level) (p.segments ++ [t]) holders ∨
        ∃ c : Index, m.Walk (p.indexAt level) (p.segments ++ [t]) holders (c.member t) ∧
          v ∈ m.readIndex (c.member t) := by
  obtain ⟨i, hi⟩ := exists_mem_resolve m (p.member t) level
  obtain ⟨j, hj, hread⟩ : ∃ j ∈ (m.resolve (p.member t) level).toList, v ∈ m.readIndex j := by
    unfold readAt readLocations at hv
    rw [if_neg (Locations.not_isEmpty_of_mem hi), if_neg] at hv
    · obtain ⟨e, he, hve⟩ := (Entry.exists_mem_of_mem_foldl_join hv).resolve_left
        Entry.not_mem_empty
      obtain ⟨j, hj, rfl⟩ := List.mem_map.1 he
      exact ⟨j, hj, hve⟩
    · rw [unknown_member hknown ht]
      exact Bool.false_ne_true
  obtain ⟨holders, hway | hstrays⟩ := (h.walk_or_strays (p := p) (known_member hknown ht)).2 j hj
  · obtain ⟨c, rfl, -⟩ := hway.exists_container
    exact ⟨holders, .inr ⟨c, hway, hread⟩⟩
  · exact ⟨holders, .inl hstrays⟩

end Memory

namespace Draft
open Memory
variable {d d' : Draft} {p : Path} {level : Nat} {t t' s : Segment} {e : Entry} {v : Value}
  {holders : List Index} {i j c : Index}

/-- The value that the path's member `t'` reads as is one that a write to its member `t` cannot take
away. -/
inductive Spares (d : Draft) (p : Path) (level : Nat) (t t' : Segment) (v : Value) : Prop where
  /-- It is read where a way leads, and nothing that the write replaces is on this way or above. If
  nothing is stored at the end and yet the value is more than undefinedness, no container is made
  there, and the unknown member holds the value or no container replaces what holds the member. -/
  | found {holders : List Index} {c : Index}
      (hway : d.memory.Walk (p.indexAt level) (p.segments ++ [t']) holders (c.member t'))
      (hv : v ∈ d.memory.readIndex (c.member t')) (hby : d.Bypasses (p.member t) level holders)
      (habsent : v ≠ .undefined → d.memory.entry? (c.member t') = none →
        (∀ d' s certain, ¬d.Makes (p.member t) level d' s certain (c.member t')) ∧
          ((d.memory.fallback (c.member t')).Covers v ∨ ¬d.Overwrites (p.member t) level c))
  /-- It is undefinedness, since a way strays, and the write makes new objects only. -/
  | missed {holders : List Index} (hv : v = .undefined)
      (hstrays : d.memory.Strays (p.indexAt level) (p.segments ++ [t']) holders)
      (hby : d.Bypasses (p.member t) level holders) (hnew : d.MakesNew (p.member t) level)

/-- A field of an object in a variable is spared where another field is written. -/
theorem Unlinked.spares_field {o : ObjectValue} {f : Entry} (h : d.Unlinked) (hp : p.segments = [])
    (hfield : t.isField = true) (hfield' : t'.isField = true)
    (ho : o ∈ d.memory.objectsAt (p.indexAt level))
    (hf : d.memory.entry? (o.index.member t') = some f) (hv : v ∈ f) :
    d.Spares p level t t' v := by
  have hway {s : Segment} (hs : s.isField = true) : d.memory.Walk (p.indexAt level)
      (p.segments ++ [s]) [p.indexAt level] (o.index.member s) := by
    rw [hp]
    exact .field .nil hs ho
  -- the variable has an object, and the path has no further segments
  have hmakes (d' : Draft) (s : Segment) (certain : Bool) (i : Index) :
      ¬d.Makes (p.member t) level d' s certain i := by
    rintro ⟨front, back, l, hsegments, hresolve, hi, hnone⟩
    have hone : [t] = front ++ s :: back := by
      rw [← hsegments]
      exact (congrArg (· ++ [t]) hp).symm
    cases front with
    | cons r front =>
      exact absurd (congrArg List.length hone) (by simp)
    | nil =>
      cases hone
      have hstart := resolve_upTo_nil h (p.member t) level
      rw [hresolve] at hstart
      cases hstart
      rw [Locations.visits_single, List.mem_singleton] at hi
      cases hi
      exact hnone ((opened_iff_of_field hfield).2 (List.ne_nil_of_mem ho))
  refine .found (hway hfield') ?_ ?_ ?_
  · rwa [readIndex_of_some hf]
  · rintro i (⟨d', s, hmade⟩ | hi) k hk hc
    · exact hmakes d' s true i hmade
    · have hmem := h.mem_resolve (p := p.member t)
        (fun _ _ d' s i hmade => absurd hmade (hmakes d' s true i)) (List.prefix_refl _)
        (hway hfield)
      obtain rfl := (h.resolve (p.member t) level).2.eq_of_mem hi hmem
      rw [List.mem_singleton.1 hk] at hc
      exact nomatch hc.base_eq
  · intro _ hnone
    exact nomatch hnone.symm.trans hf

/-- Where a way strays, the write makes an object that the way goes on to, and nothing is known of
its members but of the one that is written. -/
theorem Unlinked.exists_way_of_strays (h : d.Unlinked) (he : e.IsFlat)
    (hknown : ∀ s ∈ p.segments, s.isUnknown = false) (ht : t.isUnknown = false)
    (ht' : t'.isUnknown = false) (hne : t ≠ t') (hsort : t.isField = t'.isField)
    (hstrays : d.memory.Strays (p.indexAt level) (p.segments ++ [t']) holders)
    (hby : d.Bypasses (p.member t) level holders) (hnew : d.MakesNew (p.member t) level)
    (force : Bool) :
    let after := (d.assign (p.member t) level e force).memory
    ∃ j holders', after.Walk (p.indexAt level) (p.segments ++ [t']) holders' j ∧
      (after.readIndex j).Covers .undefined := by
  obtain ⟨front, f, back, i, hsegments, hf, hway, hnone⟩ := hstrays.of_concat hsort
  obtain ⟨segments, s, heq, c, holders', hway', hundefined, hmem, hout⟩ :=
    h.exists_vacant (known_member hknown ht) hnew hsegments hf hway hby hnone
  obtain ⟨rfl, hlast⟩ := List.append_inj' heq rfl
  cases hlast
  obtain ⟨_, heq', hother⟩ := hway'.exists_container
  obtain ⟨rfl, -⟩ := Index.member.inj heq'
  have hbeside {s : Segment} (hs : t ≠ s) : Memory.Grows (d.resolve (p.member t) level).1.memory
      (d.assign (p.member t) level e force).memory (c.member s) := by
    refine h.grows_stored he (fun x hx => ?_) force
    rw [← (h.resolve (p.member t) level).2.eq_of_mem hx hmem]
    exact Index.not_contains_sibling hs c
  have hlike := Segment.ne_unknownLike ht t'
  have hread := undefined_mem_readIndex ht' (hundefined t' hne.symm) (hundefined _ hlike.symm)
  refine ⟨c.member t', holders', (hother t' hsort.symm).gained fun k hk => ?_,
    covers_readIndex_of_grows (hbeside hne) ?_ hread fun hdefined => absurd rfl hdefined⟩
  · exact h.grows_stored he (fun x hx => hout x hx k hk) force
  · intro k hk
    rw [Index.standIn?_member ht'] at hk
    cases hk
    exact hbeside hlike

/-- A value that the write to one member spares can still be read from the other. -/
theorem Unlinked.covers_readAt_of_spares (h : d.Unlinked) (he : e.IsFlat)
    (hknown : ∀ s ∈ p.segments, s.isUnknown = false) (ht : t.isUnknown = false)
    (ht' : t'.isUnknown = false) (hne : t ≠ t') (hsort : t.isField = t'.isField)
    (hv : d.Spares p level t t' v) (force : Bool) :
    ((d.assign (p.member t) level e force).memory.readAt (p.member t') level).Covers v := by
  cases hv with
  | found hway hv hby habsent =>
    have hread := h.covers_readIndex_beside he hsort hway hby ht ht' hne hv habsent force
    refine Walk.covers_readAt (hway.gained fun k hk => ?_) hknown ht' hread
    exact h.grows_assign he (hby.not_wipes k hk) (fun i hi => hby i (.inr hi) k hk) force
  | missed hv hstrays hby hnew =>
    subst hv
    obtain ⟨j, holders, hway, hread⟩ :=
      h.exists_way_of_strays he hknown ht ht' hne hsort hstrays hby hnew force
    exact hway.covers_readAt hknown ht' hread

end Draft

namespace Snapshot
open Memory
variable {s : Snapshot} {before : Memory} {p : Path} {t t' : Segment} {e : Entry}

theorem unlinked_start (hs : Reachable s) (hlimit : s.limits.simplify = none)
    (hu : s.memory.Unaliased) :
    Draft.Unlinked { memory := s.memory, limit := s.limits.simplify } where
  limit_eq := hlimit
  consistent := (hs.upholds consistent_durable).memory
  unaliased := hu

/-- Assigning a flat entry to one member of what a path leads to, in an open transaction without
aliases and a simplify limit. Another member of that kind reads as what ways lead to, and as
undefined if one strays. It can still be read as that, as far as the write spares it. Where the
write has to make a certain container, it is known what the other member reads as from then on: only
what is stored at it or at the unknown member, whatever was there before to hold it, and nothing in
a new object. -/
theorem assign_keeps_siblings (hs : Reachable s) (hopen : s.phase = .open before)
    (hlimit : s.limits.simplify = none) (hu : s.memory.Unaliased) (he : e.IsFlat)
    (hknown : ∀ s ∈ p.segments, s.isUnknown = false) (ht : t.isUnknown = false)
    (ht' : t'.isUnknown = false) (hne : t ≠ t') (hsort : t.isField = t'.isField) :
    let start : Draft := { memory := s.memory, limit := s.limits.simplify }
    let root := p.indexAt s.memory.level
    ∃ u, (assign (p.member t) e false).run s = .ok () u ∧
      (∀ v ∈ s.memory.read (p.member t'),
        (∃ holders, s.memory.Strays root (p.segments ++ [t']) holders ∨
          ∃ c : Index, s.memory.Walk root (p.segments ++ [t']) holders (c.member t') ∧
            v ∈ s.memory.readIndex (c.member t')) ∧
        (start.Spares p s.memory.level t t' v → (u.memory.read (p.member t')).Covers v)) ∧
      ∀ holders c, start.Vivifies p s.memory.level t holders c →
        (t.isField = false → u.memory.read (p.member t') =
          (s.memory.entry? (c.member t')).getD (s.memory.fallback (c.member t'))) ∧
        (t.isField = true → start.MakesNew (p.member t) s.memory.level →
          u.memory.read (p.member t') = .undefined) := by
  intro start root
  have hstart : start.Unlinked := unlinked_start hs hlimit hu
  obtain ⟨u, hrun, hmemory⟩ := Transact.mutate_ok .assign hopen
    (Edit.assign_run start (p.member t) he.isData false)
  have hlevel : u.memory.level = s.memory.level := by
    rw [hmemory, Draft.assign_flat start _ _ he, ← Draft.replay_storingAll, level_replay,
      ← Draft.replay_resolving, level_replay]
  have hread : u.memory.read (p.member t') = (start.assign (p.member t) s.memory.level e
      false).memory.readAt (p.member t') s.memory.level := by
    unfold Memory.read
    rw [hlevel, hmemory]
  refine ⟨u, hrun, fun v hv => ⟨hu.exists_of_mem_readAt hknown ht' hv, fun hspares => ?_⟩,
    fun holders c hv => ⟨fun hkey => ?_, fun hfield hnew => ?_⟩⟩
  · rw [hread]
    exact hstart.covers_readAt_of_spares he hknown ht ht' hne hsort hspares false
  · rw [hread]
    exact hv.readAt_key hstart he ht hknown ht' hne hsort hkey false
  · rw [hread]
    exact hv.readAt_field hstart he ht hknown ht' hne hsort hfield hnew false

set_option maxRecDepth 20000 in
/-- One field of an object is written, and the other is what it was. -/
theorem assign_keeps_siblings_field :
    let x : Path := ⟨.current, "x", []⟩
    let one : Entry := .ofValue (.scalar (.integer 1))
    let ops : List Operation := [.start, .change (.assign (x.member (.field "f")) one false),
      .change (.assign (x.member (.field "g")) one false)]
    let s := ops.foldl after {}
    ∃ u, (assign (x.member (.field "f")) .undefined false).run s = .ok () u ∧
      (u.memory.read (x.member (.field "g"))).Covers (.scalar (.integer 1)) := by
  intro x one ops s
  have hs : Reachable s := (Reachable.blank {}).foldl
    (by simp [ops, Operation.sources, Mutation.sources])
  have hopen : s.phase = .open .initial := by decide +kernel
  have hlimit : s.limits.simplify = none := by decide +kernel
  have hu : s.memory.Unaliased := .of_keys (by decide +kernel)
  let o : ObjectValue := .madeAt (x.indexAt s.memory.level)
  have hobjects : s.memory.objectsAt (x.indexAt s.memory.level) = [o] := by decide +kernel
  have hstored : s.memory.entry? (o.index.member (.field "g")) = some one := by decide +kernel
  have hone : .scalar (.integer 1) ∈ one := Entry.mem_ofValue.2 rfl
  have hread : .scalar (.integer 1) ∈ s.memory.read (x.member (.field "g")) :=
    Entry.contains_eq_true.1 (by decide +kernel)
  -- nothing but these facts about the snapshot is needed
  clear_value s
  have hne : Segment.field "f" ≠ Segment.field "g" := by decide
  obtain ⟨u, hrun, hall⟩ := assign_keeps_siblings (p := x) hs hopen hlimit hu
    Entry.isFlat_undefined (fun _ h => absurd h List.not_mem_nil) rfl rfl hne rfl
  refine ⟨u, hrun, (hall.1 _ hread).2 ?_⟩
  have ho : o ∈ s.memory.objectsAt (x.indexAt s.memory.level) := by
    rw [hobjects]
    exact List.mem_singleton.2 rfl
  exact (unlinked_start hs hlimit hu).spares_field rfl rfl rfl ho hstored hone

set_option maxRecDepth 20000 in
/-- A variable that may be anything gets an array or an object by the write, and another element or
field can be undefined only from then on. And where an object is held by one of its own fields, and
this field is written through itself, the path to its other field no longer leads to the object. -/
theorem assign_loses_siblings :
    let a : Path := ⟨.current, "a", []⟩
    let b : Path := ⟨.current, "b", []⟩
    let x : Path := ⟨.current, "x", []⟩
    let one : Segment := .key (.integer 1)
    let two : Segment := .key (.integer 2)
    let xf := x.member (.field "f")
    let seven : Entry := .ofValue (.scalar (.integer 7))
    let ops : List Operation := [.start, .change (.assign a (.ofValue .any) false),
      .change (.assign b (.ofValue .any) false),
      .change (.assign x (.ofValue (.object ⟨"a", "C"⟩)) false),
      .change (.assign (x.member (.field "g")) seven false),
      .change (.assign xf (.ofValue (.object ⟨"a", "C"⟩)) false)]
    let s := ops.foldl after {}
    let next (p : Path) := (assign p seven false).run s
    Reachable s ∧ s.memory.Unaliased ∧ s.limits.simplify = none ∧
      (s.memory.read (a.member two) = .ofList [.undefined, .any] ∧
        failure? (next (a.member one)) = none ∧
        (left (next (a.member one))).memory.read (a.member two) = .undefined) ∧
      (s.memory.read (b.member (.field "g")) = .ofList [.undefined, .any] ∧
        failure? (next (b.member (.field "f"))) = none ∧
        (left (next (b.member (.field "f")))).memory.read (b.member (.field "g")) = .undefined) ∧
      s.memory.read (xf.member (.field "g")) = seven ∧
        failure? (next (xf.member (.field "f"))) = none ∧
        (left (next (xf.member (.field "f")))).memory.read (xf.member (.field "g")) =
          .undefined := by
  intro a b x one two xf seven ops s next
  exact ⟨(Reachable.blank {}).foldl (by simp [ops, Operation.sources, Mutation.sources]),
    .of_keys (by decide +kernel), by decide +kernel, ⟨by decide +kernel, by decide +kernel,
    by decide +kernel⟩, ⟨by decide +kernel, by decide +kernel, by decide +kernel⟩,
    by decide +kernel, by decide +kernel, by decide +kernel⟩

end Snapshot
end ScriptMemory
