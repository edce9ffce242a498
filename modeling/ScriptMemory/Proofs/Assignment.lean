import ScriptMemory.Proofs.Certainty
import ScriptMemory.Proofs.Consistency
import ScriptMemory.Proofs.Memory.Placement
import ScriptMemory.Proofs.Memory.Sweep

/-! What an assignment does, and nothing else. Along a path whose containers are all there nothing
is made on the way. If none of the locations that the path denotes lies below another, each is
written as if it were the only one: a certain one loses all that was below it, a possible one loses
nothing, and no other location changes. -/
namespace ScriptMemory
open Std

namespace Index
variable {i j : Index}

theorem isAncestorOf_iff : i.isAncestorOf j = true ↔ i.Contains j ∧ i ≠ j := by
  induction j with
  | root r =>
    refine iff_of_false Bool.false_ne_true ?_
    rintro ⟨hc, hne⟩
    exact hne (contains_root_iff.1 hc)
  | member p s ih =>
    rw [isAncestorOf, Bool.or_eq_true, decide_eq_true_eq, ih, contains_member_iff]
    constructor
    · rintro (rfl | ⟨hc, -⟩)
      · exact ⟨.inr (contains_refl i), ne_member i s⟩
      · refine ⟨.inr hc, ?_⟩
        rintro rfl
        exact not_member_contains p s hc
    · rintro ⟨rfl | hc, hne⟩
      · exact absurd rfl hne
      · by_cases hp : i = p
        · exact .inl hp
        · exact .inr ⟨hc, hp⟩

/-- Neither location is the other or lies below it. -/
def Apart (i j : Index) : Prop :=
  ¬i.Contains j ∧ ¬j.Contains i

theorem Apart.symm (h : i.Apart j) : j.Apart i :=
  ⟨h.2, h.1⟩

theorem Apart.ne (h : i.Apart j) : i ≠ j := by
  rintro rfl
  exact h.1 (contains_refl i)

/-- What lies below one of two such locations is apart from the other. -/
theorem Apart.of_contains {k : Index} (h : i.Apart j) (hk : i.Contains k) : k.Apart j := by
  refine ⟨fun hc => h.1 (hk.trans hc), ?_⟩
  -- two locations that contain the same one lie on one way
  intro hc
  induction k with
  | root r =>
    rw [contains_root_iff] at hk hc
    exact h.ne (hk.trans hc.symm)
  | member p s ih =>
    rw [contains_member_iff] at hk hc
    rcases hk with rfl | hk
    · exact h.2 (contains_member_iff.2 hc)
    · rcases hc with rfl | hc
      · exact h.1 (hk.trans (contains_member p s))
      · exact ih hk hc

end Index

namespace Locations
variable {l : Locations}

instance {P : Index → Prop} [DecidablePred P] (l : Locations) : Decidable (l.All P) :=
  decidable_of_iff (∀ i ∈ l.toList, P i) (by simp only [mem_toList, All])

end Locations

namespace Memory
variable {m : Memory} {l : Locations} {i : Index} {s : Segment} {segments : List Segment}

/-- The containers for each of the segments are there, from some locations on. -/
def OpensAlong (m : Memory) : Locations → List Segment → Prop
  | _, [] => True
  | l, s :: segments => (m.expand .all l).All (m.Opened s) ∧
    m.OpensAlong (m.step (m.expand .all l) s) segments

instance (m : Memory) (s : Segment) : DecidablePred (m.Opened s) := fun i => by
  unfold Opened
  infer_instance

instance decidableOpensAlong (m : Memory) :
    (l : Locations) → (segments : List Segment) → Decidable (m.OpensAlong l segments)
  | _, [] => .isTrue trivial
  | l, s :: segments =>
    have := decidableOpensAlong m (m.step (m.expand .all l) s) segments
    inferInstanceAs (Decidable (_ ∧ _))

/-- All containers on the way of the path are there. -/
def Opens (m : Memory) (p : Path) (level : Nat) : Prop :=
  m.OpensAlong (.ofVariable p level) p.segments

instance (m : Memory) (p : Path) (level : Nat) : Decidable (m.Opens p level) :=
  decidableOpensAlong m _ _

/-- The locations that a path denotes for writing, with all their aliases. -/
def targets (m : Memory) (p : Path) (level : Nat) : Locations :=
  m.expand .all (m.follow .all p level)

theorem cautious_targets (m : Memory) (p : Path) (level : Nat) : (m.targets p level).Cautious :=
  cautious_expand (tracks_follow m .all p level).cautious m .all

end Memory

namespace Draft
variable {d : Draft} {l : Locations} {i : Index} {s : Segment} {e : Entry}

theorem prepareAll_of_opened (h : l.All (d.memory.Opened s)) : d.prepareAll s l = d := by
  have hvisits : ∀ v ∈ l.visits, d.memory.Opened s v.2 := by
    intro v hv
    rcases Locations.mem_visits.1 hv with ⟨-, hv⟩ | ⟨-, hv⟩
    · exact h v.2 (.inl hv)
    · exact h v.2 (.inr hv)
  unfold prepareAll
  generalize l.visits = visits at hvisits
  induction visits with
  | nil => rfl
  | cons v visits ih =>
    rw [List.foldl_cons, prepare_of_opened (hvisits v List.mem_cons_self)]
    exact ih fun w hw => hvisits w (List.mem_cons_of_mem v hw)

/-- Following an open path for writing makes nothing. -/
theorem resolve_of_opens {p : Path} {level : Nat} (h : d.memory.Opens p level) :
    d.resolve p level = (d, d.memory.targets p level) := by
  have hfold : ∀ (segments : List Segment) (l : Locations), d.memory.OpensAlong l segments →
      segments.foldl (fun dl s => advance s dl) (d, l) =
        (d, segments.foldl (fun l s => d.memory.step (d.memory.expand .all l) s) l) := by
    intro segments
    induction segments with
    | nil => exact fun _ _ => rfl
    | cons s segments ih =>
      rintro l ⟨hs, hsegments⟩
      rw [List.foldl_cons, List.foldl_cons, advance_eq]
      dsimp only
      rw [prepareAll_of_opened hs]
      exact ih _ hsegments
  unfold resolve follow
  rw [hfold _ _ h]
  rfl

/-- Without arrays there are no members to copy. -/
theorem store_nil (d : Draft) (i : Index) (e : Entry) (strong : Bool) :
    d.store i e [] strong = d.place i e false strong :=
  rfl

end Draft

namespace Memory
variable {m n k : Memory} {i j : Index} {e : Entry} {v : Bool × Index}
  {visits rest : List (Bool × Index)}

/-- What is removed when the locations are written, the certain ones strongly: all that lies below
a certain one. -/
def swept (m : Memory) (visits : List (Bool × Index)) : List Index :=
  visits.flatMap fun v => if v.1 then m.below v.2 else []

theorem mem_swept : j ∈ m.swept visits ↔ ∃ v ∈ visits, v.1 = true ∧ j ∈ m.below v.2 := by
  unfold swept
  rw [List.mem_flatMap]
  refine exists_congr fun v => and_congr_right fun _ => ?_
  cases v.1 <;> simp

theorem swept_visits (m : Memory) (l : Locations) :
    m.swept l.visits = l.must.toList.flatMap m.below := by
  unfold swept Locations.visits
  rw [List.flatMap_append, List.flatMap_map, List.flatMap_map]
  simp

/-- The memory `n` is `m` after an entry was written to some locations, which are marked by whether
they are certain. -/
structure Assigned (m : Memory) (e : Entry) (visits : List (Bool × Index)) (n : Memory) : Prop where
  written : ∀ v ∈ visits,
    n.entry? v.2 = some (if v.1 then e else (m.entryOrUndefined v.2).join e)
  entry?_eq : ∀ j, (∀ v ∈ visits, j ≠ v.2) →
    n.entry? j = if j ∈ m.swept visits then none else m.entry? j
  isDefined_iff : ∀ j, n.isDefined j = true ↔
    (∃ v ∈ visits, j = v.2) ∨ j ∉ m.swept visits ∧ m.isDefined j = true
  strength?_eq : ∀ i j, (n.aliases i).strength? j =
    if i ∈ m.swept visits ∨ j ∈ m.swept visits then none else (m.aliases i).strength? j
  members_eq : ∀ j, (∀ v ∈ visits, v.2.Apart j) → (n.cell j).members = (m.cell j).members

theorem Consistent.contains_ne_of_mem_below (h : m.Consistent) (hj : j ∈ m.below i) :
    i.Contains j ∧ i ≠ j := by
  obtain ⟨s, -, hc⟩ := h.contains_of_mem_below hj
  refine ⟨(Index.contains_member i s).trans hc, ?_⟩
  rintro rfl
  exact Index.not_member_contains i s hc

theorem isDefined_put_register (m : Memory) (i j : Index) (e : Entry) :
    ((m.register i).put i e).isDefined j = true ↔ j = i ∨ m.isDefined j = true := by
  unfold put
  rw [isDefined_insert, isDefined_register]

/-- A location that does not contain another has nothing to do with where that one is listed. -/
theorem members_put_register (h : i.Apart j) (m : Memory) (e : Entry) :
    (((m.register i).put i e).cell j).members = (m.cell j).members := by
  rw [members_put, if_neg h.ne.symm]
  -- the one list that grows is that of the parent, which contains the location
  unfold register
  split
  · rfl
  · rfl
  · next parent s _ =>
    split
    · rw [cell_modify, if_neg]
      rintro ⟨rfl, -⟩
      exact h.2 (Index.contains_member j s)
    · rfl

/-- What is apart from a location lists the same when everything below the location is gone. -/
theorem Consistent.members_clearMembers_of_apart (h : m.Consistent) (hj : i.Apart j) :
    ((m.clearMembers i).cell j).members = (m.cell j).members := by
  have hgone (k : Index) (hk : k.Apart i) : ¬k ∈ m.below i :=
    fun hb => hk.2 (h.contains_ne_of_mem_below hb).1
  unfold clearMembers
  rw [members_discard, if_neg (by rw [mem_contains_ofList]; exact hgone j hj.symm)]
  apply ExtTreeSet.ext_mem
  intro s
  rw [OrdSet.mem_filter, and_iff_left]
  rw [Bool.not_eq_true', ← Bool.not_eq_true, mem_contains_ofList]
  exact hgone _ (hj.symm.of_contains (Index.contains_member j s))

theorem listsAlong_congr {segments : List Segment}
    (h : ∀ j, i.Contains j → (n.cell j).members = (m.cell j).members) :
    n.ListsAlong i segments ↔ m.ListsAlong i segments := by
  induction segments generalizing i with
  | nil => exact Iff.rfl
  | cons s segments ih =>
    rw [ListsAlong, ListsAlong, h i (Index.contains_refl i),
      ih fun j hj => h j ((Index.contains_member i s).trans hj)]

theorem Consistent.mem_below_congr (hm : m.Consistent) (hn : n.Consistent)
    (h : ∀ j, i.Contains j → (n.cell j).members = (m.cell j).members) :
    j ∈ n.below i ↔ j ∈ m.below i := by
  rw [hm.mem_below, hn.mem_below]
  simp only [listsAlong_congr h]

/-- One location after another that is apart from it. -/
theorem Assigned.cons (hm : m.Consistent) (hk : k.Consistent) (h : m.Assigned e [v] k)
    (hrest : k.Assigned e rest n) (hapart : ∀ w ∈ rest, v.2.Apart w.2) :
    m.Assigned e (v :: rest) n := by
  have hv {j : Index} (hj : j ∈ m.swept [v]) : v.2.Contains j := by
    obtain ⟨w, hw, -, hb⟩ := mem_swept.1 hj
    rw [List.mem_singleton.1 hw] at hb
    exact (hm.contains_ne_of_mem_below hb).1
  -- what lies below the other locations is the same before and after
  have hswept (j : Index) : j ∈ k.swept rest ↔ j ∈ m.swept rest := by
    rw [mem_swept, mem_swept]
    refine exists_congr fun w => and_congr_right fun hw => and_congr_right fun _ => ?_
    refine hm.mem_below_congr hk fun j hj => h.members_eq j ?_
    rintro u hu
    rw [List.mem_singleton.1 hu]
    exact ((hapart w hw).symm.of_contains hj).symm
  have hcons (j : Index) : j ∈ m.swept (v :: rest) ↔ j ∈ m.swept [v] ∨ j ∈ m.swept rest := by
    simp only [mem_swept, List.mem_cons, exists_eq_or_imp, List.not_mem_nil, or_false,
      exists_eq_left]
  have hkept {w : Bool × Index} (hw : w ∈ rest) : k.entry? w.2 = m.entry? w.2 := by
    rw [h.entry?_eq w.2, if_neg fun hj => (hapart w hw).1 (hv hj)]
    intro u hu
    rw [List.mem_singleton.1 hu]
    exact (hapart w hw).ne.symm
  have hnot : v.2 ∉ k.swept rest := by
    intro hj
    obtain ⟨w, hw, -, hb⟩ := mem_swept.1 hj
    exact (hapart w hw).2 (hk.contains_ne_of_mem_below hb).1
  constructor
  · intro w hw
    -- the first location is not touched again, and the others were as before when their turn came
    rcases List.mem_cons.1 hw with rfl | hw
    · rw [hrest.entry?_eq w.2 fun u hu => (hapart u hu).ne, if_neg hnot]
      exact h.written w List.mem_cons_self
    · rw [hrest.written w hw, entryOrUndefined_congr (hkept hw)]
  · intro j hj
    obtain ⟨hne, hj⟩ := List.forall_mem_cons.1 hj
    rw [hrest.entry?_eq j hj, h.entry?_eq j (by simpa using hne)]
    simp only [hcons, hswept]
    by_cases hfirst : j ∈ m.swept [v] <;> simp [hfirst]
  · intro j
    rw [hrest.isDefined_iff, h.isDefined_iff, hcons, hswept]
    simp only [List.mem_cons, exists_eq_or_imp, List.not_mem_nil, or_false, exists_eq_left]
    constructor
    · rintro (hj | ⟨hj, rfl | ⟨hj', hd⟩⟩)
      · exact .inl (.inr hj)
      · exact .inl (.inl rfl)
      · exact .inr ⟨fun hor => hor.elim hj' hj, hd⟩
    · rintro ((rfl | hj) | ⟨hj, hd⟩)
      · exact .inr ⟨fun hj => hnot ((hswept _).2 hj), .inl rfl⟩
      · exact .inl hj
      · exact .inr ⟨fun h => hj (.inr h), .inr ⟨fun h => hj (.inl h), hd⟩⟩
  · intro i j
    rw [hrest.strength?_eq, h.strength?_eq]
    simp only [hcons, hswept]
    by_cases hi : i ∈ m.swept [v] <;> by_cases hj : j ∈ m.swept [v] <;> simp [hi, hj]
  · intro j hj
    obtain ⟨hv, hj⟩ := List.forall_mem_cons.1 hj
    rw [hrest.members_eq j hj, h.members_eq j (by simpa using hv)]

end Memory

namespace Draft
variable {d : Draft} {i : Index} {e : Entry}

/-- One location. A possible one keeps its members, since it keeps its array. -/
theorem Free.assigned_place (h : d.Free) (he : e.IsFlat) (v : Bool × Index) :
    d.memory.Assigned e [v] (d.place v.2 e false v.1).memory := by
  obtain ⟨certain, i⟩ := v
  cases certain with
  | false =>
    have hswept : d.memory.swept [(false, i)] = [] := rfl
    dsimp only
    rw [h.place_weak, incoming_flat he]
    constructor
    · simp [Memory.entry?_put_register]
    · intro j hj
      have hne : j ≠ i := hj _ List.mem_cons_self
      simp [hswept, Memory.entry?_put_register, hne]
    · intro j
      simp [hswept, Memory.isDefined_put_register]
    · intro j k
      simp [hswept]
    · intro j hj
      exact Memory.members_put_register (hj _ List.mem_cons_self) _ _
  | true =>
    have hswept : d.memory.swept [(true, i)] = d.memory.below i := by
      unfold Memory.swept
      rw [List.flatMap_singleton, if_pos rfl]
    dsimp only
    rw [h.place_strong, incoming_flat he]
    constructor
    · simp [Memory.entry?_put_register]
    · intro j hj
      have hne : j ≠ i := hj _ List.mem_cons_self
      rw [Memory.entry?_put_register, if_neg hne, Memory.clearMembers,
        Memory.entry?_discard, hswept]
      simp only [Memory.mem_contains_ofList]
    · intro j
      rw [Memory.isDefined_put_register, Memory.clearMembers, Memory.isDefined_discard, hswept,
        ← Bool.not_eq_true, Memory.mem_contains_ofList]
      simp
    · intro j k
      rw [Memory.aliases_put, Memory.aliases_register, Memory.clearMembers,
        Memory.strength?_discard, hswept]
      simp only [Bool.or_eq_true, Memory.mem_contains_ofList]
    · intro j hj
      have hapart := hj _ List.mem_cons_self
      rw [Memory.members_put_register hapart, h.consistent.members_clearMembers_of_apart hapart]

/-- By induction on the locations, each of which is apart from those before it. -/
theorem Free.assigned_foldl {visits : List (Bool × Index)} (h : d.Free) (he : e.IsFlat)
    (hapart : visits.Pairwise fun v w => v.2.Apart w.2) :
    d.memory.Assigned e visits
      (visits.foldl (fun d v => d.place v.2 e false v.1) d).memory := by
  induction visits generalizing d with
  | nil =>
    refine ⟨by simp, fun j _ => ?_, fun j => ?_, fun i j => ?_, fun _ _ => rfl⟩
    · simp [Memory.mem_swept]
    · simp [Memory.mem_swept]
    · simp [Memory.mem_swept]
  | cons v rest ih =>
    obtain ⟨hv, hrest⟩ := List.pairwise_cons.1 hapart
    have hplaced := h.place he.isData v.2 false v.1
    exact (h.assigned_place he v).cons h.consistent hplaced.consistent (ih hplaced hrest) hv

/-- A flat entry is written to all that an open path denotes. -/
theorem Free.assigned_assign {p : Path} {level : Nat} (h : d.Free) (he : e.IsFlat)
    (hp : d.memory.Opens p level)
    (hapart : ∀ i ∈ (d.memory.targets p level).toList, ∀ j ∈ (d.memory.targets p level).toList,
      i.isAncestorOf j = false) :
    d.memory.Assigned e (d.memory.targets p level).visits (d.assign p level e false).memory := by
  have hmem {v : Bool × Index} (hv : v ∈ (d.memory.targets p level).visits) :
      v.2 ∈ (d.memory.targets p level).toList :=
    Locations.mem_toList.2 ((Locations.mem_visits.1 hv).imp And.right And.right)
  -- no location is visited twice, so none that is visited contains another one
  have hpairwise : (d.memory.targets p level).visits.Pairwise fun v w => v.2.Apart w.2 := by
    have hnodup := Locations.nodup_visits
      (Memory.separate_expand d.memory .all (d.memory.follow .all p level))
    refine (List.pairwise_map.1 hnodup).imp_of_mem fun {v w} hv hw hne =>
      ⟨fun hc => ?_, fun hc => ?_⟩
    · exact Bool.eq_false_iff.1 (hapart _ (hmem hv) _ (hmem hw))
        (Index.isAncestorOf_iff.2 ⟨hc, hne⟩)
    · exact Bool.eq_false_iff.1 (hapart _ (hmem hw) _ (hmem hv))
        (Index.isAncestorOf_iff.2 ⟨hc, hne.symm⟩)
  have hstore : d.assign p level e false =
      (d.memory.targets p level).visits.foldl (fun d v => d.place v.2 e false v.1) d := by
    unfold assign
    rw [resolve_of_opens hp]
    dsimp only
    rw [ofEntry_flat d.memory he, storeAll_eq]
    apply List.foldl_ext
    rintro d' ⟨certain, i⟩ hv
    rw [store_nil]
    cases certain with
    | false => rfl
    | true =>
      -- a certain location shows that no unknown member was crossed
      have hmust := ((Locations.mem_visits.1 hv).resolve_right fun hf => nomatch hf.1).2
      have hunknown : (d.memory.targets p level).unknown = false :=
        Bool.eq_false_iff.2 fun hu => Memory.cautious_targets d.memory p level hu i hmust
      rw [hunknown]
      rfl
  rw [hstore]
  exact h.assigned_foldl he hpairwise

end Draft

namespace Snapshot
variable {b : Memory} {e : Entry} {s : Snapshot} {p : Path}

/-- What an assignment of a flat entry does without a simplify limit, if all containers on the way
of the path are there and no location that the path denotes lies below another. The certain ones
hold the entry and lose all that is listed below them, the possible ones hold it besides what they
held. Every other location is as it was, and every one that is left has its aliases but for those
that are gone. -/
theorem assign_changes_targets_only (hs : Reachable s) (hopen : s.phase = .open b)
    (hlimit : s.limits.simplify = none) (he : e.IsFlat) (hp : s.memory.Opens p s.memory.level)
    (hapart : ∀ i ∈ (s.memory.targets p s.memory.level).toList,
      ∀ j ∈ (s.memory.targets p s.memory.level).toList, i.isAncestorOf j = false) :
    let targets := s.memory.targets p s.memory.level
    let removed := targets.must.toList.flatMap s.memory.below
    ∃ t, (assign p e false).run s = .ok () t ∧
      (∀ i ∈ targets.must, t.memory.entry? i = some e) ∧
      (∀ i ∈ targets.may, t.memory.entry? i = some ((s.memory.entryOrUndefined i).join e)) ∧
      (∀ i ∈ removed, t.memory.isDefined i = false) ∧
      (∀ i ∉ targets.toList, i ∉ removed → t.memory.isDefined i = s.memory.isDefined i ∧
        t.memory.entry? i = s.memory.entry? i ∧
        t.memory.holdsArray i = s.memory.holdsArray i ∧
        t.memory.objectsAt i = s.memory.objectsAt i) ∧
      ∀ i ∉ removed, t.memory.aliases i = (s.memory.aliases i).filter fun j =>
        !removed.contains j := by
  intro targets removed
  have hconsistent := (hs.upholds Memory.consistent_durable).memory
  have hfree : ({ memory := s.memory, limit := s.limits.simplify } : Draft).Free :=
    ⟨hlimit, hconsistent⟩
  obtain ⟨t, hrun, hmemory⟩ :=
    Transact.mutate_ok .assign hopen (Edit.assign_run _ p he.isData false)
  have hassigned : s.memory.Assigned e targets.visits t.memory :=
    hmemory ▸ hfree.assigned_assign he hp hapart
  have hswept : s.memory.swept targets.visits = removed := Memory.swept_visits ..
  have hvisited {i : Index} (hi : i ∉ targets.toList) : ∀ v ∈ targets.visits, i ≠ v.2 := by
    rintro v hv rfl
    exact hi (Locations.mem_toList.2 ((Locations.mem_visits.1 hv).imp And.right And.right))
  -- nothing that is written lies below a location that is
  have hremoved {i : Index} (hi : i ∈ removed) : i ∉ targets.toList := by
    obtain ⟨j, hj, hb⟩ := List.mem_flatMap.1 hi
    have hmust : j ∈ targets.toList := Locations.mem_toList.2 (.inl (ExtTreeSet.mem_toList.1 hj))
    exact fun hmem => Bool.eq_false_iff.1 (hapart j hmust i hmem)
      (Index.isAncestorOf_iff.2 (hconsistent.contains_ne_of_mem_below hb))
  refine ⟨t, hrun, ?_, ?_, ?_, ?_, ?_⟩
  · exact fun i hi => hassigned.written (true, i) (Locations.mem_visits.2 (.inl ⟨rfl, hi⟩))
  · exact fun i hi => hassigned.written (false, i) (Locations.mem_visits.2 (.inr ⟨rfl, hi⟩))
  · intro i hi
    rw [← Bool.not_eq_true, hassigned.isDefined_iff, hswept]
    rintro (⟨v, hv, heq⟩ | ⟨hnot, -⟩)
    · exact hvisited (hremoved hi) v hv heq
    · exact hnot hi
  · intro i hi hnot
    have hentry : t.memory.entry? i = s.memory.entry? i := by
      rw [hassigned.entry?_eq i (hvisited hi), hswept, if_neg hnot]
    refine ⟨?_, hentry, Memory.holdsArray_congr hentry, Memory.objectsAt_congr hentry⟩
    rw [Bool.eq_iff_iff, hassigned.isDefined_iff, hswept, and_iff_right hnot, or_iff_right]
    rintro ⟨v, hv, heq⟩
    exact hvisited hi v hv heq
  · intro i hnot
    apply AliasSet.ext_strength?
    intro j
    rw [hassigned.strength?_eq, hswept, AliasSet.strength?_filter]
    by_cases hj : j ∈ removed <;> simp [hnot, hj]

set_option maxRecDepth 20000 in
/-- An element that is an array, and an alias of it. A number assigned to the element replaces both
arrays, and the array that the element is in stays. -/
theorem assign_changes_targets_only_element :
    let one : Segment := .key (.integer 1)
    let x : Index := .ofVariable "x" .global
    let y : Index := .ofVariable "y" .global
    let element : Path := (Path.ofVariable "x").member one
    let seven : Entry := .ofValue (.scalar (.integer 7))
    let ops : List Operation := [.start, .change (.assign (element.member one) .undefined false),
      .change (.assignAlias (.ofVariable "y") element)]
    let s := ops.foldl after {}
    Reachable s ∧ s.memory.isDefined (y.member one) = true ∧
      ∃ t, (assign element seven false).run s = .ok () t ∧
        t.memory.entry? (x.member one) = some seven ∧ t.memory.entry? y = some seven ∧
        t.memory.isDefined (y.member one) = false ∧
        t.memory.entry? x = s.memory.entry? x ∧
        t.memory.aliases y = (s.memory.aliases y).filter fun j =>
          !([y.member one, (x.member one).member one] : List Index).contains j := by
  intro one x y element seven ops s
  have hs : Reachable s := (Reachable.blank {}).foldl
    (by simp [ops, Operation.sources, Mutation.sources])
  have h := assign_changes_targets_only (s := s) (b := .initial) (p := element) (e := seven) hs
    (by decide +kernel) (by decide +kernel) (Entry.all_ofValue ⟨rfl, rfl⟩) (by decide +kernel)
    (by decide +kernel)
  have hbelow : (s.memory.targets element s.memory.level).must.toList.flatMap s.memory.below =
      [y.member one, (x.member one).member one] := by decide +kernel
  obtain ⟨t, hrun, hmust, -, hremoved, hkept, haliases⟩ := h
  rw [hbelow] at hremoved hkept haliases
  refine ⟨hs, by decide +kernel, t, hrun, ?_, ?_, ?_, ?_, ?_⟩
  · exact hmust _ (ExtTreeSet.contains_iff_mem.1 (by decide +kernel))
  · exact hmust _ (ExtTreeSet.contains_iff_mem.1 (by decide +kernel))
  · exact hremoved _ (by simp)
  · exact (hkept x (by decide +kernel) (by decide +kernel)).2.1
  · exact haliases y (by decide +kernel)

end Snapshot
end ScriptMemory
