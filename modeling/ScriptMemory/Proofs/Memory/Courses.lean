import ScriptMemory.Proofs.Memory.Confinement
import ScriptMemory.Proofs.Memory.Retention

/-! Paths that are made unknown one after the other. Each write follows its path from location to
location, makes the containers that are missing, and replaces what is at the end: so it may take
away what an earlier one has written, or the way there. Where it spares both, the earlier path still
reads as anything. -/
namespace ScriptMemory
open Std

/-- One step of a run brings something about, from what holds all along, and the others leave it. -/
theorem foldl_of_brings {β γ : Type} {f : β → γ → β} {steps : List γ} {x : γ}
    {I J : β → Prop} {b : β}
    (hx : x ∈ steps) (h : I b) (hkeeps : ∀ b, I b → ∀ y ∈ steps, I (f b y))
    (hbrings : ∀ b, I b → J (f b x)) (hleaves : ∀ b, I b → J b → ∀ y ∈ steps, J (f b y)) :
    J (steps.foldl f b) := by
  obtain ⟨front, rest, rfl⟩ := List.append_of_mem hx
  have hfront : I (front.foldl f b) :=
    List.foldlRecOn (motive := I) front f h fun b hb y hy =>
      hkeeps b hb y (List.mem_append_left _ hy)
  rw [List.foldl_append, List.foldl_cons]
  refine (List.foldlRecOn (motive := fun b => I b ∧ J b) rest f
    ⟨hkeeps _ hfront x hx, hbrings _ hfront⟩ ?_).2
  rintro b ⟨hb, hj⟩ y hy
  have hy : y ∈ front ++ x :: rest := List.mem_append_right _ (List.mem_cons_of_mem _ hy)
  exact ⟨hkeeps b hb y hy, hleaves b hb hj y hy⟩

namespace Locations
variable {l : Locations} {i : Index}

theorem not_isEmpty_of_mem (hi : i ∈ l.toList) : ¬l.isEmpty = true := by
  unfold isEmpty
  rw [Bool.and_eq_true, ExtTreeSet.isEmpty_iff, ExtTreeSet.isEmpty_iff]
  rintro ⟨hmust, hmay⟩
  rw [mem_toList, hmust, hmay] at hi
  exact hi.elim ExtTreeSet.not_mem_empty ExtTreeSet.not_mem_empty

theorem mem_toList_split {must all : OrdSet Index} {unknown : Bool} (hi : i ∈ all) :
    i ∈ (split must all unknown).toList := by
  by_cases hmust : i ∈ must
  · exact mem_toList.2 (.inl hmust)
  · exact mem_toList.2 (.inr (ExtTreeSet.mem_diff_iff.2 ⟨hi, hmust⟩))

theorem exists_mem_visits (hi : i ∈ l.toList) : ∃ certain, (certain, i) ∈ l.visits := by
  rcases mem_toList.1 hi with hi | hi
  · exact ⟨true, mem_visits.2 (.inl ⟨rfl, hi⟩)⟩
  · exact ⟨false, mem_visits.2 (.inr ⟨rfl, hi⟩)⟩

theorem mem_must_of_mem_visits {v : Bool × Index} (hv : v ∈ l.visits) (hcertain : v.1 = true) :
    v.2 ∈ l.must.toList := by
  rcases mem_visits.1 hv with ⟨-, hmust⟩ | ⟨hpossible, -⟩
  · exact ExtTreeSet.mem_toList.2 hmust
  · exact nomatch hcertain.symm.trans hpossible

theorem mem_may_of_mem_visits {v : Bool × Index} (hv : v ∈ l.visits) (hpossible : v.1 = false) :
    v.2 ∈ l.may.toList := by
  rcases mem_visits.1 hv with ⟨hcertain, -⟩ | ⟨-, hmay⟩
  · exact nomatch hcertain.symm.trans hpossible
  · exact ExtTreeSet.mem_toList.2 hmay

end Locations

namespace Memory
variable {m n : Memory} {l : Locations} {i j start : Index} {s : Segment}
  {segments : List Segment} {holders : List Index} {p : Path} {level : Nat} {o : ObjectValue}

theorem any_mem_summarize {entries : List Entry} {e : Entry} (he : e ∈ entries) (hmem : .any ∈ e) :
    .any ∈ summarize entries := by
  have hdefined : .any ∈ ((entries.flatMap Entry.toList).filter fun v => v.finding?.isNone).filter
      fun v => v ≠ .undefined := by
    have hvalue : .any ∈ entries.flatMap Entry.toList :=
      List.mem_flatMap.2 ⟨e, he, Entry.mem_toList.2 hmem⟩
    exact List.mem_filter.2 ⟨List.mem_filter.2 ⟨hvalue, rfl⟩, rfl⟩
  -- anything has no kind, so there is no common one
  have hkinds : (((entries.flatMap Entry.toList).filter fun v => v.finding?.isNone).filter
      fun v => v ≠ .undefined).mapM Value.kind? = none := by
    generalize ((entries.flatMap Entry.toList).filter fun v => v.finding?.isNone).filter
      (fun v => v ≠ .undefined) = values at hdefined
    induction values with
    | nil => cases hdefined
    | cons v values ih =>
      rw [List.mapM_cons]
      rcases List.mem_cons.1 hdefined with rfl | hrest
      · rfl
      · rw [ih hrest]
        cases v.kind? <;> rfl
  unfold summarize
  dsimp only
  rw [hkinds]
  dsimp only
  split
  · exact (Entry.mem_insert_iff_of_isSolid Value.any_isSolid).2 (.inr (Entry.mem_ofValue.2 rfl))
  · exact Entry.mem_ofValue.2 rfl

theorem any_mem_readLocations (hi : i ∈ l.toList) (hany : .any ∈ m.readIndex i)
    (hcounts : (m.isDefined i || !i.isUnknownMember) = true) : .any ∈ m.readLocations l := by
  unfold readLocations
  rw [if_neg (Locations.not_isEmpty_of_mem hi)]
  split
  · exact any_mem_summarize
      (List.mem_map.2 ⟨i, List.mem_filter.2 ⟨hi, hcounts⟩, rfl⟩) hany
  · exact (Entry.mem_foldl_join_iff_of_isSolid Value.any_isSolid).2
      (.inr ⟨_, List.mem_map.2 ⟨i, hi, rfl⟩, hany⟩)

theorem Holds.mem_readIndex {v : Value} (h : m.Holds i v) :
    v ∈ m.readIndex i ∧ m.isDefined i = true := by
  obtain ⟨e, he, hv⟩ := h
  refine ⟨?_, isDefined_of_entry? he⟩
  unfold readIndex
  rwa [he]

/-- An element that is not there is anything if its array is. -/
theorem Holds.any_mem_readIndex_member (h : m.Holds i .any) (hnone : m.entry? (i.member s) = none) :
    .any ∈ m.readIndex (i.member s) := by
  obtain ⟨e, he, hv⟩ := h
  have hopaque : m.isBelowOpaque (i.member s) = true := by
    unfold isBelowOpaque
    simp [he, Entry.contains_eq_true.2 hv]
  unfold readIndex
  rw [hnone, Option.getD_none, readAbsent_eq, if_pos hopaque]
  exact (Entry.mem_insert_iff_of_isSolid Value.any_isSolid).2 (.inl rfl)

/-- The location is reached from `start` along the segments. The `holders` are the locations that
hold the objects whose fields the way passes. -/
inductive Walk (m : Memory) (start : Index) : List Segment → List Index → Index → Prop where
  | nil : Walk m start [] [] start
  | key {segments : List Segment} {holders : List Index} {i : Index} {s : Segment}
      (h : Walk m start segments holders i) (hs : s.isField = false) :
      Walk m start (segments ++ [s]) holders (i.member s)
  | field {segments : List Segment} {holders : List Index} {i : Index} {s : Segment}
      {o : ObjectValue} (h : Walk m start segments holders i) (hs : s.isField = true)
      (ho : o ∈ m.objectsAt i) : Walk m start (segments ++ [s]) (holders ++ [i]) (o.index.member s)

theorem Retains.mem_objectsAt (h : m.Retains n i) (ho : o ∈ m.objectsAt i) : o ∈ n.objectsAt i :=
  Memory.mem_objectsAt.2 (h _ (Value.object_isLasting o) (Memory.mem_objectsAt.1 ho))

/-- A way stays open while its objects stay where they are. -/
theorem Walk.retained (h : m.Walk start segments holders i)
    (hkept : ∀ j ∈ holders, m.Retains n j) : n.Walk start segments holders i := by
  induction h with
  | nil => exact .nil
  | key _ hs ih => exact .key (ih hkept) hs
  | field _ hs ho ih =>
    have hlast := hkept _ (List.mem_append_right _ List.mem_cons_self)
    exact .field (ih fun j hj => hkept j (List.mem_append_left _ hj)) hs (hlast.mem_objectsAt ho)

theorem Walk.objectsAt_ne_nil (h : m.Walk start segments holders i) (hj : j ∈ holders) :
    m.objectsAt j ≠ [] := by
  induction h with
  | nil => cases hj
  | key _ _ ih => exact ih hj
  | field _ _ ho ih =>
    rcases List.mem_append.1 hj with hj | hj
    · exact ih hj
    · rw [List.mem_singleton.1 hj]
      exact List.ne_nil_of_mem ho

theorem mem_expand_of_mem (hi : i ∈ l.toList) (use : AliasReach) : i ∈ (m.expand use l).toList := by
  rcases Locations.mem_toList.1 hi with hmust | hmay
  · exact Locations.mem_toList.2 (.inl (mem_must_expand.2 ⟨i, hmust, .refl⟩))
  · cases use with
    | must => exact Locations.mem_toList_split hmay
    | all =>
      by_cases hmust : i ∈ (m.expand .all l).must
      · exact Locations.mem_toList.2 (.inl hmust)
      · exact Locations.mem_toList.2 (.inr (mem_may_expand.2 ⟨⟨i, .inr hmay, .refl⟩, hmust⟩))

theorem mem_step_of_mem (hi : i ∈ l.toList) (hj : j ∈ m.membersNamed i s) :
    j ∈ (m.step l s).toList :=
  Locations.mem_toList_split (OrdSet.mem_ofList.2 (List.mem_flatMap.2 ⟨i, hi, hj⟩))

theorem exists_of_mem_step (hj : j ∈ (m.step l s).toList) :
    ∃ i ∈ l.toList, j ∈ m.membersNamed i s := by
  rcases Locations.mem_toList.1 hj with hmust | hmay
  · obtain ⟨i, hi, hnamed⟩ := List.mem_filterMap.1 (OrdSet.mem_ofList.1 hmust)
    exact ⟨i, Locations.mem_toList.2 (.inl (ExtTreeSet.mem_toList.1 hi)),
      mem_membersNamed_of_memberNamed? hnamed⟩
  · exact List.mem_flatMap.1 (OrdSet.mem_ofList.1 (ExtTreeSet.mem_diff_iff.1 hmay).1)

theorem mem_membersNamed_of_known (hs : s.isUnknown = false) :
    j ∈ m.membersNamed i s ↔ ∃ c ∈ m.containersOf i s, j = c.member s := by
  unfold membersNamed
  simp only [hs, Bool.false_eq_true, if_false, List.nil_append, List.mem_flatMap,
    List.mem_singleton]

theorem member_mem_membersNamed {c : Index} (hc : c ∈ m.containersOf i s) :
    c.member s ∈ m.membersNamed i s :=
  List.mem_flatMap.2 ⟨c, hc, List.mem_append_right _ List.mem_cons_self⟩

theorem containersOf_key (hs : s.isField = false) (m : Memory) (i : Index) :
    m.containersOf i s = [i] := by
  unfold containersOf
  rw [hs, Bool.false_and, if_neg Bool.false_ne_true]

theorem containersOf_field (hs : s.isField = true) (h : m.objectsAt i ≠ []) :
    m.containersOf i s = (m.objectsAt i).map ObjectValue.index := by
  unfold containersOf
  rw [hs, Bool.true_and, if_pos]
  rw [Bool.not_eq_true', List.isEmpty_eq_false_iff]
  exact h

theorem member_mem_step_key (hi : i ∈ l.toList) (hs : s.isField = false) :
    i.member s ∈ (m.step l s).toList := by
  refine mem_step_of_mem hi (member_mem_membersNamed ?_)
  rw [containersOf_key hs]
  exact List.mem_singleton.2 rfl

theorem member_mem_step_field (hi : i ∈ l.toList) (hs : s.isField = true)
    (ho : o ∈ m.objectsAt i) : o.index.member s ∈ (m.step l s).toList := by
  refine mem_step_of_mem hi (member_mem_membersNamed ?_)
  rw [containersOf_field hs (List.ne_nil_of_mem ho)]
  exact List.mem_map_of_mem ho

/-- A path denotes all that a way along it leads to. -/
theorem Walk.mem_follow (h : m.Walk (p.indexAt level) segments holders i) :
    i ∈ (segments.foldl (fun l s => m.step (m.expand .must l) s) (.ofVariable p level)).toList := by
  induction h with
  | nil =>
    rw [List.foldl_nil, toList_ofVariable]
    exact List.mem_singleton.2 rfl
  | key _ hs ih =>
    rw [List.foldl_concat]
    exact member_mem_step_key (mem_expand_of_mem ih .must) hs
  | field _ hs ho ih =>
    rw [List.foldl_concat]
    exact member_mem_step_field (mem_expand_of_mem ih .must) hs ho

/-- One of the members of a location that a segment names. -/
def into (m : Memory) (i : Index) (s : Segment) : Index :=
  ((m.containersOf i s).headD i).member s

theorem into_key (hs : s.isField = false) (m : Memory) (i : Index) : m.into i s = i.member s := by
  unfold into
  rw [containersOf_key hs]
  rfl

theorem into_field (hs : s.isField = true) (h : m.objectsAt i ≠ []) :
    ∃ o ∈ m.objectsAt i, m.into i s = o.index.member s := by
  obtain ⟨o, rest, heq⟩ := List.exists_cons_of_ne_nil h
  refine ⟨o, heq ▸ List.mem_cons_self, ?_⟩
  unfold into
  rw [containersOf_field hs h, heq]
  rfl

theorem into_mem_membersNamed (m : Memory) (i : Index) (s : Segment) :
    m.into i s ∈ m.membersNamed i s := by
  apply member_mem_membersNamed
  cases hc : m.containersOf i s with
  | cons c rest => exact List.mem_cons_self
  | nil =>
    unfold containersOf at hc
    split at hc
    · next h => simp_all
    · cases hc

theorem Walk.into (h : m.Walk start segments holders i)
    (hopened : s.isField = true → m.objectsAt i ≠ []) :
    m.Walk start (segments ++ [s]) (if s.isField then holders ++ [i] else holders)
      (m.into i s) := by
  cases hs : s.isField with
  | true =>
    obtain ⟨o, ho, heq⟩ := into_field hs (hopened hs)
    rw [heq, if_pos rfl]
    exact .field h hs ho
  | false =>
    rw [into_key hs, if_neg Bool.false_ne_true]
    exact .key h hs

end Memory

/-- The way of a write along a path, towards one of the locations that the path denotes. -/
structure Course where
  /-- The locations that hold the objects whose fields the way passes. -/
  holders : List Index
  /-- Where the way ends. -/
  goal : Index
  /-- The locations at which a container for the segment is made where there is none. -/
  passes : List (Segment × Locations)
  /-- The locations that are written. -/
  ends : Locations

namespace Course

/-- The array that the goal is an element of, under a known key. -/
def container? (c : Course) : Option Index :=
  match c.goal with
  | .member parent (.key _) => some parent
  | _ => none

/-- The locations at which the write replaces what was there. -/
def replaced (c : Course) : List Index :=
  if c.ends.unknown then [] else c.ends.must.toList

/-- A write on the course `later` takes no object away that `c` passes. -/
structure SparesWay (later c : Course) : Prop where
  passed : ∀ x ∈ later.passes, ∀ v ∈ x.2.must.toList, ∀ i ∈ c.holders,
    x.1.Wipes v i → v = i ∧ x.1.isField = true
  replaced : ∀ v ∈ later.replaced, ∀ i ∈ c.holders, ¬v.Contains i

/-- Nor does it take away what was written at the goal of `c`. It may do so where it makes the array
unknown that the goal is in, the `fallback`, if nothing else touches that one or the goal. -/
structure Spares (later c : Course) (fallback : Option Index) : Prop
    extends SparesWay later c where
  goal_passed : ∀ x ∈ later.passes, ∀ v ∈ x.2.must.toList,
    ¬x.1.Wipes v c.goal ∧ ∀ i ∈ fallback, ¬x.1.Wipes v i
  goal_created : ∀ i ∈ fallback, ∀ x ∈ later.passes, c.goal ∉ x.2.may.toList
  goal_replaced : ∀ v ∈ later.replaced, v.Contains c.goal → v = c.goal ∨ fallback = some v

/-- The write reaches its goal, and each of the later ones spares it. -/
structure Outlasts (c : Course) (laters : List Course) : Prop where
  way : c.SparesWay c
  goal : ∀ v ∈ c.replaced, v.Contains c.goal → v = c.goal
  spared : ∃ fallback, (∀ i ∈ fallback, c.container? = some i) ∧
    ∀ later ∈ laters, later.Spares c fallback

theorem exists_goal_eq {c : Course} {i : Index} (h : c.container? = some i) :
    ∃ k, c.goal = i.member (.key k) := by
  unfold container? at h
  split at h
  · next parent k heq =>
    cases h
    exact ⟨k, heq⟩
  · cases h

theorem mem_replaced {c : Course} {v : Bool × Index} (hv : v ∈ c.ends.visits)
    (hstrong : (v.1 && !c.ends.unknown) = true) : v.2 ∈ c.replaced := by
  obtain ⟨hcertain, hknown⟩ := Bool.and_eq_true_iff.1 hstrong
  unfold replaced
  rw [if_neg (by simpa using hknown)]
  exact Locations.mem_must_of_mem_visits hv hcertain

end Course

namespace Memory
variable {m n : Memory} {c : Course} {fallback : Option Index} {i start : Index}
  {segments : List Segment} {p : Path} {level : Nat}

/-- The way of a course is open and ends where anything is read: because that is written there, or
because nothing is and the array around it has become anything. -/
structure Grants (m : Memory) (start : Index) (segments : List Segment) (c : Course)
    (fallback : Option Index) : Prop where
  walk : m.Walk start segments c.holders c.goal
  holds : m.Holds c.goal .any ∨ ∃ i ∈ fallback, m.Holds i .any ∧ m.entry? c.goal = none

theorem Grants.any_mem_readAt (h : m.Grants (p.indexAt level) p.segments c fallback)
    (hfallback : ∀ i ∈ fallback, c.container? = some i) : .any ∈ m.readAt p level := by
  have hmem : c.goal ∈ (m.resolve p level).toList := mem_expand_of_mem h.walk.mem_follow .must
  rcases h.holds with hgoal | ⟨i, hi, hholds, hnone⟩
  · obtain ⟨hread, hdefined⟩ := hgoal.mem_readIndex
    refine any_mem_readLocations hmem hread ?_
    rw [hdefined, Bool.true_or]
  · obtain ⟨k, hk⟩ := Course.exists_goal_eq (hfallback i hi)
    rw [hk] at hmem hnone
    refine any_mem_readLocations hmem (hholds.any_mem_readIndex_member hnone) ?_
    exact Bool.or_true _

theorem Grants.retained (h : m.Grants start segments c fallback)
    (hway : ∀ j ∈ c.holders, m.Retains n j) (hgoal : m.Retains n c.goal)
    (hfallback : ∀ i ∈ fallback, m.Retains n i)
    (hnone : ∀ i ∈ fallback, m.entry? c.goal = none → n.entry? c.goal = none) :
    n.Grants start segments c fallback where
  walk := h.walk.retained hway
  holds := by
    rcases h.holds with hholds | ⟨i, hi, hholds, hentry⟩
    · exact .inl (hgoal _ Value.any_isLasting hholds)
    · exact .inr ⟨i, hi, hfallback i hi _ Value.any_isLasting hholds, hnone i hi hentry⟩

end Memory

namespace Draft
variable {d : Draft} {l : Locations} {i start : Index} {s : Segment}
    {segments before : List Segment}
  {holders : List Index} {c later : Course} {fallback : Option Index} {v : Bool × Index}
  {x : Segment × Locations}

theorem walk_prepare (hd : d.memory.Consistent) (h : d.memory.Walk start segments holders i)
    (hpassed : v.1 = true → ∀ j ∈ holders, s.Wipes v.2 j → v.2 = j ∧ s.isField = true) :
    (d.prepare s v.1 v.2).memory.Walk start segments holders i := by
  refine h.retained fun j hj => retains_prepare hd fun hcertain hwipes => ?_
  obtain ⟨heq, hs⟩ := hpassed hcertain j hj hwipes
  refine ⟨heq, ?_⟩
  -- the object that the way passes is found, so none is made
  unfold Memory.Opened
  rw [if_pos hs, heq]
  exact h.objectsAt_ne_nil hj

theorem grants_prepare (hd : d.memory.Consistent)
    (h : d.memory.Grants start segments c fallback) (hspares : later.Spares c fallback)
    (hx : x ∈ later.passes) (hv : v ∈ x.2.visits) :
    (d.prepare x.1 v.1 v.2).memory.Grants start segments c fallback := by
  have hmust := Locations.mem_must_of_mem_visits hv
  have hgoal (hcertain : v.1 = true) := hspares.goal_passed x hx v.2 (hmust hcertain)
  have hwalk := walk_prepare hd h.walk fun hcertain => hspares.passed x hx v.2 (hmust hcertain)
  refine ⟨hwalk, ?_⟩
  -- either the goal keeps what it holds, or it stays absent and the array around it is kept
  rcases h.holds with hholds | ⟨i, hi, hholds, hnone⟩
  · refine .inl (retains_prepare hd ?_ _ Value.any_isLasting hholds)
    exact fun hcertain hwipes => absurd hwipes (hgoal hcertain).1
  · refine .inr ⟨i, hi, retains_prepare hd ?_ _ Value.any_isLasting hholds, ?_⟩
    · exact fun hcertain hwipes => absurd hwipes ((hgoal hcertain).2 i hi)
    · rw [entry?_prepare hd (fun hcertain => (hgoal hcertain).1), hnone]
      rintro hpossible heq
      exact hspares.goal_created i hi x hx (heq ▸ Locations.mem_may_of_mem_visits hv hpossible)

theorem walk_place {strong : Bool} {j : Index} {e : Entry} (hd : d.memory.Consistent)
    (h : d.memory.Walk start segments holders i)
    (hreplaced : strong = true → ∀ k ∈ holders, ¬j.Contains k) (hasArray : Bool) :
    (d.place j e hasArray strong).memory.Walk start segments holders i :=
  h.retained fun k hk => retains_place hd (fun hstrong => hreplaced hstrong k hk) e hasArray

theorem grants_place {strong : Bool} (hd : d.memory.Consistent)
    (h : d.memory.Grants start segments c fallback)
    (hfallback : ∀ j ∈ fallback, c.container? = some j)
    (hway : strong = true → ∀ j ∈ c.holders, ¬i.Contains j)
    (hgoal : strong = true → i.Contains c.goal → i = c.goal ∨ fallback = some i) :
    (d.place i (.ofValue .any) false strong).memory.Grants start segments c fallback := by
  refine ⟨walk_place hd h.walk hway false, ?_⟩
  have hwritten : (d.place i (.ofValue .any) false strong).memory.Holds i .any :=
    holds_place Value.any_isLasting (Entry.mem_ofValue.2 rfl) rfl i false strong
  by_cases hi : c.goal = i
  · rw [hi]
    exact .inl hwritten
  by_cases hin : fallback = some i
  · -- the array around the goal is written: what the goal holds stays, or it is removed
    rcases entry?_place_cases hd hi (.ofValue .any) false strong with hnone | hsame
    · exact .inr ⟨i, hin, hwritten, hnone⟩
    · rcases h.holds with hholds | ⟨j, -, -, hnone⟩
      · exact .inl (hholds.congr hsame)
      · exact .inr ⟨i, hin, hwritten, hsame.trans hnone⟩
  · have hout (hstrong : strong = true) : ¬i.Contains c.goal := by
      intro hc
      rcases hgoal hstrong hc with heq | heq
      · exact hi heq.symm
      · exact hin heq
    -- the write is elsewhere; what does not contain the goal does not contain its array either
    rcases h.holds with hholds | ⟨j, hj, hholds, hnone⟩
    · exact .inl (retains_place hd hout _ false _ Value.any_isLasting hholds)
    · have hcontainer (hstrong : strong = true) : ¬i.Contains j := by
        intro hc
        obtain ⟨k, hk⟩ := Course.exists_goal_eq (hfallback j hj)
        rw [hk] at hout
        exact hout hstrong (hc.trans (Index.contains_member j (.key k)))
      refine .inr ⟨j, hj, retains_place hd hcontainer _ false _ Value.any_isLasting hholds, ?_⟩
      exact (entry?_place_of_ne hd hi hout _ false).trans hnone

/-- The course that leads to one of the locations that segments denote below others, `i` being among
those. -/
def trace : Draft → Locations → Index → List Segment → Course
  | d, l, i, [] => ⟨[], i, [], d.memory.expand .all l⟩
  | d, l, i, s :: segments =>
    let next := advance s (d, l)
    let rest := trace next.1 next.2 (next.1.memory.into i s) segments
    { rest with
      holders := if s.isField then i :: rest.holders else rest.holders
      passes := (s, d.memory.expand .all l) :: rest.passes }

/-- The course along a path. -/
def course (d : Draft) (p : Path) (level : Nat) : Course :=
  d.trace (.ofVariable p level) (p.indexAt level) p.segments

/-- What each making of a container keeps holds after all of them. -/
theorem prepareAll_keeps {I : Draft → Prop} (h : I d)
    (hstep : ∀ d v, I d → v ∈ l.visits → I (d.prepare s v.1 v.2)) : I (d.prepareAll s l) :=
  List.foldlRecOn (motive := I) l.visits _ h fun d hd v hv => hstep d v hd hv

/-- What each making of a container on the course keeps holds at its end. -/
theorem advances_keep {I : Draft → Prop} (h : I d)
    (hstep : ∀ x ∈ (d.trace l i segments).passes, ∀ d v, I d → v ∈ x.2.visits →
      I (d.prepare x.1 v.1 v.2)) : I (segments.foldl (fun dl s => advance s dl) (d, l)).1 := by
  induction segments generalizing d l i with
  | nil => exact h
  | cons s segments ih =>
    have hnext : I (advance s (d, l)).1 := by
      rw [advance_eq]
      exact prepareAll_keeps h (hstep (s, _) List.mem_cons_self)
    exact ih hnext fun x hx => hstep x (List.mem_cons_of_mem _ hx)

theorem ends_trace (d : Draft) (l : Locations) (i : Index) (segments : List Segment) :
    (d.trace l i segments).ends =
      (segments.foldl (fun dl s => advance s dl) (d, l)).1.memory.expand .all
        (segments.foldl (fun dl s => advance s dl) (d, l)).2 := by
  induction segments generalizing d l i with
  | nil => rfl
  | cons s segments ih => exact ih _ _ _

theorem trace_cons (d : Draft) (l : Locations) (i : Index) (s : Segment) (segments : List Segment) :
    d.trace l i (s :: segments) =
      let l := d.memory.expand .all l
      let next := d.prepareAll s l
      let rest := next.trace (next.memory.step l s) (next.memory.into i s) segments
      { rest with
        holders := if s.isField then i :: rest.holders else rest.holders
        passes := (s, l) :: rest.passes } := by
  rw [trace, advance_eq]

theorem consistent_prepare (hd : d.memory.Consistent) (s : Segment) (v : Bool × Index) :
    (d.prepare s v.1 v.2).memory.Consistent :=
  survives_prepare Memory.consistent_durable.toSurvives hd trivial s v.1

/-- A location holds an object after all of them were prepared for a field, if none of the others
takes it away. -/
theorem objectsAt_prepareAll_ne_nil (hd : d.memory.Consistent) (hs : s.isField = true)
    (hi : i ∈ l.toList) (hpassed : ∀ v ∈ l.must.toList, s.Wipes v i → v = i) :
    (d.prepareAll s l).memory.objectsAt i ≠ [] := by
  obtain ⟨certain, hv⟩ := Locations.exists_mem_visits hi
  have hopened : (d.prepareAll s l).memory.Opened s i := by
    refine foldl_of_brings (I := fun d : Draft => d.memory.Consistent)
      (J := fun d : Draft => d.memory.Opened s i) hv hd (fun d hd v _ => consistent_prepare hd s v)
      (fun d _ => opened_prepare d s certain i) ?_
    intro d hd hopened v hv
    -- what the location holds is kept, since it is opened already
    have hkept : d.memory.Retains (d.prepare s v.1 v.2).memory i := by
      refine retains_prepare hd fun hcertain hwipes => ?_
      obtain rfl := hpassed v.2 (Locations.mem_must_of_mem_visits hv hcertain) hwipes
      exact ⟨rfl, hopened⟩
    obtain ⟨o, ho⟩ := List.exists_mem_of_ne_nil _ (hopened.objectsAt_ne_nil hs)
    unfold Memory.Opened
    rw [if_pos hs]
    exact List.ne_nil_of_mem (hkept.mem_objectsAt ho)
  exact hopened.objectsAt_ne_nil hs

/-- By induction on the segments: on a course that takes nothing away that it has passed, the way is
open up to where it has come. -/
theorem walk_trace (hd : d.memory.Consistent) (hi : i ∈ l.toList)
    (h : d.memory.Walk start before holders i)
    (hpassed : ∀ x ∈ (d.trace l i segments).passes, ∀ v ∈ x.2.must.toList,
      ∀ j ∈ holders ++ (d.trace l i segments).holders,
        x.1.Wipes v j → v = j ∧ x.1.isField = true) :
    (segments.foldl (fun dl s => advance s dl) (d, l)).1.memory.Walk start (before ++ segments)
        (holders ++ (d.trace l i segments).holders) (d.trace l i segments).goal ∧
      (d.trace l i segments).goal ∈ (d.trace l i segments).ends.toList := by
  induction segments generalizing d l i before holders with
  | nil =>
    refine ⟨?_, Memory.mem_expand_of_mem hi .all⟩
    rw [List.append_nil]
    unfold trace
    rw [List.append_nil]
    exact h
  | cons s segments ih =>
    rw [trace_cons] at hpassed ⊢
    rw [List.foldl_cons, advance_eq]
    dsimp only at hpassed ⊢
    obtain ⟨hfirst, hrest⟩ := List.forall_mem_cons.1 hpassed
    generalize hl : d.memory.expand .all l = l' at hfirst hrest ⊢
    have hi' : i ∈ l'.toList := hl ▸ Memory.mem_expand_of_mem hi .all
    obtain ⟨hd', hwalk⟩ : (d.prepareAll s l').memory.Consistent ∧
        (d.prepareAll s l').memory.Walk start before holders i := by
      let I (d : Draft) := d.memory.Consistent ∧ d.memory.Walk start before holders i
      refine prepareAll_keeps (I := I) ⟨hd, h⟩ fun d v hd hv => ⟨consistent_prepare hd.1 s v, ?_⟩
      refine walk_prepare hd.1 hd.2 fun hcertain j hj => hfirst v.2 ?_ j (List.mem_append_left _ hj)
      exact Locations.mem_must_of_mem_visits hv hcertain
    -- the way goes on through one of the members that the segment names there
    have hnext := Memory.into_mem_membersNamed (d.prepareAll s l').memory i s
    generalize hrest' : (d.prepareAll s l').trace _ _ segments = rest at hfirst hrest ⊢
    have hopened (hs : s.isField = true) : (d.prepareAll s l').memory.objectsAt i ≠ [] := by
      refine objectsAt_prepareAll_ne_nil hd hs hi' fun v hv hwipes => (hfirst v hv i ?_ hwipes).1
      rw [if_pos hs]
      exact List.mem_append_right _ List.mem_cons_self
    have hholders : (if s.isField then holders ++ [i] else holders) ++ rest.holders =
        holders ++ if s.isField then i :: rest.holders else rest.holders := by
      cases s.isField <;> simp
    rw [← hholders] at hrest ⊢
    rw [← hrest'] at hrest ⊢
    have hall := ih hd' (Memory.mem_step_of_mem hi' hnext) (hwalk.into hopened) hrest
    rwa [List.append_assoc] at hall

/-- The path is followed, containers being made on the way. -/
def followed (d : Draft) (p : Path) (level : Nat) : Draft :=
  (p.segments.foldl (fun dl s => advance s dl) (d, .ofVariable p level)).1

theorem consistent_followed (hd : d.memory.Consistent) (p : Path) (level : Nat) :
    (d.followed p level).memory.Consistent :=
  advances_keep (I := fun d => d.memory.Consistent) (i := p.indexAt level) hd
    fun x _ _ v hd _ => consistent_prepare hd x.1 v

/-- A course that takes nothing away that it has passed is open to its goal. -/
theorem walk_followed {p : Path} {level : Nat} (hd : d.memory.Consistent)
    (hway : (d.course p level).SparesWay (d.course p level)) :
    (d.followed p level).memory.Walk (p.indexAt level) p.segments (d.course p level).holders
        (d.course p level).goal ∧
      (d.course p level).goal ∈ (d.course p level).ends.toList := by
  refine walk_trace hd ?_ .nil hway.passed
  rw [Memory.toList_ofVariable]
  exact List.mem_singleton.2 rfl

/-- What is done at one of the locations at the end of a course that makes its path unknown. -/
def forgetAt (c : Course) (d : Draft) (v : Bool × Index) : Draft :=
  d.place v.2 (.ofValue .any) false (v.1 && !c.ends.unknown)

/-- Anything is no array, so that it is written without members. -/
theorem assign_any (d : Draft) (p : Path) (level : Nat) :
    d.assign p level (.ofValue .any) false =
      (d.course p level).ends.visits.foldl (forgetAt (d.course p level)) (d.followed p level) := by
  have hflat : (Entry.ofValue .any).IsFlat := Entry.all_ofValue ⟨rfl, rfl⟩
  have hresolve : d.resolve p level = (d.followed p level, (d.course p level).ends) := by
    unfold course
    rw [ends_trace]
    rfl
  unfold assign forgetAt
  rw [hresolve]
  dsimp only
  rw [ofEntry_flat _ hflat, storeAll_eq]
  simp only [Bool.false_or, store_nil]

theorem consistent_forgetAt (hd : d.memory.Consistent) (c : Course) (v : Bool × Index) :
    (d.forgetAt c v).memory.Consistent :=
  survives_place Memory.consistent_durable.toSurvives hd trivial (Entry.all_ofValue rfl) false _

theorem walk_forgetAt (hd : d.memory.Consistent) (h : d.memory.Walk start segments c.holders i)
    (hway : later.SparesWay c) (hv : v ∈ later.ends.visits) :
    (d.forgetAt later v).memory.Walk start segments c.holders i :=
  walk_place hd h (fun hstrong => hway.replaced v.2 (Course.mem_replaced hv hstrong)) false

theorem grants_forgetAt (hd : d.memory.Consistent) (h : d.memory.Grants start segments c fallback)
    (hfallback : ∀ j ∈ fallback, c.container? = some j) (hway : later.SparesWay c)
    (hgoal : ∀ v ∈ later.replaced, v.Contains c.goal → v = c.goal ∨ fallback = some v)
    (hv : v ∈ later.ends.visits) :
    (d.forgetAt later v).memory.Grants start segments c fallback :=
  grants_place hd h hfallback
    (fun hstrong => hway.replaced v.2 (Course.mem_replaced hv hstrong))
    fun hstrong => hgoal v.2 (Course.mem_replaced hv hstrong)

end Draft

namespace Memory
variable {m n : Memory} {limit : Option Nat} {p : Path} {start : Index} {segments : List Segment}
  {c : Course} {fallback : Option Index} {level : Nat} {paths : List Path}

/-- The memory after a path of the running function was made unknown. -/
def forget (limit : Option Nat) (m : Memory) (p : Path) : Memory :=
  (({ memory := m, limit } : Draft).assign p m.level (.ofValue .any) false).memory

/-- The course of the write that makes the path unknown. -/
def course (limit : Option Nat) (m : Memory) (p : Path) : Course :=
  ({ memory := m, limit } : Draft).course p m.level

/-- The courses of the writes that make one path after the other unknown. -/
def courses (limit : Option Nat) : Memory → List Path → List Course
  | _, [] => []
  | m, p :: paths => course limit m p :: courses limit (forget limit m p) paths

theorem confined_forget (h : m.Confined (fun _ => True) level) (limit : Option Nat) (p : Path) :
    (forget limit m p).Confined (fun _ => True) level :=
  Draft.survives_assign confined_survives_anywhere (d := { memory := m, limit }) h
    (Entry.all_ofValue rfl)
    (Locations.all_ofVariable (fun _ _ => trivial) p m.level) false

theorem confined_forget_all (h : m.Confined (fun _ => True) level) (limit : Option Nat)
    (paths : List Path) : (paths.foldl (forget limit) m).Confined (fun _ => True) level :=
  List.foldlRecOn (motive := Confined (fun _ => True) level) paths _ h fun _ hm p _ =>
    confined_forget hm limit p

/-- What spares the goal of a course leaves it readable. -/
theorem Grants.forget (h : m.Grants start segments c fallback) (hm : m.Consistent)
    (hfallback : ∀ i ∈ fallback, c.container? = some i)
    (hspares : (course limit m p).Spares c fallback) :
    (forget limit m p).Grants start segments c fallback := by
  let I (d : Draft) := d.memory.Consistent ∧ d.memory.Grants start segments c fallback
  have hfollowed : I (Draft.followed { memory := m, limit } p m.level) :=
    Draft.advances_keep (i := p.indexAt m.level) ⟨hm, h⟩ fun x hx d v hd hv =>
      ⟨Draft.consistent_prepare hd.1 x.1 v, Draft.grants_prepare hd.1 hd.2 hspares hx hv⟩
  unfold Memory.forget
  rw [Draft.assign_any]
  exact (List.foldlRecOn (motive := I) _ _ hfollowed fun d hd v hv =>
    ⟨Draft.consistent_forgetAt hd.1 _ v, Draft.grants_forgetAt hd.1 hd.2 hfallback
      hspares.toSparesWay hspares.goal_replaced hv⟩).2

theorem Grants.forget_all (h : m.Grants start segments c fallback)
    (hm : m.Confined (fun _ => True) level)
    (hfallback : ∀ i ∈ fallback, c.container? = some i)
    (hspares : ∀ later ∈ courses limit m paths, later.Spares c fallback) :
    (paths.foldl (Memory.forget limit) m).Grants start segments c fallback := by
  induction paths generalizing m with
  | nil => exact h
  | cons p paths ih =>
    obtain ⟨hfirst, hrest⟩ := List.forall_mem_cons.1 hspares
    exact ih (h.forget hm.toConsistent hfallback hfirst) (confined_forget hm limit p) hrest

/-- A path that was made unknown reads as anything, unless the write has destroyed its own way. -/
theorem grants_forget (hm : m.Consistent)
    (hway : (course limit m p).SparesWay (course limit m p))
    (hgoal : ∀ v ∈ (course limit m p).replaced,
      v.Contains (course limit m p).goal → v = (course limit m p).goal)
    (hfallback : ∀ i ∈ fallback, (course limit m p).container? = some i) :
    (forget limit m p).Grants (p.indexAt m.level) p.segments (course limit m p) fallback := by
  let c := course limit m p
  obtain ⟨hwalk, hmem⟩ := Draft.walk_followed (d := { memory := m, limit }) hm hway
  obtain ⟨certain, hv⟩ := Locations.exists_mem_visits hmem
  unfold forget
  rw [Draft.assign_any]
  -- the goal is written at some time, the way being open before, and kept from then on
  refine foldl_of_brings (I := fun d : Draft => d.memory.Consistent ∧
      d.memory.Walk (p.indexAt m.level) p.segments c.holders c.goal)
    (J := fun d : Draft => d.memory.Grants (p.indexAt m.level) p.segments c fallback)
    hv ⟨Draft.consistent_followed hm p m.level, hwalk⟩ ?_ ?_ ?_
  · rintro d ⟨hd, hwalk⟩ v hv
    exact ⟨Draft.consistent_forgetAt hd _ v, Draft.walk_forgetAt hd hwalk hway hv⟩
  · rintro d ⟨hd, hwalk⟩
    refine ⟨Draft.walk_forgetAt hd hwalk hway hv, .inl ?_⟩
    exact Draft.holds_place Value.any_isLasting (Entry.mem_ofValue.2 rfl) rfl ..
  · rintro d ⟨hd, -⟩ h v hv
    exact Draft.grants_forgetAt hd h hfallback hway (fun v hv hc => .inl (hgoal v hv hc)) hv

theorem Grants.widen (h : m.Grants start segments c fallback) (before : Memory) :
    (m.widen before).Grants start segments c fallback := by
  have hkept (j : Index) : m.Retains (m.widen before) j :=
    retains_of_coarsened (coarsened_widenEntry before) j
  refine h.retained (fun j _ => hkept j) (hkept _) (fun j _ => hkept j) fun _ _ hnone => ?_
  unfold Memory.widen
  rw [entry?_mapEntries, hnone]
  rfl

theorem level_committed (limits : Limits) (commits : Nat) (before m : Memory) :
    (committed limits commits before m).level = m.level := by
  unfold committed
  split <;> rfl

/-- If the write of one path is spared by those that come after it, the path reads as anything when
all of them are committed. -/
theorem any_mem_read_forget (h : m.Confined (fun _ => True) level)
    (hlasts : (course limit m p).Outlasts (courses limit (forget limit m p) paths))
    (limits : Limits) (commits : Nat) (before : Memory) :
    .any ∈ (committed limits commits before
      (paths.foldl (forget limit) (forget limit m p))).read p := by
  obtain ⟨hway, hgoal, fallback, hfallback, hspares⟩ := hlasts
  have hgrants := (grants_forget h.toConsistent hway hgoal hfallback).forget_all
    (confined_forget h limit p) hfallback hspares
  have hlevel : (paths.foldl (forget limit) (forget limit m p)).level = m.level :=
    (confined_forget_all (confined_forget h limit p) limit paths).level_eq.trans h.level_eq.symm
  generalize paths.foldl (forget limit) (forget limit m p) = n at hgrants hlevel ⊢
  have hcommitted : (committed limits commits before n).Grants (p.indexAt m.level) p.segments
      (course limit m p) fallback := by
    unfold committed
    split
    · exact hgrants.widen before
    · exact hgrants
  unfold read
  rw [level_committed, hlevel]
  exact hcommitted.any_mem_readAt hfallback

/-- The course to a variable passes nothing. -/
theorem course_variable (hp : p.isVariable = true) (limit : Option Nat) (m : Memory) :
    (course limit m p).holders = [] ∧ (course limit m p).passes = [] ∧
      (course limit m p).goal = p.indexAt m.level := by
  have hnil : p.segments = [] := List.isEmpty_iff.1 hp
  unfold course Draft.course
  rw [hnil]
  exact ⟨rfl, rfl, rfl⟩

theorem passes_of_mem_courses (hpaths : ∀ q ∈ paths, q.isVariable = true) :
    ∀ later ∈ courses limit m paths, later.passes = [] := by
  induction paths generalizing m with
  | nil => exact fun _ h => nomatch h
  | cons q paths ih =>
    obtain ⟨hq, hpaths⟩ := List.forall_mem_cons.1 hpaths
    exact List.forall_mem_cons.2 ⟨(course_variable hq limit m).2.1, ih hpaths⟩

/-- Variables spare each other, whatever their aliases are. -/
theorem outlasts_variable (hp : p.isVariable = true) (hpaths : ∀ q ∈ paths, q.isVariable = true)
    (limit : Option Nat) (m n : Memory) :
    (course limit m p).Outlasts (courses limit n paths) := by
  obtain ⟨hholders, hpasses, hgoal⟩ := course_variable hp limit m
  have hroot {v : Index} (hv : v.Contains (course limit m p).goal) :
      v = (course limit m p).goal := by
    rw [hgoal] at hv ⊢
    exact Index.contains_root_iff.1 hv
  have hway (later : Course) (hlater : later.passes = []) :
      later.SparesWay (course limit m p) := by
    constructor
    · rw [hlater]
      exact fun _ hx => nomatch hx
    · rw [hholders]
      exact fun _ _ _ hi => nomatch hi
  refine ⟨hway _ hpasses, fun _ _ => hroot, none, nofun, fun later hmem => ?_⟩
  have hlater := passes_of_mem_courses hpaths later hmem
  refine ⟨hway later hlater, ?_, nofun, fun _ _ hv => .inl (hroot hv)⟩
  rw [hlater]
  exact fun _ hx => nomatch hx

end Memory
end ScriptMemory
