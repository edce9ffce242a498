import Mathlib.Data.List.Induction
import ScriptMemory.Proofs.Memory.Courses
import ScriptMemory.Proofs.Memory.History
import ScriptMemory.Proofs.Memory.Placement
import ScriptMemory.Proofs.Memory.ValueTree

/-! What a write along a path leaves in place. Where a location is only possibly meant, values are
added to it and none is lost; only a certain location is replaced. Without aliases a path leads to
one certain location up to where it branches, and to possible ones from there on. -/
namespace ScriptMemory
open Std

namespace Memory
variable {m n k : Memory} {i j start : Index} {s : Segment} {v x : Value} {o : ObjectValue}
  {segments : List Segment} {holders : List Index}

/-- Whatever `m` has at the location `n` has there, too: the entry has not changed, or values were
added, to undefinedness if there was none. -/
def Grows (m n : Memory) (i : Index) : Prop :=
  n.entry? i = m.entry? i ∨
    ∃ e, n.entry? i = some e ∧ ∀ v, (m.entryOrUndefined i).Covers v → e.Covers v

theorem Grows.refl (m : Memory) (i : Index) : m.Grows m i :=
  .inl rfl

theorem Grows.covers (h : m.Grows n i) (hv : (m.entryOrUndefined i).Covers v) :
    (n.entryOrUndefined i).Covers v := by
  rcases h with heq | ⟨e, he, hcovers⟩
  · rwa [entryOrUndefined_congr heq]
  · rw [entryOrUndefined_of_some he]
    exact hcovers v hv

theorem Grows.trans (h : m.Grows n i) (h' : n.Grows k i) : m.Grows k i := by
  rcases h' with heq | ⟨e, he, hcovers⟩
  · rcases h with heq' | ⟨e, he, hcovers⟩
    · exact .inl (heq.trans heq')
    · exact .inr ⟨e, heq.trans he, hcovers⟩
  · exact .inr ⟨e, he, fun v hv => hcovers v (h.covers hv)⟩

theorem Grows.entryBelow (h : m.Grows n i) : m.EntryBelow n i := by
  intro e he
  rcases h with heq | ⟨f, hf, hcovers⟩
  · exact ⟨e, heq.trans he, fun _ => id⟩
  · rw [entryOrUndefined_of_some he] at hcovers
    exact ⟨f, hf, hcovers⟩

/-- What nothing absorbs is still there as it is. -/
theorem Grows.holds (h : m.Grows n i) (hx : x.IsSolid) (hm : m.Holds i x) : n.Holds i x := by
  obtain ⟨e, he, hmem⟩ := hm
  obtain ⟨f, hf, hcovers⟩ := h.entryBelow e he
  exact ⟨f, hf, (Entry.covers_iff_of_isSolid hx).1 (hcovers x (Entry.covers_of_mem hmem))⟩

theorem Grows.mem_objectsAt (h : m.Grows n i) (ho : o ∈ m.objectsAt i) : o ∈ n.objectsAt i :=
  Memory.mem_objectsAt.2 (h.holds (Value.object_isSolid o) (Memory.mem_objectsAt.1 ho))

theorem Walk.gained (h : m.Walk start segments holders i) (hkept : ∀ j ∈ holders, m.Grows n j) :
    n.Walk start segments holders i :=
  h.retained fun j hj _ hx => (hkept j hj).holds hx.1

theorem Opened.gained (h : m.Opened s i) (hg : m.Grows n i) : n.Opened s i := by
  unfold Opened at h ⊢
  cases hs : s.isField with
  | true =>
    rw [hs, if_pos rfl] at h
    rw [if_pos rfl]
    obtain ⟨o, ho⟩ := List.exists_mem_of_ne_nil _ h
    exact List.ne_nil_of_mem (hg.mem_objectsAt ho)
  | false =>
    rw [hs, if_neg Bool.false_ne_true] at h
    rw [if_neg Bool.false_ne_true]
    exact holdsArray_iff.2 (hg.holds (Value.array_isSolid i) (holdsArray_iff.1 h))

theorem not_opened_of_none (h : m.entry? i = none) : ¬m.Opened s i := by
  unfold Opened objectsAt holdsArray
  rw [h]
  cases s.isField <;> simp

/-- The last segment of a way leads to a member of its own container or of an object. -/
theorem Walk.of_concat (h : m.Walk start (segments ++ [s]) holders j) :
    s.isField = false ∧ (∃ i, m.Walk start segments holders i ∧ j = i.member s) ∨
      s.isField = true ∧ ∃ front i, ∃ o ∈ m.objectsAt i, holders = front ++ [i] ∧
        m.Walk start segments front i ∧ j = o.index.member s := by
  generalize hsegments : segments ++ [s] = all at h
  cases h with
  | nil => exact absurd hsegments (List.append_ne_nil_of_right_ne_nil _ (List.cons_ne_nil s []))
  | key h hs =>
    obtain ⟨rfl, hlast⟩ := List.append_inj' hsegments rfl
    cases hlast
    exact .inl ⟨hs, _, h, rfl⟩
  | field h hs ho =>
    obtain ⟨rfl, hlast⟩ := List.append_inj' hsegments rfl
    cases hlast
    exact .inr ⟨hs, _, _, _, ho, rfl, h, rfl⟩

/-- A way is split where it has come along the first segments. -/
theorem Walk.split {front back : List Segment}
    (h : m.Walk start (front ++ back) holders j) : ∃ holders₁ holders₂ i,
      holders = holders₁ ++ holders₂ ∧ m.Walk start front holders₁ i ∧
        m.Walk i back holders₂ j := by
  induction back using List.reverseRecOn generalizing holders j with
  | nil => exact ⟨holders, [], j, (List.append_nil _).symm, List.append_nil front ▸ h, .nil⟩
  | append_singleton back s ih =>
    rw [← List.append_assoc] at h
    rcases h.of_concat with ⟨hs, k, hinit, rfl⟩ | ⟨hs, _, k, o, ho, rfl, hinit, rfl⟩
    · obtain ⟨holders₁, holders₂, i, heq, hfront, hback⟩ := ih hinit
      exact ⟨holders₁, holders₂, i, heq, hfront, .key hback hs⟩
    · obtain ⟨holders₁, holders₂, i, rfl, hfront, hback⟩ := ih hinit
      exact ⟨holders₁, holders₂ ++ [k], i, List.append_assoc .., hfront, .field hback hs ho⟩

/-- A way that passes no object leads straight down. Otherwise the first location whose object it
passes lies at its start or below. -/
theorem Walk.straight_or (h : m.Walk start segments holders i) :
    holders = [] ∧ i = start.descend segments ∧ (∀ s ∈ segments, s.isField = false) ∨
      ∃ j ∈ holders, start.Contains j := by
  induction h with
  | nil => exact .inl ⟨rfl, rfl, fun _ hs => nomatch hs⟩
  | @key segments _ _ s _ hs ih =>
    refine ih.imp_left ?_
    rintro ⟨hnone, rfl, hkeys⟩
    refine ⟨hnone, (Index.descend_append start segments [s]).symm, fun t ht => ?_⟩
    rcases List.mem_append.1 ht with ht | ht
    · exact hkeys t ht
    · rwa [List.mem_singleton.1 ht]
  | @field segments _ i _ _ _ _ _ ih =>
    rcases ih with ⟨-, rfl, -⟩ | ⟨j, hj, hc⟩
    · exact .inr ⟨_, List.mem_append_right _ List.mem_cons_self, segments, rfl⟩
    · exact .inr ⟨j, List.mem_append_left _ hj, hc⟩

theorem Walk.of_nil (h : m.Walk start [] holders i) : i = start := by
  generalize hnil : [] = segments at h
  cases h with
  | nil => rfl
  | key => exact absurd hnil.symm (List.append_ne_nil_of_right_ne_nil _ (List.cons_ne_nil _ []))
  | field => exact absurd hnil.symm (List.append_ne_nil_of_right_ne_nil _ (List.cons_ne_nil _ []))

/-- A way that goes on to a field passes an object of the location where it starts. -/
theorem Walk.start_mem_holders (h : m.Walk start (s :: segments) holders i)
    (hs : s.isField = true) : start ∈ holders ∧ m.objectsAt start ≠ [] := by
  have hsplit : m.Walk start ([s] ++ segments) holders i := h
  obtain ⟨holders₁, holders₂, j, rfl, hfirst, -⟩ := hsplit.split
  have hconcat : m.Walk start ([] ++ [s]) holders₁ j := hfirst
  rcases hconcat.of_concat with ⟨hkey, -⟩ | ⟨-, _, k, o, ho, rfl, hnil, -⟩
  · exact nomatch hs.symm.trans hkey
  · cases hnil.of_nil
    exact ⟨List.mem_append_left _ (List.mem_append_right _ List.mem_cons_self),
      List.ne_nil_of_mem ho⟩

/-- A way that ends in a member of a container leads to all others of that kind as well. -/
theorem Walk.exists_container {t : Segment} (h : m.Walk start (segments ++ [t]) holders j) :
    ∃ c : Index, j = c.member t ∧ ∀ s : Segment, s.isField = t.isField →
      m.Walk start (segments ++ [s]) holders (c.member s) := by
  rcases h.of_concat with ⟨ht, i, hinit, rfl⟩ | ⟨ht, _, i, o, ho, rfl, hinit, rfl⟩
  · exact ⟨i, rfl, fun s hs => .key hinit (hs.trans ht)⟩
  · exact ⟨o.index, rfl, fun s hs => .field hinit (hs.trans ht) ho⟩

theorem Unaliased.of_keys (h : ∀ i ∈ m.cells.keys, m.aliases i = ∅) : m.Unaliased := by
  intro i
  by_cases hi : m.isDefined i = true
  · exact h i (ExtTreeMap.mem_keys.2 (ExtTreeMap.contains_iff_mem.1 hi))
  · unfold aliases
    rw [cell_of_not_isDefined hi]

/-- No alias comes from changing entries. -/
theorem Unaliased.replay (h : m.Unaliased) (history : List Change) :
    (m.replay history).Unaliased := by
  intro i
  apply AliasSet.ext_strength?
  intro j
  rw [(pruned_replay (F := fun _ => False) m history).strength?_eq i j id id, h i,
    AliasSet.strength?_empty, ite_self]

end Memory

/-- The path up to where it has come along its first segments. -/
def Path.upTo (p : Path) (front : List Segment) : Path :=
  { p with segments := front }

namespace Locations
variable {l : Locations} {i j : Index}

theorem visits_single (i : Index) : (single i).visits = [(true, i)] := by
  have hmust : (single i).must.toList = [i] := toList_insert_empty i
  have hmay : (single i).may.toList = [] := toList_empty
  unfold visits
  rw [hmust, hmay]
  rfl

/-- At most one location is certain, and then it is the only one. -/
def Sole (l : Locations) : Prop :=
  (∃ i, l = single i) ∨ l.must = ∅

theorem Sole.eq_single (h : l.Sole) (hi : i ∈ l.must) : l = single i := by
  rcases h with ⟨j, rfl⟩ | hnone
  · rw [Memory.mem_insert_empty.1 hi]
  · rw [hnone] at hi
    exact absurd hi ExtTreeSet.not_mem_empty

theorem Sole.eq_of_mem (h : l.Sole) (hi : i ∈ l.must) (hj : j ∈ l.toList) : j = i := by
  rw [h.eq_single hi, toList_single] at hj
  exact List.mem_singleton.1 hj

theorem Sole.separate (h : l.Sole) : l.Separate := by
  intro i hi
  rw [h.eq_single hi]
  exact ExtTreeSet.not_mem_empty

/-- From a branch on, no location is certain. -/
theorem must_step_of_none (h : l.must = ∅) (m : Memory) (s : Segment) : (m.step l s).must = ∅ := by
  unfold Memory.step split
  rw [h]
  rfl

theorem Sole.step (h : l.Sole) (m : Memory) (s : Segment) : (m.step l s).Sole := by
  rcases h with ⟨i, rfl⟩ | hnone
  · have hmust : (m.step (single i) s).must =
        .ofList ([i].filterMap fun i => m.memberNamed? i s) := by
      rw [← toList_insert_empty i]
      rfl
    cases hnamed : m.memberNamed? i s with
    | none =>
      rw [List.filterMap_cons, hnamed] at hmust
      exact .inr hmust
    | some j =>
      unfold Memory.memberNamed? at hnamed
      split at hnamed
      · next c hc =>
        obtain ⟨hs, -⟩ := Option.ite_none_left_eq_some.1 hnamed
        exact .inl ⟨_, Memory.step_single_of hc (Bool.eq_false_iff.2 hs)⟩
      · cases hnamed
  · exact .inr (must_step_of_none hnone m s)

end Locations

namespace Draft
open Memory
variable {d : Draft} {l : Locations} {i j : Index} {s : Segment} {e : Entry} {certain strong : Bool}

theorem Free.declareObject (h : d.Free) (o : ObjectValue) :
    (d.update (·.declareObject o)).Free :=
  ⟨h.limit_eq, consistent_declareObject h.consistent o⟩

theorem Free.prepare (h : d.Free) (s : Segment) (certain : Bool) (i : Index) :
    (d.prepare s certain i).Free :=
  ⟨(limit_prepare d s certain i).trans h.limit_eq, consistent_prepare h.consistent s (certain, i)⟩

theorem Free.entry?_write (h : d.Free)
    (hmore : ∀ v, (d.memory.entryOrUndefined i).Covers v → e.Covers v) (j : Index) :
    (d.write i e).memory.entry? j = if j = i then some e else d.memory.entry? j := by
  have hown (hi : d.memory.holdsArray i = true) : .array i ∈ e := by
    have hmem := Holds.mem_entryOrUndefined (holdsArray_iff.1 hi)
    exact (Entry.covers_iff_of_isSolid (Value.array_isSolid i)).1
      (hmore _ (Entry.covers_of_mem hmem))
  rw [write_memory, fit_of_limit h.limit_eq, h.consistent.write_eq hown, entry?_put_register]

theorem Free.entry?_add (h : d.Free) (i : Index) (v : Value) (j : Index) :
    (d.add i v false).memory.entry? j =
      if j = i then some ((d.memory.entryOrUndefined i).insert v) else d.memory.entry? j :=
  h.entry?_write (fun _ hw => Entry.covers_insert.2 (.inr hw)) j

/-- A container that may be made is added to what is there. -/
theorem Free.prepare_possible (h : d.Free) (s : Segment) (i : Index) :
    d.prepare s false i = d ∨ ∃ x : Value,
      (∀ o, x = .object o → s.isField = true ∧ d.memory.objectsAt i = [] ∧ o = .madeAt i) ∧
        ∀ j, (d.prepare s false i).memory.entry? j =
          if j = i then some ((d.memory.entryOrUndefined i).insert x) else d.memory.entry? j := by
  rcases d.prepare_cases s false i with ⟨-, heq⟩ | ⟨hs, hnone, heq⟩ | ⟨-, -, heq⟩
  · exact .inl heq
  · refine .inr ⟨.object (.madeAt i), fun o ho => ⟨hs, hnone, (Value.object.inj ho).symm⟩, ?_⟩
    intro j
    have hadded := (h.declareObject (.madeAt i)).entry?_add i (.object (.madeAt i)) j
    rw [heq, hadded]
    change (if j = i then some (((d.memory.declareObject (.madeAt i)).entryOrUndefined i).insert _)
      else Memory.entry? (d.memory.declareObject (.madeAt i)) j) = _
    rw [entryOrUndefined_congr (entry?_declareObject ..), entry?_declareObject]
  · refine .inr ⟨.array i, fun o ho => (nomatch ho), fun j => ?_⟩
    rw [heq]
    exact h.entry?_add i (.array i) j

/-- A container that may be made loses nothing, and one that has to be made only what it wipes
out. -/
theorem Free.grows_prepare (h : d.Free)
    (hout : certain = true → ¬d.memory.Opened s i → ¬s.Wipes i j) :
    d.memory.Grows (d.prepare s certain i).memory j := by
  cases certain with
  | true =>
    by_cases hopened : d.memory.Opened s i
    · rw [prepare_of_opened hopened]
      exact .refl _ j
    · exact .inl (entry?_prepare h.consistent (fun _ => hout rfl hopened) nofun)
  | false =>
    rcases h.prepare_possible s i with heq | ⟨x, -, hentry⟩
    · rw [heq]
      exact .refl _ j
    · by_cases hj : j = i
      · subst hj
        exact .inr ⟨_, (hentry j).trans (if_pos rfl), fun v hv => Entry.covers_insert.2 (.inr hv)⟩
      · exact .inl ((hentry j).trans (if_neg hj))

theorem Free.grows_place (h : d.Free) (hout : strong = true → ¬i.Contains j) (e : Entry)
    (hasArray : Bool) : d.memory.Grows (d.place i e hasArray strong).memory j := by
  by_cases hj : j = i
  · subst hj
    cases strong with
    | true => exact absurd (Index.contains_refl j) (hout rfl)
    | false =>
      have hentry : Memory.entry? (d.place j e hasArray false).memory j =
          some ((d.memory.entryOrUndefined j).join (incoming j e hasArray)) := by
        rw [h.place_weak, entry?_put_register, if_pos rfl]
      exact .inr ⟨_, hentry, fun v hv => Entry.covers_join.2 (.inl hv)⟩
  · exact .inl (entry?_place_of_ne h.consistent hj hout e hasArray)

theorem prepareAll_single (d : Draft) (s : Segment) (i : Index) :
    d.prepareAll s (.single i) = d.prepare s true i := by
  unfold prepareAll
  rw [Locations.visits_single]
  rfl

/-- Where no location is certain, containers are made beside what is there. -/
theorem prepareAll_of_none {I : Draft → Prop} (hl : l.must = ∅) (h : I d)
    (hstep : ∀ d i, I d → i ∈ l.toList → I (d.prepare s false i)) : I (d.prepareAll s l) := by
  refine prepareAll_keeps h fun d v hd hv => ?_
  rcases Locations.mem_visits.1 hv with ⟨-, hmust⟩ | ⟨hpossible, hmay⟩
  · rw [hl] at hmust
    exact absurd hmust ExtTreeSet.not_mem_empty
  · rw [hpossible]
    exact hstep d v.2 hd (Locations.mem_toList.2 (.inr hmay))

theorem Free.grows_prepareAll (h : d.Free) (hl : l.Sole)
    (hout : ∀ i ∈ l.must, ¬d.memory.Opened s i → ¬s.Wipes i j) :
    d.memory.Grows (d.prepareAll s l).memory j := by
  rcases hl with ⟨i, rfl⟩ | hnone
  · rw [prepareAll_single]
    exact h.grows_prepare fun _ => hout i (mem_insert_empty.2 rfl)
  · have hall := prepareAll_of_none (s := s)
      (I := fun d' => d'.Free ∧ d.memory.Grows d'.memory j) hnone ⟨h, .refl _ j⟩
      fun d' i hd' _ => ⟨hd'.1.prepare s false i, hd'.2.trans (hd'.1.grows_prepare nofun)⟩
    exact hall.2

/-- Containers change no entry but those that they wipe out and those beside which they are made. -/
theorem Free.entry?_prepareAll (h : d.Free) (hl : l.Sole)
    (hne : l.must = ∅ → ∀ i ∈ l.toList, i ≠ j)
    (hout : ∀ i ∈ l.must, ¬d.memory.Opened s i → ¬s.Wipes i j) :
    (d.prepareAll s l).memory.entry? j = d.memory.entry? j := by
  rcases hl with ⟨i, rfl⟩ | hmust
  · rw [prepareAll_single]
    by_cases hopened : d.memory.Opened s i
    · rw [prepare_of_opened hopened]
    · have hwipes := hout i (mem_insert_empty.2 rfl) hopened
      exact entry?_prepare h.consistent (fun _ => hwipes) nofun
  · refine (prepareAll_of_none
      (I := fun d' => d'.memory.Consistent ∧ d'.memory.entry? j = d.memory.entry? j)
      hmust ⟨h.consistent, rfl⟩ ?_).2
    intro d' i ⟨hd', hsame⟩ hi
    refine ⟨consistent_prepare hd' s (false, i), Eq.trans ?_ hsame⟩
    exact entry?_prepare hd' nofun fun _ => hne hmust i hi

theorem Free.prepareAll (h : d.Free) (s : Segment) (l : Locations) : (d.prepareAll s l).Free :=
  prepareAll_keeps (I := Free) h fun _ v hd _ => hd.prepare s v.1 v.2

/-- Storing an entry to some locations is one placing after the other. -/
theorem storeAll_keeps {I : Draft → Prop} (h : I d)
    (hstep : ∀ d i strong, I d → i ∈ l.toList → (strong = true → i ∈ l.must) →
      I (d.place i e false strong)) (force : Bool) : I (d.storeAll l e [] force) := by
  rw [storeAll_eq]
  simp only [store_nil]
  refine List.foldlRecOn (motive := I) l.visits _ h fun d hd v hv => hstep d v.2 _ hd ?_ ?_
  · exact Locations.mem_toList.2 ((Locations.mem_visits.1 hv).imp And.right And.right)
  · intro hstrong
    have hcertain := (Bool.and_eq_true_iff.1 hstrong).1
    exact ExtTreeSet.mem_toList.1 (Locations.mem_must_of_mem_visits hv hcertain)

theorem Free.grows_storeAll (h : d.Free) (he : e.IsData)
    (hout : ∀ i ∈ l.must, ¬i.Contains j) (force : Bool) :
    d.memory.Grows (d.storeAll l e [] force).memory j := by
  refine (storeAll_keeps (I := fun d' => d'.Free ∧ d.memory.Grows d'.memory j) ⟨h, .refl _ j⟩ ?_
    force).2
  rintro d' i strong ⟨hd', hgrows⟩ - hmust
  exact ⟨hd'.place he i false strong,
    hgrows.trans (hd'.grows_place (fun hstrong => hout i (hmust hstrong)) e false)⟩

theorem Free.entry?_storeAll (h : d.Free) (he : e.IsData) (hne : ∀ i ∈ l.toList, i ≠ j)
    (hout : ∀ i ∈ l.must, ¬i.Contains j) (force : Bool) :
    (d.storeAll l e [] force).memory.entry? j = d.memory.entry? j := by
  refine (storeAll_keeps (I := fun d' => d'.Free ∧ d'.memory.entry? j = d.memory.entry? j)
    ⟨h, rfl⟩ ?_ force).2
  intro d' i strong ⟨hd', hsame⟩ hi hmust
  refine ⟨hd'.place he i false strong, Eq.trans ?_ hsame⟩
  exact entry?_place_of_ne hd'.consistent (hne i hi).symm (fun hstrong => hout i (hmust hstrong)) ..

/-- A free draft whose memory has no aliases. -/
structure Unlinked (d : Draft) : Prop extends Free d where
  unaliased : d.memory.Unaliased

theorem Unlinked.prepareAll (h : d.Unlinked) (s : Segment) (l : Locations) :
    (d.prepareAll s l).Unlinked where
  toFree := h.toFree.prepareAll s l
  unaliased := prepareAll_keeps (I := fun d => d.memory.Unaliased) h.unaliased fun d v hd _ =>
    replay_preparing d s v.1 v.2 ▸ hd.replay _

theorem Unlinked.advance_eq (h : d.Unlinked) (hl : l.Sole) (s : Segment) :
    advance s (d, l) = (d.prepareAll s l, (d.prepareAll s l).memory.step l s) := by
  rw [Draft.advance_eq]
  dsimp only
  rw [expand_eq_self h.unaliased hl.separate]

theorem Unlinked.follow (h : d.Unlinked) (p : Path) (level : Nat) :
    (d.follow p level).1.Unlinked ∧ (d.follow p level).2.Sole := by
  have hfold (segments : List Segment) (d : Draft) (l : Locations) (h : d.Unlinked) (hl : l.Sole) :
      (segments.foldl (fun dl s => advance s dl) (d, l)).1.Unlinked ∧
        (segments.foldl (fun dl s => advance s dl) (d, l)).2.Sole := by
    induction segments generalizing d l with
    | nil => exact ⟨h, hl⟩
    | cons s segments ih =>
      rw [List.foldl_cons, h.advance_eq hl]
      exact ih _ _ (h.prepareAll s l) (hl.step _ s)
  exact hfold p.segments d _ h (.inl ⟨_, ofVariable_eq p level⟩)

theorem Unlinked.resolve_eq_follow (h : d.Unlinked) (p : Path) (level : Nat) :
    d.resolve p level = d.follow p level := by
  obtain ⟨hfollow, hsole⟩ := h.follow p level
  exact Prod.ext rfl (expand_eq_self hfollow.unaliased hsole.separate .all)

theorem Unlinked.resolve (h : d.Unlinked) (p : Path) (level : Nat) :
    (d.resolve p level).1.Unlinked ∧ (d.resolve p level).2.Sole := by
  rw [h.resolve_eq_follow]
  exact h.follow p level

/-- One segment further, its containers are made first. -/
theorem Unlinked.resolve_member (h : d.Unlinked) (p : Path) (level : Nat) (s : Segment) :
    d.resolve (p.member s) level =
      ((d.resolve p level).1.prepareAll s (d.resolve p level).2,
        ((d.resolve p level).1.prepareAll s (d.resolve p level).2).memory.step
          (d.resolve p level).2 s) := by
  have hconcat : d.follow (p.member s) level = advance s (d.follow p level) := List.foldl_concat ..
  obtain ⟨hfollow, hsole⟩ := h.follow p level
  rw [h.resolve_eq_follow, h.resolve_eq_follow, hconcat]
  exact hfollow.advance_eq hsole s

/-- Where the path is followed for writing, it comes to a location at which a container for the
segment has to be made, and which is certain or not. The draft is `d'` by then. -/
def Makes (d : Draft) (p : Path) (level : Nat) (d' : Draft) (s : Segment) (certain : Bool)
    (i : Index) : Prop :=
  ∃ front back l, p.segments = front ++ s :: back ∧ d.resolve (p.upTo front) level = (d', l) ∧
    (certain, i) ∈ l.visits ∧ ¬d'.memory.Opened s i

/-- A write to the path replaces what the location holds: by a container on the way, or at its
end. -/
def Overwrites (d : Draft) (p : Path) (level : Nat) (i : Index) : Prop :=
  (∃ d' s, d.Makes p level d' s true i) ∨ i ∈ (d.resolve p level).2.must

/-- None of the locations that a write to the path replaces is one of the holders or lies above
one. -/
def Bypasses (d : Draft) (p : Path) (level : Nat) (holders : List Index) : Prop :=
  ∀ i, d.Overwrites p level i → ∀ k ∈ holders, ¬i.Contains k

/-- Every object that is made on the way gets an identity under which nothing is stored. -/
def MakesNew (d : Draft) (p : Path) (level : Nat) : Prop :=
  ∀ d' s certain i, d.Makes p level d' s certain i → s.isField = true →
    ∀ j : Index, j.base = .object i.text → d'.memory.entry? j = none

section
variable {p : Path} {level : Nat} {front : List Segment} {holders : List Index}

theorem Bypasses.not_wipes (h : d.Bypasses p level holders) :
    ∀ k ∈ holders, ∀ d' s i, d.Makes p level d' s true i → ¬s.Wipes i k := by
  intro k hk d' s i hmakes hwipes
  exact h i (.inl ⟨d', s, hmakes⟩) k hk hwipes.contains

theorem resolve_upTo_nil (h : d.Unlinked) (p : Path) (level : Nat) :
    d.resolve (p.upTo []) level = (d, .single (p.indexAt level)) := by
  rw [h.resolve_eq_follow]
  exact Prod.ext rfl (ofVariable_eq p level)

theorem makes_of_mem (hfront : front ++ [s] <+: p.segments)
    (hi : i ∈ (d.resolve (p.upTo front) level).2.toList)
    (hnone : ¬(d.resolve (p.upTo front) level).1.memory.Opened s i) :
    ∃ certain, d.Makes p level (d.resolve (p.upTo front) level).1 s certain i := by
  obtain ⟨back, hback⟩ := hfront
  obtain ⟨certain, hv⟩ := Locations.exists_mem_visits hi
  exact ⟨certain, front, back, _, by rw [← hback, List.append_assoc]; rfl, rfl, hv, hnone⟩

theorem makes_of_mem_must (hfront : front ++ [s] <+: p.segments)
    (hi : i ∈ (d.resolve (p.upTo front) level).2.must)
    (hnone : ¬(d.resolve (p.upTo front) level).1.memory.Opened s i) :
    d.Makes p level (d.resolve (p.upTo front) level).1 s true i := by
  obtain ⟨back, hback⟩ := hfront
  exact ⟨front, back, _, by rw [← hback, List.append_assoc]; rfl, rfl,
    Locations.mem_visits.2 (.inl ⟨rfl, hi⟩), hnone⟩

/-- By induction on the way that the path has come: what no container wipes out gains values. -/
theorem Unlinked.grows_resolve (h : d.Unlinked)
    (hout : ∀ d' s i, d.Makes p level d' s true i → ¬s.Wipes i j) (hfront : front <+: p.segments) :
    d.memory.Grows (d.resolve (p.upTo front) level).1.memory j := by
  induction front using List.reverseRecOn with
  | nil =>
    rw [resolve_upTo_nil h]
    exact .refl _ j
  | append_singleton front s ih =>
    refine (ih ((List.prefix_append front [s]).trans hfront)).trans ?_
    change Memory.Grows _ (d.resolve ((p.upTo front).member s) level).1.memory j
    rw [h.resolve_member]
    obtain ⟨hresolve, hsole⟩ := h.resolve (p.upTo front) level
    exact hresolve.toFree.grows_prepareAll hsole fun i hi hnone =>
      hout _ s i (makes_of_mem_must hfront hi hnone)

/-- The path leads for writing wherever a way along it leads whose objects stay where they are. -/
theorem Unlinked.mem_resolve (h : d.Unlinked)
    (hout : ∀ j ∈ holders, ∀ d' s i, d.Makes p level d' s true i → ¬s.Wipes i j)
    (hfront : front <+: p.segments) (hwalk : d.memory.Walk (p.indexAt level) front holders i) :
    i ∈ (d.resolve (p.upTo front) level).2.toList := by
  induction hwalk with
  | nil =>
    rw [resolve_upTo_nil h, Locations.toList_single]
    exact List.mem_singleton.2 rfl
  | @key front holders i s _ hs ih =>
    have hi := ih hout ((List.prefix_append front [s]).trans hfront)
    change _ ∈ (d.resolve ((p.upTo front).member s) level).2.toList
    rw [h.resolve_member]
    exact member_mem_step_key hi hs
  | @field front holders i s o _ hs ho ih =>
    have hi := ih (fun j hj => hout j (List.mem_append_left _ hj))
      ((List.prefix_append front [s]).trans hfront)
    have hgrows := h.grows_resolve (hout i (List.mem_append_right _ List.mem_cons_self)) hfront
    change Memory.Grows _ (d.resolve ((p.upTo front).member s) level).1.memory i at hgrows
    change _ ∈ (d.resolve ((p.upTo front).member s) level).2.toList
    rw [h.resolve_member] at hgrows ⊢
    exact member_mem_step_field hi hs (hgrows.mem_objectsAt ho)

/-- The entry of a location stays as it is while the path comes to other locations, or does not
branch, and no container wipes it out. -/
theorem Unlinked.entry?_resolve (h : d.Unlinked)
    (hne : ∀ front s, front ++ [s] <+: p.segments →
      (d.resolve (p.upTo front) level).2.must = ∅ →
      ∀ i ∈ (d.resolve (p.upTo front) level).2.toList, i ≠ j)
    (hout : ∀ d' s i, d.Makes p level d' s true i → ¬s.Wipes i j) (hfront : front <+: p.segments) :
    (d.resolve (p.upTo front) level).1.memory.entry? j = d.memory.entry? j := by
  induction front using List.reverseRecOn with
  | nil => rw [resolve_upTo_nil h]
  | append_singleton front s ih =>
    refine Eq.trans ?_ (ih ((List.prefix_append front [s]).trans hfront))
    change (d.resolve ((p.upTo front).member s) level).1.memory.entry? j = _
    rw [h.resolve_member]
    obtain ⟨hresolve, hsole⟩ := h.resolve (p.upTo front) level
    exact hresolve.toFree.entry?_prepareAll hsole (hne front s hfront) fun i hi hopened =>
      hout _ s i (makes_of_mem_must hfront hi hopened)

/-- What is not there stays so unless a container is made there. -/
theorem Unlinked.absent_resolve (h : d.Unlinked) (hnone : d.memory.entry? j = none)
    (hmade : ∀ d' s certain, ¬d.Makes p level d' s certain j)
    (hout : ∀ d' s i, d.Makes p level d' s true i → ¬s.Wipes i j) (hfront : front <+: p.segments) :
    (d.resolve (p.upTo front) level).1.memory.entry? j = none := by
  induction front using List.reverseRecOn with
  | nil =>
    rw [resolve_upTo_nil h]
    exact hnone
  | append_singleton front s ih =>
    have hnone' := ih ((List.prefix_append front [s]).trans hfront)
    change (d.resolve ((p.upTo front).member s) level).1.memory.entry? j = none
    rw [h.resolve_member]
    obtain ⟨hresolve, hsole⟩ := h.resolve (p.upTo front) level
    have hne : ∀ i ∈ (d.resolve (p.upTo front) level).2.toList, i ≠ j := by
      rintro i hi rfl
      obtain ⟨certain, hmakes⟩ := makes_of_mem hfront hi (not_opened_of_none hnone')
      exact hmade _ s certain hmakes
    have hsame := hresolve.toFree.entry?_prepareAll (s := s) hsole (fun _ => hne)
      fun i hi hopened => hout _ s i (makes_of_mem_must hfront hi hopened)
    exact hsame.trans hnone'

end

theorem assign_flat (d : Draft) (p : Path) (level : Nat) (he : e.IsFlat) (force : Bool) :
    d.assign p level e force =
      (d.resolve p level).1.storeAll (d.resolve p level).2 e [] force := by
  rw [← ofEntry_flat (d.resolve p level).1.memory he]
  rfl

end Draft

end ScriptMemory
