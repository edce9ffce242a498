import ScriptMemory.Proofs.Memory.Beside

/-! Writing to a member of what is no container yet. The container is made first; where the location
is certain it replaces what was there, and all that the other members read as is what was stored for
them. That the location could have been anything is forgotten. -/
namespace ScriptMemory
open Std

namespace Draft
open Memory
variable {d : Draft} {p : Path} {level : Nat} {t t' s : Segment} {e : Entry}
  {holders : List Index} {i j c : Index}

/-- A way leads to the certain location at which the write to the member `t` has to make a
container, and nothing that the write replaces is on this way or above. -/
structure Vivifies (d : Draft) (p : Path) (level : Nat) (t : Segment) (holders : List Index)
    (c : Index) : Prop where
  way : d.memory.Walk (p.indexAt level) p.segments holders c
  certain : c ∈ (d.resolve p level).2.must
  missing : ¬(d.resolve p level).1.memory.Opened t c
  bypassed : d.Bypasses (p.member t) level holders

/-- Where members are looked up once the container for a segment has been made at a location. -/
def containerMade (c : Index) (t : Segment) : Index :=
  if t.isField then (ObjectValue.madeAt c).index else c

/-- A path that leads to a certain location leads to a single one all the way. -/
theorem Unlinked.exists_single {front back : List Segment} (h : d.Unlinked)
    (hi : i ∈ (d.resolve (p.upTo (front ++ back)) level).2.must) :
    ∃ x, (d.resolve (p.upTo front) level).2 = .single x := by
  induction back using List.reverseRecOn generalizing i with
  | nil =>
    rw [List.append_nil] at hi
    exact ⟨i, (h.resolve (p.upTo front) level).2.eq_single hi⟩
  | append_singleton back s ih =>
    rw [← List.append_assoc] at hi
    change i ∈ (d.resolve ((p.upTo (front ++ back)).member s) level).2.must at hi
    rw [h.resolve_member] at hi
    rcases (h.resolve (p.upTo (front ++ back)) level).2 with ⟨x, hx⟩ | hnone
    · exact ih (i := x) (by rw [hx]; exact mem_insert_empty.2 rfl)
    · rw [Locations.must_step_of_none hnone] at hi
      exact absurd hi ExtTreeSet.not_mem_empty

/-- A certain member is one of a single container. -/
theorem exists_container_of_mem_must {m : Memory} (hj : j ∈ (m.step (.single i) s).must) :
    ∃ c, m.containersOf i s = [c] := by
  have hmust : (m.step (.single i) s).must =
      .ofList ([i].filterMap fun i => m.memberNamed? i s) := by
    rw [← Locations.toList_insert_empty i]
    rfl
  rw [hmust, OrdSet.mem_ofList, List.mem_filterMap] at hj
  obtain ⟨x, hx, hnamed⟩ := hj
  rw [List.mem_singleton.1 hx] at hnamed
  unfold memberNamed? at hnamed
  split at hnamed
  · next c hc => exact ⟨c, hc⟩
  · cases hnamed

theorem Unlinked.unaliased_assign (h : d.Unlinked) (he : e.IsFlat) (force : Bool) :
    (d.assign p level e force).memory.Unaliased := by
  rw [assign_flat d p level he, ← replay_storingAll]
  exact (h.resolve p level).1.unaliased.replay _

/-- The container that is certainly made at a location is all that it holds then. -/
theorem Free.entry?_prepare_made (h : d.Free) (hnone : ¬d.memory.Opened t c) :
    (d.prepare t true c).memory.entry? c =
      some (.ofValue (if t.isField then .object (.madeAt c) else .array c)) := by
  rcases d.prepare_cases t true c with ⟨hopened, -⟩ | ⟨ht, -, heq⟩ | ⟨ht, -, heq⟩
  · exact absurd hopened hnone
  · rw [heq, add, entry?_write_self, fit_of_limit (h.declareObject _).limit_eq, ht]
    rfl
  · rw [heq, add, entry?_write_self, fit_of_limit h.limit_eq, ht]
    rfl

/-- Where nothing but a new container is held, members are looked up there. -/
theorem containersOf_made {m : Memory} (hs : s.isField = t.isField)
    (hentry : m.entry? c = some (.ofValue (if t.isField then .object (.madeAt c) else .array c))) :
    m.containersOf c s = [containerMade c t] := by
  unfold containerMade
  cases ht : t.isField with
  | false =>
    rw [ht] at hs
    rw [containersOf_key hs, if_neg Bool.false_ne_true]
  | true =>
    rw [ht, if_pos rfl] at hentry
    have hobjects : m.objectsAt c = [.madeAt c] := objectsAt_of_entry hentry
    rw [containersOf_field (hs.trans ht) (by rw [hobjects]; exact List.cons_ne_nil _ _), hobjects,
      if_pos rfl]
    rfl

theorem Vivifies.makes (hv : d.Vivifies p level t holders c) :
    d.Makes (p.member t) level (d.resolve p level).1 t true c :=
  makes_of_mem_must (List.prefix_refl _) hv.certain hv.missing

section
variable (h : d.Unlinked) (he : e.IsFlat) (ht : t.isUnknown = false)
  (hv : d.Vivifies p level t holders c)
include h hv

theorem Vivifies.resolve_eq : (d.resolve p level).2 = .single c :=
  (h.resolve p level).2.eq_single hv.certain

include ht

/-- The target of the write is the member of the new container. -/
theorem Vivifies.target_eq : d.resolve (p.member t) level =
    ((d.resolve p level).1.prepare t true c, .single ((containerMade c t).member t)) := by
  have hentry := (h.resolve p level).1.toFree.entry?_prepare_made hv.missing
  rw [h.resolve_member, hv.resolve_eq h, prepareAll_single,
    step_single_of (containersOf_made rfl hentry) ht]

/-- While the path is followed, only what is wiped out changes: it leads to single locations, so
nothing is added anywhere. -/
theorem Vivifies.entry?_resolve {j : Index} {front : List Segment}
    (hout : ∀ d' s i, d.Makes (p.member t) level d' s true i → ¬s.Wipes i j)
    (hfront : front <+: (p.member t).segments) :
    (d.resolve (p.upTo front) level).1.memory.entry? j = d.memory.entry? j := by
  refine h.entry?_resolve (p := p.member t) (fun front s hstep hnone => ?_) hout hfront
  obtain ⟨back, hback⟩ := (List.prefix_append front [s]).trans hstep
  have hmust : (containerMade c t).member t ∈
      (d.resolve ((p.member t).upTo (front ++ back)) level).2.must := by
    rw [hback]
    change _ ∈ (d.resolve (p.member t) level).2.must
    rw [hv.target_eq h ht]
    exact mem_insert_empty.2 rfl
  obtain ⟨x, hx⟩ := h.exists_single hmust
  have hx' : x ∈ (d.resolve ((p.member t).upTo front) level).2.must := by
    rw [hx]
    exact mem_insert_empty.2 rfl
  rw [hnone] at hx'
  exact absurd hx' ExtTreeSet.not_mem_empty

include he

/-- Storing the entry changes nothing but its target and what lies below. -/
theorem Vivifies.entry?_stored {j : Index} (htarget : ¬((containerMade c t).member t).Contains j)
    (force : Bool) : (d.assign (p.member t) level e force).memory.entry? j =
      ((d.resolve p level).1.prepare t true c).memory.entry? j := by
  have hresolve := (h.resolve (p.member t) level).1
  rw [hv.target_eq h ht] at hresolve
  rw [assign_flat d _ level he, hv.target_eq h ht]
  refine hresolve.toFree.entry?_storeAll he.isData ?_ ?_ force
  · intro i hi heq
    rw [Locations.toList_single, List.mem_singleton] at hi
    exact htarget (hi ▸ heq ▸ Index.contains_refl _)
  · intro i hi
    rwa [mem_insert_empty.1 hi]

/-- What is neither wiped out nor at the target or below stays as it is. -/
theorem Vivifies.entry?_eq {j : Index}
    (hout : ∀ d' s i, d.Makes (p.member t) level d' s true i → ¬s.Wipes i j)
    (htarget : ¬((containerMade c t).member t).Contains j) (force : Bool) :
    (d.assign (p.member t) level e force).memory.entry? j = d.memory.entry? j := by
  have hresolved := hv.entry?_resolve h ht hout (List.prefix_refl _)
  change (d.resolve (p.member t) level).1.memory.entry? j = _ at hresolved
  rw [hv.target_eq h ht] at hresolved
  rw [hv.entry?_stored h he ht htarget force, hresolved]

theorem Vivifies.entry?_container (force : Bool) :
    (d.assign (p.member t) level e force).memory.entry? c =
      some (.ofValue (if t.isField then .object (.madeAt c) else .array c)) := by
  rw [hv.entry?_stored h he ht ?_ force]
  · exact (h.resolve p level).1.toFree.entry?_prepare_made hv.missing
  · intro hc
    unfold containerMade at hc
    split at hc
    · exact c.base_ne_object_text hc.base_eq
    · exact Index.not_member_contains c t hc

/-- What is passed on the way is the same before and after the write. -/
theorem Vivifies.entry?_passed (hi : i ∈ holders) (force : Bool) :
    (d.assign (p.member t) level e force).memory.entry? i = d.memory.entry? i := by
  refine hv.entry?_eq h he ht (hv.bypassed.not_wipes i hi) (hv.bypassed _ (.inr ?_) i hi) force
  rw [hv.target_eq h ht]
  exact mem_insert_empty.2 rfl

omit he ht

/-- The path is followed along the single locations of the way. -/
theorem Vivifies.resolve_passed {front : List Segment} {passed : List Index}
    (hway : d.memory.Walk (p.indexAt level) front passed i) (hpassed : ∀ k ∈ passed, k ∈ holders)
    (hfront : front <+: p.segments) : (d.resolve (p.upTo front) level).2 = .single i := by
  have hwhole : p.segments <+: (p.member t).segments := List.prefix_append _ _
  have hmem := h.mem_resolve (p := p.member t)
    (fun k hk => hv.bypassed.not_wipes k (hpassed k hk)) (hfront.trans hwhole) hway
  change i ∈ (d.resolve (p.upTo front) level).2.toList at hmem
  obtain ⟨back, hback⟩ := hfront
  have hc := hv.certain
  change c ∈ (d.resolve (p.upTo p.segments) level).2.must at hc
  rw [← hback] at hc
  obtain ⟨x, hx⟩ := h.exists_single hc
  rw [hx, Locations.toList_single] at hmem
  rw [hx, List.mem_singleton.1 hmem]

include ht

/-- A location where a field is looked up on the way holds one object only: else the path would not
lead to a certain location. -/
theorem Vivifies.objectsAt_passed {front : List Segment} {passed : List Index} {o : ObjectValue}
    (hway : d.memory.Walk (p.indexAt level) front passed i)
    (hpassed : ∀ k ∈ passed ++ [i], k ∈ holders) (hs : s.isField = true)
    (ho : o ∈ d.memory.objectsAt i) (hfront : front ++ [s] <+: p.segments) :
    d.memory.objectsAt i = [o] := by
  have hbefore : front <+: p.segments := (List.prefix_append front [s]).trans hfront
  have hi : i ∈ holders := hpassed i (List.mem_append_right _ List.mem_cons_self)
  have hpassed' : ∀ k ∈ passed, k ∈ holders := fun k hk => hpassed k (List.mem_append_left _ hk)
  have hobjects : (d.resolve (p.upTo front) level).1.memory.objectsAt i = d.memory.objectsAt i :=
    objectsAt_congr <| hv.entry?_resolve h ht (hv.bypassed.not_wipes i hi)
      (hbefore.trans (List.prefix_append _ _))
  have hsome : (d.resolve (p.upTo front) level).1.memory.objectsAt i ≠ [] := by
    rw [hobjects]
    exact List.ne_nil_of_mem ho
  have hopened := (opened_iff_of_field hs).2 hsome
  obtain ⟨back, hback⟩ := hfront
  have hc := hv.certain
  change c ∈ (d.resolve (p.upTo p.segments) level).2.must at hc
  rw [← hback] at hc
  obtain ⟨x, hx⟩ := h.exists_single hc
  change (d.resolve ((p.upTo front).member s) level).2 = _ at hx
  rw [h.resolve_member, hv.resolve_passed h hway hpassed' hbefore, prepareAll_single,
    prepare_of_opened hopened] at hx
  change (d.resolve (p.upTo front) level).1.memory.step (.single i) s = .single x at hx
  have hmust : x ∈ ((d.resolve (p.upTo front) level).1.memory.step (.single i) s).must := by
    rw [hx]
    exact mem_insert_empty.2 rfl
  obtain ⟨c', hc'⟩ := exists_container_of_mem_must hmust
  rw [containersOf_field hs hsome, hobjects] at hc'
  obtain ⟨o', ho', -⟩ := List.map_eq_singleton_iff.1 hc'
  rw [ho', List.mem_singleton] at ho
  rw [ho', ho]

include he

/-- By induction on the way: the path is read along the single locations that it was written
along. -/
theorem Vivifies.resolve_after {front : List Segment} {passed : List Index}
    (hknown : ∀ s ∈ p.segments, s.isUnknown = false)
    (hway : d.memory.Walk (p.indexAt level) front passed i) (hpassed : ∀ k ∈ passed, k ∈ holders)
    (hfront : front <+: p.segments) (force : Bool) :
    (d.assign (p.member t) level e force).memory.resolve (p.upTo front) level = .single i := by
  have hu : (d.assign (p.member t) level e force).memory.Unaliased := h.unaliased_assign he force
  have hmember {front : List Segment} {i j : Index} {s : Segment}
      (hi : (d.assign (p.member t) level e force).memory.resolve (p.upTo front) level = .single i)
      (hj : (d.assign (p.member t) level e force).memory.step (.single i) s = .single j) :
      (d.assign (p.member t) level e force).memory.resolve (p.upTo (front ++ [s])) level =
        .single j := by
    refine (Memory.resolve_member _ (p.upTo front) level s).trans ?_
    rw [hi, hj, expand_single hu]
  induction hway with
  | nil =>
    refine (congrArg (Memory.expand _ .must) (ofVariable_eq p level)).trans ?_
    exact expand_single hu .must _
  | @key front _ i s _ hs ih =>
    have hs' := hknown s (hfront.subset (List.mem_append_right _ List.mem_cons_self))
    exact hmember (ih hpassed ((List.prefix_append front [s]).trans hfront))
      (step_single_of (containersOf_key hs _ i) hs')
  | @field front passed i s o hway hs ho ih =>
    have hs' := hknown s (hfront.subset (List.mem_append_right _ List.mem_cons_self))
    have hbefore := (List.prefix_append front [s]).trans hfront
    refine hmember (ih (fun k hk => hpassed k (List.mem_append_left _ hk)) hbefore)
      (step_single_of ?_ hs')
    -- the one object that is held at the location is still there after the write
    have hi : i ∈ holders := hpassed i (List.mem_append_right _ List.mem_cons_self)
    have hone : (d.assign (p.member t) level e force).memory.objectsAt i = [o] :=
      (objectsAt_congr (hv.entry?_passed h he ht hi force)).trans
        (hv.objectsAt_passed h ht hway hpassed hs ho hfront)
    rw [containersOf_field hs (by rw [hone]; exact List.cons_ne_nil _ _), hone]
    rfl

/-- The other members are looked up in the new container. -/
theorem Vivifies.readAt_eq (hknown : ∀ s ∈ p.segments, s.isUnknown = false)
    (ht' : t'.isUnknown = false) (hsort : t.isField = t'.isField) (force : Bool) :
    (d.assign (p.member t) level e force).memory.readAt (p.member t') level =
      (d.assign (p.member t) level e force).memory.readIndex ((containerMade c t).member t') := by
  have hu : (d.assign (p.member t) level e force).memory.Unaliased := h.unaliased_assign he force
  have hresolve :
      (d.assign (p.member t) level e force).memory.resolve p level = .single c :=
    hv.resolve_after h he ht hknown hv.way (fun _ hk => hk) (List.prefix_refl _) force
  have hcontainer := containersOf_made hsort.symm (hv.entry?_container h he ht force)
  unfold readAt
  rw [Memory.resolve_member, hresolve, step_single_of hcontainer ht', expand_single hu,
    readLocations_single]

/-- What the write leaves of another element: what is stored at it, or what the unknown one holds.
That its container could be anything is lost. -/
theorem Vivifies.readAt_key (hknown : ∀ s ∈ p.segments, s.isUnknown = false)
    (ht' : t'.isUnknown = false) (hne : t ≠ t') (hsort : t.isField = t'.isField)
    (hkey : t.isField = false) (force : Bool) :
    (d.assign (p.member t) level e force).memory.readAt (p.member t') level =
      (d.memory.entry? (c.member t')).getD (d.memory.fallback (c.member t')) := by
  have hway : d.memory.Walk (p.indexAt level) (p.segments ++ [t']) holders (c.member t') :=
    .key hv.way (hsort.symm.trans hkey)
  have hmade : containerMade c t = c := by
    unfold containerMade
    rw [hkey, if_neg Bool.false_ne_true]
  have hsame {s : Segment} (hs : t ≠ s) (hs' : s = t' ∨ t' ≠ s) :
      (d.assign (p.member t) level e force).memory.entry? (c.member s) =
        d.memory.entry? (c.member s) := by
    refine hv.entry?_eq h he ht (h.not_wipes_beside hsort hway hv.bypassed ?_) ?_ force
    · rintro d' r i hmakes rfl
      obtain ⟨-, hc, hother⟩ := h.straight_of_makes hway hsort hv.bypassed hmakes
      rcases hs' with rfl | hs'
      · exact hother rfl
      · exact Index.not_contains_sibling hs'.symm c hc
    · rw [hmade]
      exact Index.not_contains_sibling hs c
  have hlike := Segment.ne_unknownLike ht' t'
  have hfallback : (d.assign (p.member t) level e force).memory.fallback (c.member t') =
      d.memory.fallback (c.member t') := by
    unfold fallback
    rw [Index.standIn?_member ht']
    exact entryOrUndefined_congr (hsame (Segment.ne_unknownLike ht t') (.inr hlike))
  have hbelow :
      ¬(d.assign (p.member t) level e force).memory.isBelowOpaque (c.member t') = true := by
    unfold isBelowOpaque
    dsimp only
    rw [hv.entry?_container h he ht force, hkey, ← hsort, hkey]
    simp [Entry.contains_eq_true, Entry.mem_ofValue]
  rw [hv.readAt_eq h he ht hknown ht' hsort force, hmade]
  unfold readIndex
  rw [hsame hne (.inl rfl), readAbsent_eq, if_neg hbelow, hfallback]

/-- Another field of a new object is undefined. -/
theorem Vivifies.readAt_field (hknown : ∀ s ∈ p.segments, s.isUnknown = false)
    (ht' : t'.isUnknown = false) (hne : t ≠ t') (hsort : t.isField = t'.isField)
    (hfield : t.isField = true) (hnew : d.MakesNew (p.member t) level) (force : Bool) :
    (d.assign (p.member t) level e force).memory.readAt (p.member t') level = .undefined := by
  have hmade : containerMade c t = .object c.text := if_pos hfield
  have hnone {j : Index} (hj : j.base = .object c.text)
      (hout : ¬((containerMade c t).member t).Contains j) :
      (d.assign (p.member t) level e force).memory.entry? j = none := by
    rw [hv.entry?_stored h he ht hout force]
    refine Eq.trans ?_ (hnew _ t true c hv.makes hfield j hj)
    refine entry?_prepare (h.resolve p level).1.consistent (fun _ hwipes => ?_) nofun
    exact c.base_ne_object_text (hwipes.contains.base_eq.symm.trans hj)
  have hsibling {s : Segment} (hs : t ≠ s) :
      (d.assign (p.member t) level e force).memory.entry? ((Index.object c.text).member s) =
        none := by
    apply hnone rfl
    rw [hmade]
    exact Index.not_contains_sibling hs _
  have hobject : (d.assign (p.member t) level e force).memory.entry? (.object c.text) = none := by
    apply hnone rfl
    rw [hmade]
    exact Index.not_member_contains _ t
  have hlike := hsibling (Segment.ne_unknownLike ht t')
  rw [hv.readAt_eq h he ht hknown ht' hsort force, hmade, readIndex_of_none (hsibling hne),
    readAbsent_eq, if_neg]
  · unfold fallback
    rw [Index.standIn?_member ht']
    exact entryOrUndefined_of_none hlike
  · unfold isBelowOpaque
    dsimp only
    rw [hobject]
    exact Bool.false_ne_true

end

end Draft
end ScriptMemory
