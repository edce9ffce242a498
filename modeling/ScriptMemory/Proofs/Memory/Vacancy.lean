import ScriptMemory.Proofs.Memory.Growth

/-! Locations below what a write brings into being. Where a path comes to a location that holds no
object and a field is looked up, it goes on below an object that is made there. If nothing is stored
yet under the identity of that object, all but what the path leads to is undefined there. -/
namespace ScriptMemory
open Std

/-- No location lies below an object that is named after it. -/
theorem Index.base_ne_object_text (i : Index) : i.base ≠ .object i.text := by
  have hle (i : Index) : i.base.text.length ≤ i.text.length := by
    induction i with
    | root r => exact Nat.le_refl _
    | member i s ih =>
      unfold base text
      rw [String.length_append]
      exact Nat.le_trans ih (Nat.le_add_right _ _)
  intro heq
  have hlt := hle i
  rw [heq] at hlt
  unfold Root.text at hlt
  simp only [String.length_append] at hlt
  have hparen : "obj(".length = 4 := rfl
  omega

namespace Memory
variable {m : Memory} {c j start : Index} {s : Segment}

/-- A way holds no objects where nothing is stored. -/
theorem Walk.outside {segments : List Segment} {holders : List Index}
    (h : m.Walk start segments holders j)
    (hnone : ∀ k, c.Contains k → m.entry? k = none) : ∀ k ∈ holders, ¬c.Contains k := by
  intro k hk hc
  obtain ⟨o, ho⟩ := List.exists_mem_of_ne_nil _ (h.objectsAt_ne_nil hk)
  obtain ⟨e, he, -⟩ := Memory.mem_objectsAt.1 ho
  exact nomatch (hnone k hc).symm.trans he

theorem objectsAt_of_entry {i : Index} {o : ObjectValue}
    (h : m.entry? i = some (.ofValue (.object o))) : m.objectsAt i = [o] := by
  have hvalues : (Entry.ofValue (.object o)).toList = [.object o] :=
    OrdSet.toList_eq_singleton fun v => Entry.mem_ofValue
  unfold objectsAt
  rw [h]
  change (Entry.ofValue (.object o)).toList.filterMap Value.object? = _
  rw [hvalues]
  rfl

theorem entry?_of_contains_member (h : ∀ k, c.Contains k → k ≠ c → m.entry? k = none)
    (hj : (c.member s).Contains j) : m.entry? j = none := by
  refine h j ((Index.contains_member c s).trans hj) ?_
  rintro rfl
  exact Index.not_member_contains j s hj

end Memory

namespace Draft
open Memory
variable {d : Draft} {l : Locations} {p : Path} {level : Nat} {s : Segment} {i j start : Index}
  {segments : List Segment} {holders : List Index}

/-- The segments lead for writing to a member of a container all of whose other members may be
undefined, and no object on the way there is replaced. -/
def Vacant (d : Draft) (l : Locations) (start : Index) (segments : List Segment) (s : Segment) :
    Prop :=
  ∃ (c : Index) (holders : List Index), d.memory.Walk start (segments ++ [s]) holders (c.member s) ∧
    (∀ t, t ≠ s → .undefined ∈ d.memory.entryOrUndefined (c.member t)) ∧
    c.member s ∈ l.toList ∧ ∀ x ∈ l.must, ∀ k ∈ holders, ¬x.Contains k

/-- The segments lead to one location, and nothing is stored below the container that it is a member
of. -/
def Fresh (d : Draft) (l : Locations) (start : Index) (segments : List Segment) (s : Segment) :
    Prop :=
  ∃ c holders, l = .single (c.member s) ∧
    d.memory.Walk start (segments ++ [s]) holders (c.member s) ∧
    ∀ j, c.Contains j → j ≠ c → d.memory.entry? j = none

theorem Fresh.vacant (h : d.Fresh l start segments s) : d.Vacant l start segments s := by
  obtain ⟨c, holders, rfl, hwalk, hbelow⟩ := h
  have hout : ∀ k ∈ holders, ¬(c.member s).Contains k :=
    hwalk.outside fun j hj => entry?_of_contains_member hbelow hj
  refine ⟨c, holders, hwalk, fun t ht => ?_, ?_, fun x hx => mem_insert_empty.1 hx ▸ hout⟩
  · have hother := hbelow _ (Index.contains_member c t) (Index.ne_member c t).symm
    rw [entryOrUndefined_of_none hother]
    exact Entry.mem_ofValue.2 rfl
  · rw [Locations.toList_single]
    exact List.mem_singleton.2 rfl

/-- An object that is certainly made at a location is the only one there. -/
theorem Free.objectsAt_prepare (h : d.Free) (hs : s.isField = true)
    (hnone : d.memory.objectsAt i = []) :
    (d.prepare s true i).memory.objectsAt i = [.madeAt i] := by
  have hentry : (d.prepare s true i).memory.entry? i =
      some (.ofValue (.object (.madeAt i))) := by
    rw [prepare_field hs hnone]
    unfold add
    rw [entry?_write_self, if_pos rfl, fit_of_limit (h.declareObject _).limit_eq]
  exact objectsAt_of_entry hentry

/-- A container that has to be made at the end of a way is new, if nothing is stored below it. -/
theorem Free.fresh_prepare (h : d.Free) (hknown : s.isUnknown = false)
    (hwalk : d.memory.Walk start segments holders i) (hout : ∀ k ∈ holders, ¬i.Contains k)
    (hnone : ¬d.memory.Opened s i)
    (hbelow : s.isField = false → ∀ j, i.Contains j → j ≠ i → d.memory.entry? j = none)
    (hnew : s.isField = true → ∀ j : Index, j.base = .object i.text → d.memory.entry? j = none) :
    (d.prepare s true i).Fresh ((d.prepare s true i).memory.step (.single i) s) start segments
      s := by
  have hkept : (d.prepare s true i).memory.Walk start segments holders i :=
    hwalk.gained fun k hk => h.grows_prepare fun _ _ hwipes => hout k hk hwipes.contains
  cases hs : s.isField with
  | false =>
    refine ⟨i, holders, step_single_of (containersOf_key hs _ i) hknown, .key hkept hs, ?_⟩
    intro j hj hne
    have hsame : (d.prepare s true i).memory.entry? j = d.memory.entry? j := by
      refine entry?_prepare h.consistent (fun _ hwipes => ?_) nofun
      exact hne (hwipes.eq_of_key hs).symm
    exact hsame.trans (hbelow hs j hj hne)
  | true =>
    have hnoobjects : d.memory.objectsAt i = [] := by
      by_contra hsome
      exact hnone ((opened_iff_of_field hs).2 hsome)
    have hobjects := h.objectsAt_prepare hs hnoobjects
    have hmem : ObjectValue.madeAt i ∈ (d.prepare s true i).memory.objectsAt i := by
      rw [hobjects]
      exact List.mem_singleton.2 rfl
    have hcontainer : (d.prepare s true i).memory.containersOf i s =
        [(ObjectValue.madeAt i).index] := by
      rw [containersOf_field hs (List.ne_nil_of_mem hmem), hobjects]
      rfl
    refine ⟨_, _, step_single_of hcontainer hknown, .field hkept hs hmem, ?_⟩
    intro j hj hne
    have hbase : j.base = .object i.text := hj.base_eq
    have hsame : (d.prepare s true i).memory.entry? j = d.memory.entry? j := by
      refine entry?_prepare h.consistent (fun _ hwipes => ?_) nofun
      exact i.base_ne_object_text (hwipes.contains.base_eq.symm.trans hbase)
    exact hsame.trans (hnew hs j hbase)

/-- By induction on the way that the path goes on from a certain location without objects. -/
theorem Unlinked.fresh_resolve {front rest : List Segment} {f : Segment} (h : d.Unlinked)
    (hknown : ∀ s ∈ p.segments, s.isUnknown = false) (hnew : d.MakesNew p level)
    (hf : f.isField = true) (hl : (d.resolve (p.upTo front) level).2 = .single i)
    (hwalk : (d.resolve (p.upTo front) level).1.memory.Walk start front holders i)
    (hout : ∀ k ∈ holders, ¬i.Contains k)
    (hnone : (d.resolve (p.upTo front) level).1.memory.objectsAt i = [])
    (hrest : front ++ f :: rest <+: p.segments) :
    ∃ segments s, front ++ f :: rest = segments ++ [s] ∧
      (d.resolve (p.upTo (front ++ f :: rest)) level).1.Fresh
        (d.resolve (p.upTo (front ++ f :: rest)) level).2 start segments s := by
  have hmade {front : List Segment} {s : Segment} {i : Index}
      (hfront : front ++ [s] <+: p.segments)
      (hl : (d.resolve (p.upTo front) level).2 = .single i)
      (hnone : ¬(d.resolve (p.upTo front) level).1.memory.Opened s i) (hs : s.isField = true) :
      ∀ j : Index, j.base = .object i.text →
        (d.resolve (p.upTo front) level).1.memory.entry? j = none := by
    have hi : i ∈ (d.resolve (p.upTo front) level).2.must := by
      rw [hl]
      exact mem_insert_empty.2 rfl
    exact hnew _ s true i (makes_of_mem_must hfront hi hnone) hs
  induction rest using List.reverseRecOn with
  | nil =>
    refine ⟨front, f, rfl, ?_⟩
    have hclosed := not_opened_of_field hf hnone
    have hmade := hmade hrest hl hclosed
    change (d.resolve ((p.upTo front).member f) level).1.Fresh
      (d.resolve ((p.upTo front).member f) level).2 _ _ _
    rw [h.resolve_member, hl, prepareAll_single]
    refine (h.resolve (p.upTo front) level).1.toFree.fresh_prepare ?_ hwalk hout hclosed
      (fun hkey => nomatch hf.symm.trans hkey) hmade
    exact hknown f (hrest.subset (List.mem_append_right _ List.mem_cons_self))
  | append_singleton rest s ih =>
    have hconcat : front ++ f :: (rest ++ [s]) = front ++ f :: rest ++ [s] := by simp
    rw [hconcat] at hrest ⊢
    refine ⟨front ++ f :: rest, s, rfl, ?_⟩
    obtain ⟨segments, s', hsegments, c, holders', hl, hwalk, hbelow⟩ :=
      ih ((List.prefix_append _ [s]).trans hrest)
    have hinside (j : Index) (hj : (c.member s').Contains j) :
        (d.resolve (p.upTo (front ++ f :: rest)) level).1.memory.entry? j = none :=
      entry?_of_contains_member hbelow hj
    have hclosed := not_opened_of_none (s := s) (hinside _ (Index.contains_refl _))
    have hmade := hmade hrest hl hclosed
    rw [← hsegments] at hwalk
    change (d.resolve ((p.upTo (front ++ f :: rest)).member s) level).1.Fresh
      (d.resolve ((p.upTo (front ++ f :: rest)).member s) level).2 _ _ _
    rw [h.resolve_member, hl, prepareAll_single]
    have hs := hknown s (hrest.subset (List.mem_append_right _ List.mem_cons_self))
    exact (h.resolve (p.upTo _) level).1.toFree.fresh_prepare hs hwalk (hwalk.outside hinside)
      hclosed (fun _ j hj _ => hinside j hj) hmade

end Draft

namespace Memory
variable {m n : Memory} {R : ObjectId → Prop} {i j : Index} {o : ObjectValue}

theorem mem_objectsAt_iff_entryOrUndefined :
    o ∈ m.objectsAt i ↔ .object o ∈ m.entryOrUndefined i := by
  rw [Memory.mem_objectsAt]
  constructor
  · rintro ⟨e, he, ho⟩
    rwa [entryOrUndefined_of_some he]
  · intro ho
    cases he : m.entry? i with
    | some e => exact ⟨e, rfl, by rwa [entryOrUndefined_of_some he] at ho⟩
    | none =>
      rw [entryOrUndefined_of_none he] at ho
      exact nomatch Entry.mem_ofValue.1 ho

/-- Memory `n` has come from `m` by making objects of the identities in `R` only, under which
nothing but possibly undefined containers is stored. -/
structure Hollow (m n : Memory) (R : ObjectId → Prop) : Prop where
  old : ∀ j, ∀ o ∈ n.objectsAt j, o ∈ m.objectsAt j ∨ R o.id
  undefined : ∀ j id, j.base = .object id → R id → .undefined ∈ n.entryOrUndefined j
  objects : ∀ j id, j.base = .object id → R id → ∀ o ∈ n.objectsAt j, R o.id
  unused : ∀ id, (∀ j : Index, j.base = .object id → n.entry? j = none) → R id

/-- Whatever identity is not in use may be used. -/
theorem hollow_unused (h : ∀ j, ∀ o ∈ n.objectsAt j, o ∈ m.objectsAt j) :
    m.Hollow n fun id => ∀ j : Index, j.base = .object id → n.entry? j = none where
  old := fun j o ho => .inl (h j o ho)
  undefined := by
    intro j id hj hid
    rw [entryOrUndefined_of_none (hid j hj)]
    exact Entry.mem_ofValue.2 rfl
  objects := by
    intro j id hj hid o ho
    obtain ⟨e, he, -⟩ := Memory.mem_objectsAt.1 ho
    exact nomatch (hid j hj).symm.trans he
  unused := fun _ => id

end Memory

namespace Draft
open Memory
variable {d : Draft} {m : Memory} {R : ObjectId → Prop} {l : Locations} {p : Path} {level : Nat}
  {s : Segment} {i j start : Index} {segments : List Segment} {holders : List Index}
  {o : ObjectValue}

theorem Free.hollow_prepare (h : d.Free) (hm : m.Hollow d.memory R)
    (hnew : s.isField = true → d.memory.objectsAt i = [] → R i.text) :
    m.Hollow (d.prepare s false i).memory R := by
  rcases h.prepare_possible s i with heq | ⟨x, hx, hentry⟩
  · rwa [heq]
  · have hheld (j : Index) : (d.prepare s false i).memory.entryOrUndefined j =
        if j = i then (d.memory.entryOrUndefined i).insert x else d.memory.entryOrUndefined j := by
      unfold entryOrUndefined
      rw [hentry]
      split <;> rfl
    -- an object that was not there is the one that has been made
    have hobject {j : Index} {o : ObjectValue} (ho : o ∈ (d.prepare s false i).memory.objectsAt j) :
        o ∈ d.memory.objectsAt j ∨ R o.id := by
      rw [mem_objectsAt_iff_entryOrUndefined, hheld] at ho
      split at ho
      · next hj =>
        subst hj
        rcases (Entry.mem_insert_iff_of_isSolid (Value.object_isSolid o)).1 ho with heq | ho
        · obtain ⟨hs, hnone, rfl⟩ := hx o heq.symm
          exact .inr (hnew hs hnone)
        · exact .inl (mem_objectsAt_iff_entryOrUndefined.2 ho)
      · exact .inl (mem_objectsAt_iff_entryOrUndefined.2 ho)
    constructor
    · intro j o ho
      exact (hobject ho).elim (hm.old j o) .inr
    · intro j id hj hid
      have hundefined := hm.undefined j id hj hid
      rw [hheld]
      split
      · next hji =>
        rw [hji] at hundefined
        exact (Entry.mem_insert_iff_of_isSolid Value.undefined_isSolid).2 (.inr hundefined)
      · exact hundefined
    · intro j id hj hid o ho
      exact (hobject ho).elim (hm.objects j id hj hid o) fun hr => hr
    · intro id hid
      refine hm.unused id fun j hj => ?_
      have hnone := hid j hj
      rw [hentry] at hnone
      split at hnone
      · cases hnone
      · exact hnone

theorem Free.hollow_prepareAll (h : d.Free) (hl : l.must = ∅) (hm : m.Hollow d.memory R)
    (hnew : s.isField = true → ∀ i ∈ l.toList, d.memory.objectsAt i = [] → R i.text) :
    m.Hollow (d.prepareAll s l).memory R := by
  let I (d' : Draft) := d'.Free ∧ (∀ j, d.memory.Grows d'.memory j) ∧ m.Hollow d'.memory R
  refine (prepareAll_of_none (I := I) hl ⟨h, Grows.refl _, hm⟩ ?_).2.2
  rintro d' i ⟨hfree, hgrows, hm'⟩ hi
  refine ⟨hfree.prepare s false i,
    fun j => (hgrows j).trans (hfree.grows_prepare nofun), hfree.hollow_prepare hm' ?_⟩
  intro hs hnone
  refine hnew hs i hi (List.eq_nil_iff_forall_not_mem.2 fun o ho => ?_)
  have hlater := (hgrows i).mem_objectsAt ho
  rw [hnone] at hlater
  cases hlater

/-- Making an array at a certain location brings no object anywhere. -/
theorem Free.mem_objectsAt_of_prepare (h : d.Free) (hs : s.isField = false)
    (ho : o ∈ (d.prepare s true i).memory.objectsAt j) : o ∈ d.memory.objectsAt j := by
  rcases d.prepare_cases s true i with ⟨-, heq⟩ | ⟨hfield, -⟩ | ⟨-, -, heq⟩
  · rwa [heq] at ho
  · exact nomatch hs.symm.trans hfield
  · obtain ⟨e, he, hmem⟩ := Memory.mem_objectsAt.1 ho
    by_cases hj : j = i
    · subst hj
      rw [heq] at he
      unfold add at he
      rw [entry?_write_self, if_pos rfl, fit_of_limit h.limit_eq] at he
      cases he
      exact nomatch Entry.mem_ofValue.1 hmem
    · have hsame : (d.prepare s true i).memory.entry? j = d.memory.entry? j := by
        refine entry?_prepare h.consistent (fun _ hwipes => ?_) nofun
        exact hj (hwipes.eq_of_key hs).symm
      exact Memory.mem_objectsAt.2 ⟨e, hsame.symm.trans he, hmem⟩

/-- A way goes on below the objects that are made: to a location that a write may reach as well. -/
theorem Free.hollow_step (h : d.Free) (hl : l.must = ∅) (hm : m.Hollow (d.prepareAll s l).memory R)
    (hwalk : d.memory.Walk start segments holders i) (hi : i ∈ l.toList)
    (hplace : s.isField = true ∧ m.objectsAt i = [] ∨ ∃ id, i.base = .object id ∧ R id) :
    ∃ (c : Index) (holders' : List Index) (id : ObjectId),
      (d.prepareAll s l).memory.Walk start (segments ++ [s]) holders' (c.member s) ∧
        c.member s ∈ ((d.prepareAll s l).memory.step l s).toList ∧ c.base = .object id ∧ R id := by
  have hvacuous {P : Index → Prop} : ∀ i ∈ l.must, P i := by
    rw [hl]
    exact fun _ hi => absurd hi ExtTreeSet.not_mem_empty
  have hkept : (d.prepareAll s l).memory.Walk start segments holders i :=
    hwalk.gained fun _ _ => h.grows_prepareAll (.inr hl) hvacuous
  cases hs : s.isField with
  | false =>
    obtain ⟨id, hbase, hid⟩ := hplace.resolve_left fun hp => nomatch hs.symm.trans hp.1
    exact ⟨i, holders, id, .key hkept hs, member_mem_step_key hi hs, hbase, hid⟩
  | true =>
    have hobjects : (d.prepareAll s l).memory.objectsAt i ≠ [] :=
      objectsAt_prepareAll_ne_nil h.consistent hs hi fun v hv =>
        hvacuous (P := fun v => s.Wipes v i → v = i) v (ExtTreeSet.mem_toList.1 hv)
    obtain ⟨o, ho⟩ := List.exists_mem_of_ne_nil _ hobjects
    have hid : R o.id := by
      rcases hplace with ⟨-, hnone⟩ | ⟨id, hbase, hid⟩
      · refine (hm.old i o ho).resolve_left fun hold => ?_
        rw [hnone] at hold
        cases hold
      · exact hm.objects i id hbase hid o ho
    exact ⟨o.index, _, o.id, .field hkept hs ho, member_mem_step_field hi hs ho, rfl, hid⟩

section
variable {front rest : List Segment} {f : Segment} (h : d.Unlinked) (hnew : d.MakesNew p level)
include h hnew

/-- The objects that are made where nothing is certain get identities that are not in use. -/
theorem Unlinked.hollow_member (hfront : front ++ [s] <+: p.segments)
    (hl : (d.resolve (p.upTo front) level).2.must = ∅)
    (hm : m.Hollow (d.resolve (p.upTo front) level).1.memory R) :
    (d.resolve (p.upTo (front ++ [s])) level).2.must = ∅ ∧
      m.Hollow (d.resolve (p.upTo (front ++ [s])) level).1.memory R := by
  change (d.resolve ((p.upTo front).member s) level).2.must = ∅ ∧
    m.Hollow (d.resolve ((p.upTo front).member s) level).1.memory R
  rw [h.resolve_member]
  refine ⟨Locations.must_step_of_none hl _ s,
    (h.resolve _ level).1.toFree.hollow_prepareAll hl hm fun hs i hi hnone => ?_⟩
  obtain ⟨certain, hmakes⟩ := makes_of_mem hfront hi (not_opened_of_field hs hnone)
  exact hm.unused _ (hnew _ s certain i hmakes hs)

/-- By induction on the path: as long as it follows a way without a branch no object is made. After
that, those that are made are of identities that are not in use. -/
theorem Unlinked.single_or_hollow (hout : ∀ k ∈ holders, ∀ d' s i, d.Makes p level d' s true i →
      ¬s.Wipes i k) (hway : d.memory.Walk (p.indexAt level) (front ++ rest) holders i)
    (hall : front ++ rest <+: p.segments) :
    (∃ x, (d.resolve (p.upTo front) level).2 = .single x) ∧
        (∀ j, ∀ o ∈ (d.resolve (p.upTo front) level).1.memory.objectsAt j,
          o ∈ d.memory.objectsAt j) ∨
      (d.resolve (p.upTo front) level).2.must = ∅ ∧
        ∃ R, d.memory.Hollow (d.resolve (p.upTo front) level).1.memory R := by
  induction front using List.reverseRecOn generalizing rest with
  | nil =>
    rw [resolve_upTo_nil h]
    exact .inl ⟨⟨_, rfl⟩, fun _ _ => id⟩
  | append_singleton front s ih =>
    rw [List.append_assoc] at hway hall
    have hfront : front ++ [s] <+: p.segments := by
      refine List.IsPrefix.trans ?_ hall
      exact ⟨rest, by rw [List.append_assoc]⟩
    rcases ih hway hall with ⟨⟨x, hx⟩, hobjects⟩ | ⟨hl, R, hm⟩
    · have hbefore : front <+: p.segments := (List.prefix_append front [s]).trans hfront
      obtain ⟨holders₁, holders₂, y, rfl, hfirst, hsecond⟩ := hway.split
      obtain rfl : y = x := by
        have hy := h.mem_resolve (fun k hk => hout k (List.mem_append_left _ hk)) hbefore hfirst
        rw [hx, Locations.toList_single] at hy
        exact List.mem_singleton.1 hy
      have hsole := (h.resolve ((p.upTo front).member s) level).2
      obtain ⟨hresolve, -⟩ := h.resolve (p.upTo front) level
      -- the way passes an object here, if it goes on to a field
      have hkept : ∀ j, ∀ o ∈ (d.resolve ((p.upTo front).member s) level).1.memory.objectsAt j,
          o ∈ d.memory.objectsAt j := by
        intro j o ho
        rw [h.resolve_member, hx, prepareAll_single] at ho
        cases hs : s.isField with
        | false => exact hobjects j o (hresolve.toFree.mem_objectsAt_of_prepare hs ho)
        | true =>
          obtain ⟨hholder, hheld⟩ := hsecond.start_mem_holders hs
          have hopened : d.memory.Opened s y := (opened_iff_of_field hs).2 hheld
          have hgrows := h.grows_resolve (hout y (List.mem_append_right _ hholder)) hbefore
          rw [prepare_of_opened (hopened.gained hgrows)] at ho
          exact hobjects j o ho
      rcases hsole with hsingle | hmust
      · exact .inl ⟨hsingle, hkept⟩
      · exact .inr ⟨hmust, _, hollow_unused hkept⟩
    · obtain ⟨hmust, hm'⟩ := h.hollow_member hnew hfront hl hm
      exact .inr ⟨hmust, R, hm'⟩

/-- By induction on the way that the path goes on from a possible location without objects. -/
theorem Unlinked.hollow_resolve (hf : f.isField = true)
    (hl : (d.resolve (p.upTo front) level).2.must = ∅)
    (hm : m.Hollow (d.resolve (p.upTo front) level).1.memory R)
    (hwalk : (d.resolve (p.upTo front) level).1.memory.Walk start front holders i)
    (hi : i ∈ (d.resolve (p.upTo front) level).2.toList) (hnone : m.objectsAt i = [])
    (hrest : front ++ f :: rest <+: p.segments) :
    (d.resolve (p.upTo (front ++ f :: rest)) level).2.must = ∅ ∧
      m.Hollow (d.resolve (p.upTo (front ++ f :: rest)) level).1.memory R ∧
      ∃ segments s, ∃ (c : Index) (holders' : List Index) (id : ObjectId),
        front ++ f :: rest = segments ++ [s] ∧
        (d.resolve (p.upTo (front ++ f :: rest)) level).1.memory.Walk start (segments ++ [s])
          holders' (c.member s) ∧
        c.member s ∈ (d.resolve (p.upTo (front ++ f :: rest)) level).2.toList ∧
        c.base = .object id ∧ R id := by
  induction rest using List.reverseRecOn with
  | nil =>
    obtain ⟨hmust, hm'⟩ := h.hollow_member hnew hrest hl hm
    refine ⟨hmust, hm', front, f, ?_⟩
    change m.Hollow (d.resolve ((p.upTo front).member f) level).1.memory R at hm'
    change ∃ (c : Index) (holders' : List Index) (id : ObjectId), _ ∧
      (d.resolve ((p.upTo front).member f) level).1.memory.Walk _ _ _ _ ∧
        _ ∈ (d.resolve ((p.upTo front).member f) level).2.toList ∧ _
    rw [h.resolve_member] at hm' ⊢
    obtain ⟨c, holders', id, hwalk, hmem, hbase, hid⟩ :=
      (h.resolve _ level).1.toFree.hollow_step hl hm' hwalk hi (.inl ⟨hf, hnone⟩)
    exact ⟨c, holders', id, rfl, hwalk, hmem, hbase, hid⟩
  | append_singleton rest s ih =>
    have hconcat : front ++ f :: (rest ++ [s]) = front ++ f :: rest ++ [s] := by simp
    rw [hconcat] at hrest ⊢
    obtain ⟨hl, hm, segments, s', c, holders', id, hsegments, hwalk, hmem, hbase, hid⟩ :=
      ih ((List.prefix_append _ [s]).trans hrest)
    rw [← hsegments] at hwalk
    obtain ⟨hmust, hm'⟩ := h.hollow_member hnew hrest hl hm
    refine ⟨hmust, hm', front ++ f :: rest, s, ?_⟩
    change m.Hollow (d.resolve ((p.upTo (front ++ f :: rest)).member s) level).1.memory R at hm'
    change ∃ (c : Index) (holders' : List Index) (id : ObjectId), _ ∧
      (d.resolve ((p.upTo (front ++ f :: rest)).member s) level).1.memory.Walk _ _ _ _ ∧
        _ ∈ (d.resolve ((p.upTo (front ++ f :: rest)).member s) level).2.toList ∧ _
    rw [h.resolve_member] at hm' ⊢
    obtain ⟨c', holders'', id', hwalk, hmem, hbase, hid⟩ :=
      (h.resolve _ level).1.toFree.hollow_step hl hm' hwalk hmem (.inr ⟨id, hbase, hid⟩)
    exact ⟨c', holders'', id', rfl, hwalk, hmem, hbase, hid⟩

end

/-- Where a way ends at a location without objects although a field comes next, the path leads for
writing past objects that are made. -/
theorem Unlinked.exists_vacant {front back : List Segment} {f : Segment} (h : d.Unlinked)
    (hknown : ∀ s ∈ p.segments, s.isUnknown = false) (hnew : d.MakesNew p level)
    (hsegments : p.segments = front ++ f :: back) (hf : f.isField = true)
    (hway : d.memory.Walk (p.indexAt level) front holders i) (hby : d.Bypasses p level holders)
    (hnone : d.memory.objectsAt i = []) :
    ∃ segments s, p.segments = segments ++ [s] ∧
      (d.resolve p level).1.Vacant (d.resolve p level).2 (p.indexAt level) segments s := by
  have hall : d.resolve p level = d.resolve (p.upTo (front ++ f :: back)) level := by
    rw [← hsegments]
    rfl
  rw [hall, hsegments]
  have hrest : front ++ f :: back <+: p.segments := hsegments ▸ List.prefix_refl _
  have hfront : front <+: p.segments := (List.prefix_append front _).trans hrest
  have hone : front ++ [f] <+: p.segments :=
    List.IsPrefix.trans ⟨back, by rw [List.append_assoc]; rfl⟩ hrest
  have hi := h.mem_resolve hby.not_wipes hfront hway
  have hwalk := hway.gained fun k hk => h.grows_resolve (hby.not_wipes k hk) hfront
  rw [← List.append_nil front] at hway hfront
  rcases h.single_or_hollow hnew hby.not_wipes hway hfront with
    ⟨⟨x, hx⟩, hobjects⟩ | ⟨hl, R, hm⟩
  · -- the path has not branched by then, so that the object is certainly made
    obtain rfl : i = x := by
      rw [hx, Locations.toList_single] at hi
      exact List.mem_singleton.1 hi
    have hnone' : (d.resolve (p.upTo front) level).1.memory.objectsAt i = [] := by
      refine List.eq_nil_iff_forall_not_mem.2 fun o ho => ?_
      have hold := hobjects i o ho
      rw [hnone] at hold
      cases hold
    have hmust : i ∈ (d.resolve (p.upTo front) level).2.must := by
      rw [hx]
      exact mem_insert_empty.2 rfl
    have hmakes := makes_of_mem_must hone hmust (not_opened_of_field hf hnone')
    obtain ⟨segments, s, heq, hfresh⟩ :=
      h.fresh_resolve hknown hnew hf hx hwalk (hby i (.inl ⟨_, f, hmakes⟩)) hnone' hrest
    exact ⟨segments, s, heq, hfresh.vacant⟩
  · -- it has, and from there on nothing is replaced
    obtain ⟨hmust, hm', segments, s, c, holders', id, heq, hwalk', hmem, hbase, hid⟩ :=
      h.hollow_resolve hnew hf hl hm hwalk hi hnone hrest
    refine ⟨segments, s, heq, c, holders', hwalk',
      fun t _ => hm'.undefined (c.member t) id hbase hid, hmem, fun x hx => ?_⟩
    rw [hmust] at hx
    exact absurd hx ExtTreeSet.not_mem_empty

end Draft
end ScriptMemory
