import ScriptMemory.Proofs.Memory.Vacancy
import ScriptMemory.Proofs.UnknownReads
import ScriptMemory.Proofs.WeakWrites

/-! What stays readable beside the member that a write goes to. Values are gained there or left as
they are, unless a container is made for what was absent, or replaces the one that it was in. -/
namespace ScriptMemory
open Std

theorem Index.standIn?_member {s : Segment} (hs : s.isUnknown = false) (c : Index) :
    (c.member s).standIn? = some (c.member s.unknownLike) :=
  if_neg (Bool.eq_false_iff.1 hs)

theorem Index.not_contains_sibling {s t : Segment} (hne : s ≠ t) (c : Index) :
    ¬(c.member s).Contains (c.member t) :=
  fun hc => hne (hc.segment_eq (contains_refl _))

theorem Segment.ne_unknownLike {s : Segment} (hs : s.isUnknown = false) (t : Segment) :
    s ≠ t.unknownLike := by
  rintro rfl
  exact nomatch hs.symm.trans (Memory.isUnknown_unknownLike t)

/-- Where values are gained, those that were read are read still. An absent location that does not
read as undefined has to stay absent; what it reads is what its stand-in holds, or its container has
to gain values as well. -/
theorem Memory.covers_readIndex_of_grows {m n : Memory} {j : Index} {v : Value}
    (hself : m.Grows n j) (hstandIn : ∀ k ∈ j.standIn?, m.Grows n k) (hv : v ∈ m.readIndex j)
    (habsent : v ≠ .undefined → m.entry? j = none → n.entry? j = none ∧
      ((m.fallback j).Covers v ∨ ∀ (c : Index) s, j = c.member s → m.Grows n c)) :
    (n.readIndex j).Covers v := by
  have hfallback := fun w => covers_fallback_of (v := w) fun k hk => (hstandIn k hk).covers
  cases hentry : m.entry? j with
  | some e =>
    obtain ⟨f, hf, hcovers⟩ := hself.entryBelow e hentry
    rw [readIndex_of_some hentry] at hv
    rw [readIndex_of_some hf]
    exact hcovers v (Entry.covers_of_mem hv)
  | none =>
    rw [readIndex_of_none hentry] at hv
    have hread := Entry.covers_of_mem hv
    by_cases hundefined : v = .undefined
    · subst hundefined
      cases hafter : n.entry? j with
      | some f =>
        have hheld : (m.entryOrUndefined j).Covers .undefined := by
          rw [entryOrUndefined_of_none hentry]
          exact Entry.covers_undefined.2 rfl
        have hcovers := hself.covers hheld
        rwa [readIndex_of_some hafter, ← entryOrUndefined_of_some hafter]
      | none =>
        rw [readIndex_of_none hafter, covers_undefined_readAbsent]
        exact hfallback _ (covers_undefined_readAbsent.1 hread)
    · obtain ⟨hafter, hkept⟩ := habsent hundefined hentry
      rw [readIndex_of_none hafter, covers_readAbsent]
      rcases hkept with hcovered | hcontainer
      · exact .inr (hfallback v hcovered)
      · refine (covers_readAbsent.1 hread).imp (.imp_left ?_) (hfallback v)
        exact isBelowOpaque_mono fun c s heq => (hcontainer c s heq).entryBelow

/-- A member reads as undefined if both it and the unknown one may be. -/
theorem Memory.undefined_mem_readIndex {m : Memory} {c : Index} {s : Segment}
    (hs : s.isUnknown = false) (hown : .undefined ∈ m.entryOrUndefined (c.member s))
    (hlike : .undefined ∈ m.entryOrUndefined (c.member s.unknownLike)) :
    .undefined ∈ m.readIndex (c.member s) := by
  cases hentry : m.entry? (c.member s) with
  | some e =>
    rw [entryOrUndefined_of_some hentry] at hown
    rwa [readIndex_of_some hentry]
  | none =>
    have hsolid (e : Entry) : e.Covers .undefined ↔ .undefined ∈ e :=
      Entry.covers_iff_of_isSolid Value.undefined_isSolid
    rw [readIndex_of_none hentry, ← hsolid, covers_undefined_readAbsent, hsolid]
    unfold fallback
    rwa [Index.standIn?_member hs]

namespace Draft
open Memory
variable {d d' : Draft} {p : Path} {level : Nat} {t t' s : Segment} {e : Entry} {v : Value}
  {holders : List Index} {i j c : Index}

/-- Where a container is certainly made next to a way that is bypassed, it is an array, and the way
goes straight down from there. -/
theorem Unlinked.straight_of_makes (h : d.Unlinked)
    (hway : d.memory.Walk (p.indexAt level) (p.segments ++ [t']) holders j)
    (hsort : t.isField = t'.isField) (hby : d.Bypasses (p.member t) level holders)
    (hmakes : d.Makes (p.member t) level d' s true i) :
    s.isField = false ∧ i.Contains j ∧ i ≠ j := by
  obtain ⟨front, back, l, hsegments, hresolve, hv, -⟩ := id hmakes
  -- the location is where the way has come by then, since no other is meant
  obtain ⟨rest, hrest, hback⟩ : ∃ rest, p.segments = front ++ rest ∧ s :: back = rest ++ [t] := by
    obtain ⟨rest, last, hlast⟩ := (List.eq_nil_or_concat (s :: back)).resolve_left
      (List.cons_ne_nil s back)
    rw [List.concat_eq_append] at hlast
    rw [hlast, ← List.append_assoc] at hsegments
    obtain ⟨hinit, hone⟩ := List.append_inj' hsegments rfl
    exact ⟨rest, hinit, by rw [hlast, hone]⟩
  rw [hrest, List.append_assoc] at hway
  obtain ⟨holders₁, holders₂, x, rfl, hfirst, hsecond⟩ := hway.split
  have hx : x ∈ l.toList := by
    have hfront : front <+: (p.member t).segments := ⟨s :: back, hsegments.symm⟩
    have hmem := h.mem_resolve (p := p.member t)
      (fun k hk => hby.not_wipes k (List.mem_append_left _ hk)) hfront hfirst
    rwa [hresolve] at hmem
  have hsole : l.Sole := by
    have hall := (h.resolve ((p.member t).upTo front) level).2
    rwa [hresolve] at hall
  have hi : i ∈ l.must := ExtTreeSet.mem_toList.1 (Locations.mem_must_of_mem_visits hv rfl)
  obtain rfl := hsole.eq_of_mem hi hx
  rcases hsecond.straight_or with ⟨-, rfl, hkeys⟩ | ⟨k, hk, hc⟩
  · refine ⟨?_, ⟨_, rfl⟩, ?_⟩
    · cases rest with
      | nil =>
        cases hback
        exact hsort.trans (hkeys t' List.mem_cons_self)
      | cons r rest =>
        cases hback
        exact hkeys _ List.mem_cons_self
    · intro heq
      rw [Index.descend_append] at heq
      refine Index.not_member_contains (x.descend rest) t' ?_
      change (Index.descend (x.descend rest) [t']).Contains _
      rw [← heq]
      exact ⟨rest, rfl⟩
  · exact absurd hc (hby x (.inl ⟨d', s, hmakes⟩) k (List.mem_append_right _ hk))

/-- The certain target of a write to the one member of a container that a way leads to. -/
theorem Unlinked.eq_member_of_mem_must (h : d.Unlinked)
    (hway : d.memory.Walk (p.indexAt level) (p.segments ++ [t]) holders (c.member t))
    (hby : d.Bypasses (p.member t) level holders)
    (hi : i ∈ (d.resolve (p.member t) level).2.must) : i = c.member t := by
  have hmem := h.mem_resolve (p := p.member t) hby.not_wipes (List.prefix_refl _) hway
  exact ((h.resolve (p.member t) level).2.eq_of_mem hi hmem).symm

theorem Unlinked.grows_stored (h : d.Unlinked) (he : e.IsFlat)
    (hmust : ∀ i ∈ (d.resolve p level).2.must, ¬i.Contains j) (force : Bool) :
    Memory.Grows (d.resolve p level).1.memory (d.assign p level e force).memory j := by
  rw [assign_flat d p level he]
  exact (h.resolve p level).1.toFree.grows_storeAll he.isData hmust force

/-- What a write to a path gains, it gains on the way and at the end. -/
theorem Unlinked.grows_assign (h : d.Unlinked) (he : e.IsFlat)
    (hout : ∀ d' s i, d.Makes p level d' s true i → ¬s.Wipes i j)
    (hmust : ∀ i ∈ (d.resolve p level).2.must, ¬i.Contains j) (force : Bool) :
    d.memory.Grows (d.assign p level e force).memory j :=
  (h.grows_resolve hout (List.prefix_refl _)).trans (h.grows_stored he hmust force)

theorem Unlinked.exists_member_of_mem (h : d.Unlinked) (ht : t.isUnknown = false)
    (hi : i ∈ (d.resolve (p.member t) level).2.toList) : ∃ c : Index, i = c.member t := by
  rw [h.resolve_member] at hi
  obtain ⟨k, -, hk⟩ := exists_of_mem_step hi
  obtain ⟨c, -, rfl⟩ := (mem_membersNamed_of_known ht).1 hk
  exact ⟨c, rfl⟩

section
variable (h : d.Unlinked) (he : e.IsFlat) (hsort : t.isField = t'.isField)
  (hway : d.memory.Walk (p.indexAt level) (p.segments ++ [t']) holders (c.member t'))
  (hby : d.Bypasses (p.member t) level holders)
include h hsort hway hby

/-- On the way to the one member only arrays are made for certain, and these lie above the other. -/
theorem Unlinked.not_wipes_beside
    (hj : ∀ d' s i, d.Makes (p.member t) level d' s true i → i ≠ j) :
    ∀ d' s i, d.Makes (p.member t) level d' s true i → ¬s.Wipes i j := by
  intro d' s i hmakes hwipes
  have hkey := (h.straight_of_makes hway hsort hby hmakes).1
  exact hj d' s i hmakes (hwipes.eq_of_key hkey)

theorem Unlinked.eq_target_beside (hi : i ∈ (d.resolve (p.member t) level).2.must) :
    i = c.member t := by
  obtain ⟨_, heq, hother⟩ := hway.exists_container
  cases heq
  exact h.eq_member_of_mem_must (hother t hsort) hby hi

include he

theorem Unlinked.grows_beside
    (hj : ∀ d' s i, d.Makes (p.member t) level d' s true i → i ≠ j)
    (hout : ¬(c.member t).Contains j) (force : Bool) :
    d.memory.Grows (d.assign (p.member t) level e force).memory j :=
  h.grows_assign he (h.not_wipes_beside hsort hway hby hj)
    (fun _ hi => h.eq_target_beside hsort hway hby hi ▸ hout) force

/-- What is not there stays so if no container is made for it on the way. -/
theorem Unlinked.absent_beside (ht : t.isUnknown = false) (hne : t ≠ t')
    (hnone : d.memory.entry? (c.member t') = none)
    (hmade : ∀ d' s certain, ¬d.Makes (p.member t) level d' s certain (c.member t'))
    (force : Bool) :
    (d.assign (p.member t) level e force).memory.entry? (c.member t') = none := by
  have hne' : ∀ d' s i, d.Makes (p.member t) level d' s true i → i ≠ c.member t' := by
    rintro d' s i hmakes rfl
    exact hmade d' s true hmakes
  have hwipes := h.not_wipes_beside hsort hway hby hne'
  have hresolved := h.absent_resolve (p := p.member t) hnone hmade hwipes (List.prefix_refl _)
  rw [assign_flat d _ level he]
  refine ((h.resolve _ level).1.toFree.entry?_storeAll he.isData ?_ ?_ force).trans hresolved
  · rintro i hi rfl
    obtain ⟨_, heq⟩ := h.exists_member_of_mem ht hi
    exact hne (Index.member.inj heq).2.symm
  · intro i hi
    rw [h.eq_target_beside hsort hway hby hi]
    exact Index.not_contains_sibling hne c

/-- What is read at the end of a way that is bypassed can still be read there when another member
is written. An absent member that does not read as undefined must not get a container of its own on
the way; its value is one that the unknown member holds, or its container is not replaced. -/
theorem Unlinked.covers_readIndex_beside (ht : t.isUnknown = false) (ht' : t'.isUnknown = false)
    (hne : t ≠ t') (hv : v ∈ d.memory.readIndex (c.member t'))
    (habsent : v ≠ .undefined → d.memory.entry? (c.member t') = none →
      (∀ d' s certain, ¬d.Makes (p.member t) level d' s certain (c.member t')) ∧
        ((d.memory.fallback (c.member t')).Covers v ∨ ¬d.Overwrites (p.member t) level c))
    (force : Bool) :
    ((d.assign (p.member t) level e force).memory.readIndex (c.member t')).Covers v := by
  have hmade (d' : Draft) (s : Segment) (i : Index)
      (hmakes : d.Makes (p.member t) level d' s true i) :
      i.Contains (c.member t') ∧ i ≠ c.member t' :=
    (h.straight_of_makes hway hsort hby hmakes).2
  refine covers_readIndex_of_grows ?_ ?_ hv ?_
  · exact h.grows_beside he hsort hway hby (fun d' s i hmakes => (hmade d' s i hmakes).2)
      (Index.not_contains_sibling hne c) force
  · intro k hk
    rw [Index.standIn?_member ht'] at hk
    cases hk
    refine h.grows_beside he hsort hway hby ?_
      (Index.not_contains_sibling (Segment.ne_unknownLike ht t') c) force
    rintro d' s i hmakes rfl
    have hlike := Segment.ne_unknownLike ht' t'
    exact Index.not_contains_sibling hlike.symm c (hmade d' s _ hmakes).1
  · intro hdefined hnone
    obtain ⟨hunmade, hkept⟩ := habsent hdefined hnone
    refine ⟨h.absent_beside he hsort hway hby ht hne hnone hunmade force, ?_⟩
    refine hkept.imp_right fun hkept k s heq => ?_
    cases heq
    refine h.grows_beside he hsort hway hby ?_ (Index.not_member_contains c t) force
    rintro d' s i hmakes rfl
    exact hkept (.inl ⟨d', s, hmakes⟩)

end

end Draft
end ScriptMemory
