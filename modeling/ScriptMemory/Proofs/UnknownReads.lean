import ScriptMemory.Proofs.Certainty
import ScriptMemory.Proofs.Memory.Courses

/-! Reading a member that is not known. What is read is a summary by kind of the members that the
containers list, and it describes whatever is read from one of them when the member is known.
Findings have no place in a summary. -/
namespace ScriptMemory
open Std

/-- The value is more than a lack of one, and it is no finding. -/
def Value.IsProper (v : Value) : Prop :=
  v ≠ .undefined ∧ v.finding? = none

/-- The entry has the value, or its kind, or anything at all. -/
def Entry.SumsUp (e : Entry) (v : Value) : Prop :=
  v ∈ e ∨ (∃ k, v.kind? = some k ∧ .anyOf k ∈ e) ∨ .any ∈ e

namespace Memory

/-- The value is one of those that a summary of the entries rests on. -/
def Summarized (entries : List Entry) (v : Value) : Prop :=
  v.IsProper ∧ ∃ e ∈ entries, v ∈ e

/-- There is one kind that everything summarized is of. -/
def Alike (entries : List Entry) (k : Kind) : Prop :=
  ∀ v, Summarized entries v → v.kind? = some k

variable {entries others : List Entry} {v w : Value}

theorem mapM_kind?_eq_some {values : List Value} {kinds : List Kind} :
    values.mapM Value.kind? = some kinds ↔ values.map Value.kind? = kinds.map some := by
  induction values generalizing kinds with
  | nil => cases kinds <;> simp
  | cons v values ih =>
    rw [List.mapM_cons]
    cases hv : v.kind? with
    | none => cases kinds <;> simp [hv]
    | some k =>
      cases kinds with
      | nil => cases values.mapM Value.kind? <;> simp [hv]
      | cons l kinds =>
        rw [List.map_cons, List.map_cons, hv, List.cons.injEq, Option.some_inj, ← ih]
        cases values.mapM Value.kind? <;> simp

/-- The kind that all of the values have, if there is one, else that there may be anything. -/
def ofKinds (values : List Value) : Entry :=
  match values.mapM Value.kind? with
  | none => .ofValue .any
  | some [] => ∅
  | some (k :: rest) => if rest.all (· = k) then .ofValue (.anyOf k) else .ofValue .any

theorem ofKinds_of_alike {values : List Value} {k : Kind} (hne : values ≠ [])
    (h : ∀ v ∈ values, v.kind? = some k) : ofKinds values = .ofValue (.anyOf k) := by
  obtain ⟨w, rest, rfl⟩ := List.exists_cons_of_ne_nil hne
  have hkinds : (w :: rest).mapM Value.kind? = some (k :: List.replicate rest.length k) := by
    rw [mapM_kind?_eq_some, ← List.replicate_succ, List.map_replicate]
    exact List.map_eq_replicate_iff.2 h
  unfold ofKinds
  rw [hkinds]
  exact if_pos (List.all_eq_true.2 fun l hl => decide_eq_true (List.eq_of_mem_replicate hl))

theorem ofKinds_of_not_alike {values : List Value} (h : ∀ k, ∃ v ∈ values, v.kind? ≠ some k) :
    ofKinds values = .ofValue .any := by
  unfold ofKinds
  split
  · rfl
  · next hkinds =>
    rw [mapM_kind?_eq_some, List.map_nil, List.map_eq_nil_iff] at hkinds
    obtain ⟨v, hv, -⟩ := h .null
    rw [hkinds] at hv
    cases hv
  · next k rest hkinds =>
    refine if_neg fun hall => ?_
    rw [mapM_kind?_eq_some] at hkinds
    obtain ⟨v, hv, hne⟩ := h k
    have hmem := List.mem_map_of_mem (f := Value.kind?) hv
    rw [hkinds, List.mem_map] at hmem
    obtain ⟨l, hl, heq⟩ := hmem
    apply hne
    rcases List.mem_cons.1 hl with rfl | hl
    · exact heq.symm
    · rw [← heq, of_decide_eq_true (List.all_eq_true.1 hall l hl)]

/-- What a summary says of proper values: their kind if they have one in common, else that there may
be anything. -/
theorem mem_summarize (hv : v.IsProper) : v ∈ summarize entries ↔
    (∃ w, Summarized entries w) ∧
      ((∃ k, v = .anyOf k ∧ Alike entries k) ∨ v = .any ∧ ¬∃ k, Alike entries k) := by
  let values := ((entries.flatMap Entry.toList).filter fun v => v.finding?.isNone).filter
    fun v => v ≠ .undefined
  have hvalues (w : Value) : w ∈ values ↔ Summarized entries w := by
    simp only [values, List.mem_filter, List.mem_flatMap, Entry.mem_toList,
      Option.isNone_iff_eq_none, decide_eq_true_eq]
    exact ⟨fun h => ⟨⟨h.2, h.1.2⟩, h.1.1⟩, fun h => ⟨⟨h.2, h.1.2⟩, h.1.1⟩⟩
  have hadded (e : Entry) (b : Bool) : v ∈ (if b then e.insert .undefined else e) ↔ v ∈ e := by
    split
    · rw [Entry.mem_insert_of_not_absorbs (Entry.not_absorbs_of_isSolid Value.undefined_isSolid),
        or_iff_right hv.1]
      exact and_iff_left rfl
    · rfl
  have hkinds : v ∈ summarize entries ↔ v ∈ ofKinds values := hadded _ _
  rw [hkinds]
  by_cases hsome : ∃ w, Summarized entries w
  · rw [and_iff_right hsome]
    obtain ⟨w, hw⟩ := hsome
    by_cases halike : ∃ k, Alike entries k
    · obtain ⟨k, hk⟩ := halike
      have hne := List.ne_nil_of_mem ((hvalues w).2 hw)
      rw [ofKinds_of_alike hne fun u hu => hk u ((hvalues u).1 hu), Entry.mem_ofValue]
      constructor
      · exact fun heq => .inl ⟨k, heq, hk⟩
      · rintro (⟨l, rfl, hl⟩ | ⟨-, hnone⟩)
        · exact congrArg Value.anyOf (Option.some_inj.1 ((hl w hw).symm.trans (hk w hw)))
        · exact absurd ⟨k, hk⟩ hnone
    · rw [ofKinds_of_not_alike fun k => ?_, Entry.mem_ofValue]
      · constructor
        · exact fun heq => .inr ⟨heq, halike⟩
        · rintro (⟨k, -, hk⟩ | ⟨heq, -⟩)
          · exact absurd ⟨k, hk⟩ halike
          · exact heq
      · by_contra hall
        push Not at hall
        exact halike ⟨k, fun u hu => hall u ((hvalues u).2 hu)⟩
  · have hnil : values = [] :=
      List.eq_nil_iff_forall_not_mem.2 fun w hw => hsome ⟨w, (hvalues w).1 hw⟩
    rw [hnil]
    exact iff_of_false Entry.not_mem_empty fun h => hsome h.1

theorem anyOf_mem_or_any_mem_summarize (hv : Summarized entries v) :
    (∃ k, v.kind? = some k ∧ .anyOf k ∈ summarize entries) ∨ .any ∈ summarize entries := by
  have hany : Value.any.IsProper := ⟨by simp, rfl⟩
  have hkind (k : Kind) : (Value.anyOf k).IsProper := ⟨by simp, rfl⟩
  by_cases halike : ∃ k, Alike entries k
  · obtain ⟨k, hk⟩ := halike
    exact .inl ⟨k, hk v hv, (mem_summarize (hkind k)).2 ⟨⟨v, hv⟩, .inl ⟨k, rfl, hk⟩⟩⟩
  · exact .inr ((mem_summarize hany).2 ⟨⟨v, hv⟩, .inr ⟨rfl, halike⟩⟩)

/-- What a summary says of a value: something is summarized, and the value is of the kind that all
of it is of, if there is one. -/
theorem sumsUp_summarize_iff (hv : v.IsProper) : (summarize entries).SumsUp v ↔
    (∃ w, Summarized entries w) ∧ ∀ k, Alike entries k → v.kind? = some k := by
  have hany : Value.any.IsProper := ⟨by simp, rfl⟩
  have hkind (k : Kind) : (Value.anyOf k).IsProper := ⟨by simp, rfl⟩
  constructor
  · have hof {k l : Kind} (hmem : .anyOf k ∈ summarize entries) (hl : Alike entries l) : k = l := by
      obtain ⟨⟨w, hw⟩, ⟨k', heq, hk⟩ | ⟨heq, -⟩⟩ := (mem_summarize (hkind k)).1 hmem
      · cases heq
        exact Option.some_inj.1 ((hk w hw).symm.trans (hl w hw))
      · cases heq
    rintro (hmem | ⟨k, hk, hmem⟩ | hmem)
    · obtain ⟨hsome, ⟨k, rfl, -⟩ | ⟨rfl, hnone⟩⟩ := (mem_summarize hv).1 hmem
      · exact ⟨hsome, fun l hl => congrArg some (hof hmem hl)⟩
      · exact ⟨hsome, fun k hk => absurd ⟨k, hk⟩ hnone⟩
    · refine ⟨((mem_summarize (hkind k)).1 hmem).1, fun l hl => ?_⟩
      rw [hk, hof hmem hl]
    · obtain ⟨hsome, ⟨k, heq, -⟩ | ⟨-, hnone⟩⟩ := (mem_summarize hany).1 hmem
      · cases heq
      · exact ⟨hsome, fun k hk => absurd ⟨k, hk⟩ hnone⟩
  · intro ⟨hsome, hkinds⟩
    by_cases halike : ∃ k, Alike entries k
    · obtain ⟨k, hk⟩ := halike
      exact .inr (.inl ⟨k, hkinds k hk, (mem_summarize (hkind k)).2 ⟨hsome, .inl ⟨k, rfl, hk⟩⟩⟩)
    · exact .inr (.inr ((mem_summarize hany).2 ⟨hsome, .inr ⟨rfl, halike⟩⟩))

/-- A summary of more sums up what a summary of less says. -/
theorem sumsUp_summarize_of_mem (hv : v.IsProper) (hmem : v ∈ summarize entries)
    (h : ∀ w, Summarized entries w → Summarized others w) : (summarize others).SumsUp v := by
  obtain ⟨⟨w, hw⟩, ⟨k, rfl, hk⟩ | ⟨rfl, hnone⟩⟩ := (mem_summarize hv).1 hmem
  · rcases anyOf_mem_or_any_mem_summarize (h w hw) with ⟨l, hl, hkind⟩ | hany
    · obtain rfl := Option.some_inj.1 (hl.symm.trans (hk w hw))
      exact .inl hkind
    · exact .inr (.inr hany)
  · refine .inl ((mem_summarize hv).2 ⟨⟨w, h w hw⟩, .inr ⟨rfl, ?_⟩⟩)
    rintro ⟨k, hk⟩
    exact hnone ⟨k, fun u hu => hk u (h u hu)⟩

variable {m : Memory} {p : Path} {level : Nat} {s : Segment} {i j : Index} {l : Locations}

theorem resolve_member (m : Memory) (p : Path) (level : Nat) (s : Segment) :
    m.resolve (p.member s) level = m.expand .must (m.step (m.resolve p level) s) := by
  have hfollow : m.follow .must (p.member s) level =
      m.step (m.expand .must (m.follow .must p level)) s :=
    List.foldl_append
  unfold resolve
  rw [hfollow]

theorem unknown_resolve_member (m : Memory) (p : Path) (level : Nat) (s : Segment) :
    (m.resolve (p.member s) level).unknown =
      (p.segments.any Segment.isUnknown || s.isUnknown) := by
  refine (tracks_expand (m.tracks_follow .must (p.member s) level) m .must).unknown_eq.trans ?_
  change (p.segments ++ [s]).any Segment.isUnknown = _
  rw [List.any_append, List.any_cons, List.any_nil, Bool.or_false]

/-- An unknown segment leads to every member that it names, and on to no aliases. -/
theorem mem_resolve_unknown (hs : s.isUnknown = true) :
    j ∈ (m.resolve (p.member s) level).toList ↔
      ∃ i ∈ (m.resolve p level).toList, j ∈ m.membersNamed i s := by
  have htracks := tracks_step (tracks_expand (m.tracks_follow .must p level) m .must) m s
  have hunknown : (m.step (m.resolve p level) s).unknown = true := Bool.or_eq_true_iff.2 (.inr hs)
  have hmust : ∀ i, i ∉ (m.step (m.resolve p level) s).must := htracks.cautious hunknown
  have hexpanded : ∀ i, i ∉ (m.expand .must (m.step (m.resolve p level) s)).must :=
    (tracks_expand htracks m .must).cautious hunknown
  rw [resolve_member, Locations.mem_toList, or_iff_right (hexpanded j)]
  change j ∈ (m.step (m.resolve p level) s).may \
    (m.expand .must (m.step (m.resolve p level) s)).must ↔ _
  rw [ExtTreeSet.mem_diff_iff, and_iff_left (hexpanded j)]
  have hmay : (m.step (m.resolve p level) s).may = (ExtTreeSet.ofList
      ((m.resolve p level).toList.flatMap fun i => m.membersNamed i s) : OrdSet Index) \
        (m.step (m.resolve p level) s).must := rfl
  rw [hmay, ExtTreeSet.mem_diff_iff, and_iff_left (hmust j), OrdSet.mem_ofList, List.mem_flatMap]

/-- A container that a path leads to, for looking up a segment. -/
def IsContainer (m : Memory) (p : Path) (level : Nat) (s : Segment) (c : Index) : Prop :=
  ∃ i ∈ (m.resolve p level).toList, c ∈ m.containersOf i s

/-- A value is held below a path if it is read at a member that a container lists, or at the
unknown one. An unknown member that was never written does not count. -/
def HeldBelow (m : Memory) (p : Path) (level : Nat) (s : Segment) (v : Value) : Prop :=
  v.IsProper ∧ ∃ c, m.IsContainer p level s c ∧ ∃ j,
    (j ∈ m.membersOf c s.isField ∨ j = c.member s.unknownLike) ∧
      (m.isDefined j || !j.isUnknownMember) = true ∧ v ∈ m.readIndex j

/-- Why a value that is read at a location of the member `s` need not be held below the path. -/
inductive LeftOut (m : Memory) (p : Path) (level : Nat) (s : Segment) : Index → Value → Prop
  /-- The member is absent, and its container may be anything. -/
  | absent {c : Index} (hc : m.IsContainer p level s c) (hnone : m.entry? (c.member s) = none)
      (hbelow : m.isBelowOpaque (c.member s) = true) : LeftOut m p level s (c.member s) .any
  /-- The member was written while its container had no array, so nothing lists it. -/
  | unlisted {c : Index} {e : Entry} {v : Value} (hc : m.IsContainer p level s c)
      (he : m.entry? (c.member s) = some e) (hv : v ∈ e)
      (hlisted : c.member s ∉ m.membersOf c s.isField) : LeftOut m p level s (c.member s) v
  /-- The location is a certain alias of the member, and none of the members itself. -/
  | aliased {c i : Index} {v : Value} (hc : m.IsContainer p level s c)
      (hlink : m.MustLinked (c.member s) i)
      (hother : ∀ d, m.IsContainer p level s d → i ≠ d.member s) (hv : v ∈ m.readIndex i) :
      LeftOut m p level s i v

theorem isField_unknownLike (s : Segment) : s.unknownLike.isField = s.isField := by
  cases s <;> rfl

theorem isUnknown_unknownLike (s : Segment) : s.unknownLike.isUnknown = true := by
  cases s <;> rfl

theorem containersOf_unknownLike (m : Memory) (i : Index) (s : Segment) :
    m.containersOf i s.unknownLike = m.containersOf i s := by
  unfold containersOf
  rw [isField_unknownLike]

/-- What a summary of the member rests on. -/
def sampled (m : Memory) (p : Path) (level : Nat) (s : Segment) : List Entry :=
  ((m.resolve (p.member s) level).toList.filter fun i =>
    m.isDefined i || !i.isUnknownMember).map m.readIndex

/-- Reading an unknown member gives the summary. -/
theorem readAt_eq_summarize (hs : s.isUnknown = true) :
    m.readAt (p.member s) level = summarize (m.sampled p level s) := by
  unfold readAt readLocations sampled
  rw [unknown_resolve_member, hs, Bool.or_true, if_pos rfl]
  split
  · next hempty =>
    have hnil : (m.resolve (p.member s) level).toList = [] :=
      List.eq_nil_iff_forall_not_mem.2 fun i hi => Locations.not_isEmpty_of_mem hi hempty
    rw [hnil]
    rfl
  · rfl

/-- The summary of an unknown member rests on what is held below the path. -/
theorem summarized_sampled_unknownLike :
    Summarized (m.sampled p level s.unknownLike) v ↔ m.HeldBelow p level s v := by
  have hnamed (i j : Index) : j ∈ m.membersNamed i s.unknownLike ↔ ∃ c ∈ m.containersOf i s,
      j ∈ m.membersOf c s.isField ∨ j = c.member s.unknownLike := by
    unfold membersNamed
    simp only [containersOf_unknownLike, isUnknown_unknownLike, isField_unknownLike, if_true,
      List.mem_flatMap, List.mem_append, List.mem_singleton]
  unfold Summarized sampled HeldBelow
  apply and_congr_right
  intro _
  constructor
  · intro ⟨e, he, hv⟩
    obtain ⟨j, hj, rfl⟩ := List.mem_map.1 he
    obtain ⟨hj, hcounts⟩ := List.mem_filter.1 hj
    obtain ⟨i, hi, hj⟩ := (mem_resolve_unknown (isUnknown_unknownLike s)).1 hj
    obtain ⟨c, hc, hj⟩ := (hnamed i j).1 hj
    exact ⟨c, ⟨i, hi, hc⟩, j, hj, hcounts, hv⟩
  · intro ⟨c, ⟨i, hi, hc⟩, j, hj, hcounts, hv⟩
    have hmem : j ∈ (m.resolve (p.member s.unknownLike) level).toList :=
      (mem_resolve_unknown (isUnknown_unknownLike s)).2 ⟨i, hi, (hnamed i j).2 ⟨c, hc, hj⟩⟩
    exact ⟨_, List.mem_map.2 ⟨j, List.mem_filter.2 ⟨hmem, hcounts⟩, rfl⟩, hv⟩

/-- A proper value that is read is read at a location, or it is a summary. -/
theorem mem_readAt (hv : v.IsProper) (hmem : v ∈ m.readAt (p.member s) level) :
    (p.segments.any Segment.isUnknown || s.isUnknown) = false ∧
        (∃ i ∈ (m.resolve (p.member s) level).toList, v ∈ m.readIndex i) ∨
      (p.segments.any Segment.isUnknown || s.isUnknown) = true ∧
        v ∈ summarize (m.sampled p level s) := by
  rw [← unknown_resolve_member m p level s]
  unfold readAt readLocations at hmem
  split at hmem
  · exact absurd (Entry.mem_ofValue.1 hmem) hv.1
  · split at hmem
    · next hunknown => exact .inr ⟨hunknown, hmem⟩
    · next hknown =>
      obtain ⟨e, he, hve⟩ := (Entry.exists_mem_of_mem_foldl_join hmem).resolve_left
        Entry.not_mem_empty
      obtain ⟨i, hi, rfl⟩ := List.mem_map.1 he
      exact .inl ⟨Bool.eq_false_iff.2 hknown, i, hi, hve⟩

/-- The members that a known segment names are those of the containers. -/
theorem mem_step_known (hs : s.isUnknown = false) :
    j ∈ (m.step (m.resolve p level) s).toList ↔
      ∃ c, m.IsContainer p level s c ∧ j = c.member s := by
  constructor
  · intro hj
    obtain ⟨i, hi, hj⟩ := exists_of_mem_step hj
    obtain ⟨c, hc, rfl⟩ := (mem_membersNamed_of_known hs).1 hj
    exact ⟨c, ⟨i, hi, hc⟩, rfl⟩
  · intro ⟨c, ⟨i, hi, hc⟩, heq⟩
    exact mem_step_of_mem hi ((mem_membersNamed_of_known hs).2 ⟨c, hc, heq⟩)

/-- A known member is one of a container, or certain aliases lead from one to it. -/
theorem mem_resolve_known (hs : s.isUnknown = false)
    (hi : i ∈ (m.resolve (p.member s) level).toList) :
    ∃ c, m.IsContainer p level s c ∧ m.MustLinked (c.member s) i := by
  rw [resolve_member] at hi
  obtain ⟨j, hj, hlink⟩ :
      ∃ j ∈ (m.step (m.resolve p level) s).toList, m.MustLinked j i := by
    rcases Locations.mem_toList.1 hi with hmust | hmay
    · obtain ⟨j, hj, hlink⟩ := mem_must_expand.1 hmust
      exact ⟨j, Locations.mem_toList.2 (.inl hj), hlink⟩
    · exact ⟨i, Locations.mem_toList.2 (.inr (ExtTreeSet.mem_diff_iff.1 hmay).1), .refl⟩
  obtain ⟨c, hc, rfl⟩ := (mem_step_known hs).1 hj
  exact ⟨c, hc, hlink⟩

/-- The value of an entry, if it is more than a lack of one, was written. -/
theorem exists_entry_of_mem (hv : v.IsProper) (hmem : v ∈ m.entryOrUndefined j) :
    ∃ e, m.entry? j = some e ∧ v ∈ e := by
  cases he : m.entry? j with
  | some e => exact ⟨e, rfl, by rwa [entryOrUndefined_of_some he] at hmem⟩
  | none =>
    rw [entryOrUndefined_of_none he] at hmem
    exact absurd (Entry.mem_ofValue.1 hmem) hv.1

theorem heldBelow_of_entry {c : Index} {e : Entry} (hv : v.IsProper)
    (hc : m.IsContainer p level s c)
    (hj : j ∈ m.membersOf c s.isField ∨ j = c.member s.unknownLike) (he : m.entry? j = some e)
    (hmem : v ∈ e) : m.HeldBelow p level s v := by
  refine ⟨hv, c, hc, j, hj, ?_, ?_⟩
  · have hdefined := isDefined_of_entry? he
    rw [hdefined, Bool.true_or]
  · rwa [readIndex_of_some he]

/-- What is read at a known member is held below the path, unless one of three reasons is why it is
left out. -/
theorem heldBelow_or_leftOut (hs : s.isUnknown = false) (hv : v.IsProper)
    (hi : i ∈ (m.resolve (p.member s) level).toList) (hmem : v ∈ m.readIndex i) :
    m.HeldBelow p level s v ∨ m.LeftOut p level s i v := by
  by_cases hnamed : ∃ c, m.IsContainer p level s c ∧ i = c.member s
  · obtain ⟨c, hc, rfl⟩ := hnamed
    cases he : m.entry? (c.member s) with
    | some e =>
      rw [readIndex_of_some he] at hmem
      by_cases hlisted : c.member s ∈ m.membersOf c s.isField
      · exact .inl (heldBelow_of_entry hv hc (.inl hlisted) he hmem)
      · exact .inr (.unlisted hc he hmem hlisted)
    | none =>
      -- the unknown member stands in, and a container that may be anything adds to it
      have hfallback (h : v ∈ m.entryOrUndefined (c.member s.unknownLike)) :
          m.HeldBelow p level s v := by
        obtain ⟨e, he, hve⟩ := exists_entry_of_mem hv h
        exact heldBelow_of_entry hv hc (.inr rfl) he hve
      rw [readIndex_of_none he] at hmem
      unfold readAbsent at hmem
      simp only [hs, Bool.false_eq_true, if_false] at hmem
      split at hmem
      · next hbelow =>
        rcases Entry.eq_or_mem_of_mem_insert hmem with rfl | hmem
        · exact .inr (.absent hc he hbelow)
        · exact .inl (hfallback hmem)
      · exact .inl (hfallback hmem)
  · obtain ⟨c, hc, hlink⟩ := mem_resolve_known hs hi
    exact .inr (.aliased hc hlink (fun d hd heq => hnamed ⟨d, hd, heq⟩) hmem)

/-- An absent member of a container that may be anything reads as anything. -/
theorem any_mem_readAt_absent {c : Index} (hs : s.isUnknown = false)
    (hc : m.IsContainer p level s c) (hnone : m.entry? (c.member s) = none)
    (hbelow : m.isBelowOpaque (c.member s) = true) : .any ∈ m.readAt (p.member s) level := by
  have hmem : c.member s ∈ (m.resolve (p.member s) level).toList := by
    rw [resolve_member]
    exact mem_expand_of_mem ((mem_step_known hs).2 ⟨c, hc, rfl⟩) .must
  have hany : .any ∈ m.readIndex (c.member s) := by
    rw [readIndex_of_none hnone]
    unfold readAbsent
    rw [if_pos hbelow]
    exact (Entry.mem_insert_iff_of_isSolid Value.any_isSolid).2 (.inl rfl)
  have hknown : (c.member s).isUnknownMember = false := hs
  exact any_mem_readLocations hmem hany (by rw [hknown, Bool.not_false, Bool.or_true])

/-- Everything that is held below a path is of one kind. -/
def HeldAlike (m : Memory) (p : Path) (level : Nat) (s : Segment) (k : Kind) : Prop :=
  ∀ v, m.HeldBelow p level s v → v.kind? = some k

/-- What the read of an unknown member says of a value: something must be held below the path, and
the value has to be of the kind that all of it is of, if there is one. -/
theorem sumsUp_readAt_iff (hv : v.IsProper) :
    (m.readAt (p.member s.unknownLike) level).SumsUp v ↔
      (∃ w, m.HeldBelow p level s w) ∧ ∀ k, m.HeldAlike p level s k → v.kind? = some k := by
  rw [readAt_eq_summarize (isUnknown_unknownLike s), sumsUp_summarize_iff hv]
  unfold Alike HeldAlike
  simp only [summarized_sampled_unknownLike]

theorem HeldBelow.sumsUp (h : m.HeldBelow p level s v) :
    (m.readAt (p.member s.unknownLike) level).SumsUp v :=
  (sumsUp_readAt_iff h.1).2 ⟨⟨v, h⟩, fun _ hk => hk v h⟩

end Memory

namespace Snapshot
open Memory
variable {p : Path} {t : Segment}

/-- The read of an unknown member and the read of a known one. A proper value of the known read is
described by the unknown one exactly if something is held below the path and all of it being of one
kind makes the value one of that kind. It is described unless it rests on something that is left
out: an absent member of a container that may be anything, a member that nothing lists, or an alias
of the member. A container that may be anything makes its absent members anything, which the
unknown read matches only where values of several kinds are held. -/
theorem unknown_read_covers_known (s : Snapshot) (ht : t.isUnknown = false) :
    let m := s.memory
    (∀ v ∈ m.read (p.member t), v.IsProper →
      ((m.read (p.member t.unknownLike)).SumsUp v ↔ (∃ w, m.HeldBelow p m.level t w) ∧
        ∀ k, m.HeldAlike p m.level t k → v.kind? = some k) ∧
      ((m.read (p.member t.unknownLike)).SumsUp v ∨
        ∃ i ∈ (m.resolve (p.member t) m.level).toList, ∃ w ∈ m.readIndex i, w.IsProper ∧
          (w = v ∨ p.segments.any Segment.isUnknown = true) ∧ m.LeftOut p m.level t i w)) ∧
    ∀ c, m.IsContainer p m.level t c → m.entry? (c.member t) = none →
      m.isBelowOpaque (c.member t) = true → .any ∈ m.read (p.member t) ∧
        (.any ∈ m.read (p.member t.unknownLike) ↔
          (∃ w, m.HeldBelow p m.level t w) ∧ ¬∃ k, m.HeldAlike p m.level t k) := by
  intro m
  refine ⟨fun v hmem hv => ⟨sumsUp_readAt_iff hv, ?_⟩, fun c hc hnone hbelow => ⟨?_, ?_⟩⟩
  · rw [or_iff_not_imp_right]
    intro hnone
    have hheld {w : Value} (hw : w.IsProper) (hrests : w = v ∨ p.segments.any _ = true) {i : Index}
        (hi : i ∈ (m.resolve (p.member t) m.level).toList) (hwi : w ∈ m.readIndex i) :
        m.HeldBelow p m.level t w :=
      (heldBelow_or_leftOut ht hw hi hwi).resolve_right fun h =>
        hnone ⟨i, hi, w, hwi, hw, hrests, h⟩
    rcases mem_readAt hv hmem with ⟨-, i, hi, hvi⟩ | ⟨hunknown, hsummary⟩
    · exact (hheld hv (.inl rfl) hi hvi).sumsUp
    · -- the path itself crosses an unknown segment, so the known read is a summary, too
      rw [ht, Bool.or_false] at hunknown
      have hsub (w : Value) (hw : Summarized (m.sampled p m.level t) w) :
          Summarized (m.sampled p m.level t.unknownLike) w := by
        obtain ⟨hproper, e, he, hwe⟩ := hw
        obtain ⟨i, hi, rfl⟩ := List.mem_map.1 he
        exact summarized_sampled_unknownLike.2
          (hheld hproper (.inr hunknown) (List.mem_filter.1 hi).1 hwe)
      unfold Memory.read
      rw [readAt_eq_summarize (isUnknown_unknownLike t)]
      exact sumsUp_summarize_of_mem hv hsummary hsub
  · exact any_mem_readAt_absent ht hc hnone hbelow
  · have hany : Value.any.IsProper := ⟨by simp, rfl⟩
    calc .any ∈ m.read (p.member t.unknownLike)
      _ ↔ (m.read (p.member t.unknownLike)).SumsUp .any :=
        ⟨.inl, fun h => h.elim id fun h => h.elim (fun ⟨_, hk, _⟩ => nomatch hk) id⟩
      _ ↔ (∃ w, m.HeldBelow p m.level t w) ∧ ∀ k, m.HeldAlike p m.level t k →
          Value.any.kind? = some k := sumsUp_readAt_iff hany
      _ ↔ (∃ w, m.HeldBelow p m.level t w) ∧ ¬∃ k, m.HeldAlike p m.level t k :=
        and_congr_right fun _ => ⟨fun h ⟨k, hk⟩ => (nomatch h k hk), fun h k hk => absurd ⟨k, hk⟩ h⟩

set_option maxRecDepth 20000 in
/-- An array of two members. What one of them holds is held below the array, and described when the
member is not known. -/
theorem unknown_read_covers_known_element :
    let a : Path := .ofVariable "a"
    let one : Segment := .key (.integer 1)
    let two : Segment := .key (.integer 2)
    let five : Value := .scalar (.integer 5)
    let ops : List Operation := [.start, .change (.assign (a.member one) (.ofValue five) false),
      .change (.assign (a.member two) (.ofValue (.scalar (.integer 7))) false)]
    let s := ops.foldl after {}
    Reachable s ∧ five ∈ s.memory.read (a.member one) ∧
      (s.memory.read (a.member one.unknownLike)).SumsUp five := by
  intro a one two five ops s
  have hs : Reachable s := (Reachable.blank {}).foldl
    (by simp [ops, Operation.sources, Mutation.sources])
  have hmem : five ∈ s.memory.read (a.member one) := Entry.contains_eq_true.1 (by decide +kernel)
  have hproper : five.IsProper := ⟨by decide, rfl⟩
  have hheld : s.memory.HeldBelow a s.memory.level one five :=
    ⟨hproper, .ofVariable "a" .global, ⟨.ofVariable "a" .global, by decide +kernel,
      by decide +kernel⟩, (Index.ofVariable "a" .global).member one, .inl (by decide +kernel),
      by decide +kernel, Entry.contains_eq_true.1 (by decide +kernel)⟩
  have hiff := ((unknown_read_covers_known s (by decide)).1 five hmem hproper).1
  exact ⟨hs, hmem, hiff.2 ⟨⟨five, hheld⟩, fun k hk => hk five hheld⟩⟩

set_option maxRecDepth 20000 in
/-- Each of the three reasons takes something out of the read of an unknown member: a variable that
may be anything, a member that was written where there is no array, and an alias of a member. -/
theorem unknown_read_leaves_out :
    let one : Segment := .key (.integer 1)
    let member (name : String) : Path := (Path.ofVariable name).member one
    let unknown (name : String) : Path := (Path.ofVariable name).member .unknownKey
    let text : Value := .scalar (.string "s")
    let ops : List Operation := [.start, .change (.assign (.ofVariable "a") (.ofValue .any) false),
      .change (.assignIndex ((Index.ofVariable "d" .global).member one) (.ofValue text) true),
      .change (.assign (member "b") (.ofValue (.scalar (.integer 1))) false),
      .change (.assign (.ofVariable "c") (.ofValue text) false),
      .change (.createAlias ((Index.ofVariable "b" .global).member one) (.ofVariable "c" .global))]
    let s := ops.foldl after {}
    Reachable s ∧ s.memory.read (member "a") = .ofList [.undefined, .any] ∧
      s.memory.read (unknown "a") = .undefined ∧ ¬(s.memory.read (unknown "a")).SumsUp .any ∧
      s.memory.read (member "d") = .ofValue text ∧ s.memory.read (unknown "d") = .undefined ∧
      s.memory.read (member "b") = .ofList [.scalar (.integer 1), text] ∧
      s.memory.read (unknown "b") = .ofValue (.anyOf .integer) := by
  intro one member unknown text ops s
  have ha : s.memory.read (unknown "a") = .undefined := by decide +kernel
  refine ⟨(Reachable.blank {}).foldl (by simp [ops, Operation.sources, Mutation.sources]),
    by decide +kernel, ha, ?_, by decide +kernel, by decide +kernel, by decide +kernel,
    by decide +kernel⟩
  rw [ha]
  rintro (hmem | ⟨k, hk, -⟩ | hmem)
  · exact absurd (Entry.mem_ofValue.1 hmem) (by decide)
  · cases hk
  · exact absurd (Entry.mem_ofValue.1 hmem) (by decide)

end Snapshot
end ScriptMemory
