import ScriptMemory.Proofs.Memory.Confinement
import ScriptMemory.Proofs.Memory.References
import ScriptMemory.Proofs.Memory.Sweep

/-! Complete memory: nothing is defined without an entry, and whatever has an entry is listed by its
container. All that a statement does keeps memory complete, as long as references are made between
variables only; binding anything deeper may leave an alias of a location that is gone. -/
namespace ScriptMemory
open Std Transact

namespace Memory
variable {m n : Memory} {i j t s : Index} {x : Segment} {e : Entry} {k : Nat}

/-- Neat memory in which every location that is defined has an entry. -/
structure Complete (m : Memory) : Prop extends Neat m where
  hasEntries : m.HasEntries

theorem complete_initial : initial.Complete where
  toTidy := tidy_initial
  aliased := by
    intro i j s hs
    rw [aliases_initial] at hs
    cases hs
  hasEntries := by decide

theorem Complete.withLevel (h : m.Complete) (level : Nat) :
    ({ m with level } : Memory).Complete where
  toTidy := tidy_withLevel h.toTidy level
  aliased := h.aliased
  hasEntries := h.hasEntries

/-- A location of complete memory has an entry, and so a container. -/
theorem Complete.hosts_of_isDefined (h : m.Complete) (hi : m.isDefined i = true) : m.Hosts i := by
  obtain ⟨e, he⟩ := Option.isSome_iff_exists.1 (h.hasEntries i hi)
  exact h.hosts he

theorem Complete.mapEntries (h : m.Complete) {f : Index → Entry → Entry}
    (hf : ∀ i (e : Entry), e.Coarsened (f i e)) : (m.mapEntries f).Complete where
  toTidy := tidy_mapEntries h.toTidy hf
  aliased := by
    intro i j s hs
    rw [aliases_mapEntries] at hs
    exact h.aliased i j s hs
  hasEntries := by
    intro i hi
    rw [isDefined_mapEntries] at hi
    rw [entry?_mapEntries, Option.isSome_map]
    exact h.hasEntries i hi

theorem Complete.widen (h : m.Complete) (before : Memory) : (m.widen before).Complete :=
  h.mapEntries (coarsened_widenEntry before)

theorem complete_join {sources : List Memory} (h : ∀ m ∈ sources, m.Complete) (level : Nat) :
    (join sources level).Complete where
  toTidy := tidy_join (fun m hm => ⟨(h m hm).toTidy, (h m hm).hasEntries⟩) level
  aliased := by
    intro i j s hs
    rw [strength?_join] at hs
    split at hs
    · next hany =>
      obtain ⟨m, hm, hc⟩ := List.any_eq_true.1 hany
      obtain ⟨t, ht⟩ := AliasSet.contains_iff.1 hc
      exact (h m hm).aliased i j t ht
    · cases hs
  hasEntries := by
    intro i hi
    rw [entry?_join, if_pos ((isDefined_join sources level i).1 hi)]
    rfl

theorem complete_takenOver {sources : List Memory} (hne : sources ≠ [])
    (h : ∀ m ∈ sources, m.Complete) (limit : Option Nat) : (takenOver limit sources).Complete := by
  unfold takenOver
  split
  · exact h _ List.mem_cons_self
  · apply (complete_join h _).mapEntries
    exact fun _ e => (Entry.writtenAs_getD limit e).coarsened

/-- Closing a frame takes whole variables away. -/
theorem Complete.close {d : Draft} (h : d.memory.Complete) (level : Nat) :
    (d.close level).memory.Complete := by
  have hclosed : (d.memory.discard fun i => i.isRootedAtLevel (level + 1)).Tidy :=
    tidy_discard h.toTidy fun p s _ hp => hp
  have hkept : (d.memory.discard fun i => i.isRootedAtLevel (level + 1)).Complete :=
    { h.discard hclosed with hasEntries := hasEntries_discard h.hasEntries _ }
  exact hkept.withLevel level

theorem hosts_of_isVariable (hi : i.IsVariable) : m.Hosts i := by
  obtain ⟨name, table, rfl⟩ := hi
  exact fun _ => (nomatch ·)

/-- Below a variable everything is a member of something. -/
theorem depth_follow (m : Memory) (use : AliasReach) {p : Path} (hp : p.isVariable = false)
    (level : Nat) : (m.follow use p level).All (1 ≤ ·.depth) := by
  have hne : p.segments ≠ [] := by
    intro hnil
    rw [Path.isVariable, hnil] at hp
    cases hp
  obtain ⟨front, x, hlast⟩ := (List.eq_nil_or_concat p.segments).resolve_left hne
  unfold follow
  rw [hlast, List.concat_eq_append, List.foldl_append]
  exact all_step_of_member (fun c y => Nat.le_add_left 1 c.depth) m _ x

end Memory

namespace Draft
variable {d d' : Draft} {R : Index → Prop} {p : Path} {t s : Index}

theorem Renewed.complete (h : d.Renewed R d') (hd : d.memory.Complete) : d'.memory.Complete where
  toNeat := h.neat
  hasEntries := by
    rw [Memory.hasEntries_iff]
    exact fun i hi => Memory.hasEntries_iff.1 hd.hasEntries i (h.vacant i hi)

/-- What is removed goes with all that lies below it. -/
theorem complete_remove (h : d.memory.Complete) (targets : List Index) :
    (d.memory.remove targets).Complete :=
  { h.discard (Memory.tidy_remove h.toTidy targets) with
    hasEntries := Memory.hasEntries_discard h.hasEntries _ }

/-- Removing what lies below variables or objects does nothing to what does not. -/
theorem renewed_remove (h : d.memory.Complete) {targets : List Index}
    (ht : ∀ i ∈ targets, 1 ≤ i.depth) :
    d.Renewed (1 ≤ ·.depth) (d.update (·.remove targets)) := by
  have hgone : ∀ i, i.depth = 0 →
      (ExtTreeSet.ofList (targets ++ targets.flatMap d.memory.below) : OrdSet Index).contains i =
        false := by
    intro i hi
    rw [← Bool.not_eq_true, Memory.mem_contains_ofList, List.mem_append, List.mem_flatMap]
    rintro (hmem | ⟨x, hx, hbelow⟩)
    · have hle := ht i hmem
      omega
    · obtain ⟨s, -, hc⟩ := h.contains_of_mem_below hbelow
      have hle := ht x hx
      have hle' : x.depth + 1 ≤ i.depth := hc.depth_le
      omega
  refine ⟨(complete_remove h targets).toNeat, rfl, rfl, ?_, ?_, ?_, fun _ => Memory.vacant_discard⟩
  · exact h.aliases_discard fun j hj => hgone j hj.depth_eq
  · exact fun id => (Memory.mem_objects_discard d.memory _ id).2
  · intro i hi
    have hg := hgone i (Nat.lt_one_iff.1 (Nat.not_le.1 hi))
    refine (Memory.entry?_discard ..).trans (if_neg ?_)
    rw [hg]
    exact Bool.false_ne_true

/-- Unsetting a path that is longer than a variable does nothing to variables. -/
theorem renewed_unset (h : d.memory.Complete) (hp : p.isVariable = false) :
    d.Renewed (1 ≤ ·.depth) (d.unset p) := by
  let targets := d.memory.follow .all p d.memory.level
  have hdepth : targets.All (1 ≤ ·.depth) := Memory.depth_follow d.memory .all hp _
  have hremoved := renewed_remove h hdepth.mem_must
  -- the possible ones among them become possibly undefined, as far as they are there
  have hfold : ∀ (is : List Index) (d' : Draft), (∀ i ∈ is, 1 ≤ i.depth) → d'.memory.Complete →
      d'.Renewed (1 ≤ ·.depth) (is.foldl (fun d i =>
        if d.memory.isDefined i then d.store i .undefined [] false else d) d') := by
    intro is
    induction is with
    | nil => exact fun d' _ hd' => .refl hd'.toNeat _
    | cons i is ih =>
      intro d' his hd'
      have hstep : d'.Renewed (1 ≤ ·.depth)
          (if d'.memory.isDefined i then d'.store i .undefined [] false else d') := by
        split
        · next hi =>
          have hundefined := storable_ofValue (m := d'.memory) (v := .undefined) rfl fun _ ho =>
            nomatch ho
          have hstore := renewed_store hd'.toNeat (hd'.hosts_of_isDefined hi) hundefined.isData
            hundefined.introduces hundefined.available false
          exact hstore.mono fun j hj => Nat.le_trans (his i List.mem_cons_self) hj.depth_le
        · exact .refl hd'.toNeat _
      exact hstep.trans (ih _ (fun j hj => his j (List.mem_cons_of_mem i hj)) (hstep.complete hd'))
  exact hremoved.trans (hfold _ _ hdepth.mem_may (hremoved.complete h))

/-- The source of a reference comes into being if it does not exist yet. -/
def referring (d : Draft) (s : Index) : Draft :=
  if d.memory.isDefined s then d else d.store s (.ofValue (.scalar .null)) [] true

theorem renewed_referring (h : d.memory.Neat) (hs : s.IsVariable) :
    d.Renewed s.Contains (d.referring s) := by
  have hnull := storable_ofValue (m := d.memory) (v := .scalar .null) rfl fun _ ho => nomatch ho
  unfold referring
  split
  · exact .refl h _
  · exact renewed_store h (Memory.hosts_of_isVariable hs) hnull.isData hnull.introduces
      hnull.available true

theorem exists_entry_referring (h : d.memory.Complete) (hs : s.IsVariable) :
    ∃ e, (d.referring s).memory.entry? s = some e := by
  have hnull := storable_ofValue (m := d.memory) (v := .scalar .null) rfl fun _ ho => nomatch ho
  unfold referring
  split
  · next hd => exact Option.isSome_iff_exists.1 (h.hasEntries s hd)
  · exact ⟨_, entry?_store h.toNeat (Memory.hosts_of_isVariable hs) hnull.isData hnull.introduces
      hnull.available true⟩

end Draft

namespace Memory
variable {m n : Memory} {t s i : Index}

/-- The memory `n` is `m` after the variables `t` and `s` were linked. If the two are the same,
there is nothing to link. -/
structure Attached (m : Memory) (t s : Index) (n : Memory) : Prop extends Relinked m t s n where
  neat : n.Neat
  level_eq : n.level = m.level
  objects_eq : n.objects = m.objects
  entry?_eq : ∀ i, n.entry? i = m.entry? i
  isDefined : ∀ i, n.isDefined i = true → i = t ∨ i = s ∨ m.isDefined i = true

theorem LinkedTo.attached (hn : m.LinkedTo t s n) (h : m.Neat) (ht : t.IsVariable)
    (hs : s.IsVariable) (hne : t ≠ s) (hl : m.link t s = .ok n) : m.Attached t s n where
  neat.toTidy := h.of_aliases (consistent_link h.toConsistent hl) hn.entry?_eq hn.members_eq
    (objects_link hl)
  neat.aliased := by
    intro i j u hu
    rcases hn.edge hu with ⟨rfl, -⟩ | ⟨rfl, -⟩ | ⟨v, hold⟩
    · exact ht
    · exact hs
    · exact h.aliased i j v hold
  level_eq := hn.level_eq
  objects_eq := objects_link hl
  entry?_eq := hn.entry?_eq
  isDefined := fun i => (hn.isDefined_iff i).1
  aliases_eq := fun heq => absurd heq hne
  strength?_eq := fun _ => hn.strength?_eq

/-- Variables of neat memory can be linked. -/
theorem exists_attached {d : Draft} (h : d.memory.Neat) (ht : t.IsVariable) (hs : s.IsVariable) :
    ∃ n, (Edit.link t s).run d = .ok () (d.update fun _ => n) ∧ d.memory.Attached t s n := by
  obtain ⟨n, hl, hrun, hsame, hlinked⟩ := exists_link h.symmetric t s
  refine ⟨n, hrun, ?_⟩
  by_cases hne : t = s
  · rw [hsame hne]
    exact ⟨⟨fun _ _ => rfl, fun hts => absurd hne hts⟩, h, rfl, rfl, fun _ => rfl,
      fun _ hi => .inr (.inr hi)⟩
  · exact (hlinked hne).attached h ht hs hne hl

end Memory

namespace Draft
variable {d d' : Draft} {target source : Path} {t s : Index}

/-- The draft `d'` is `d`, where the variable `s` exists, after `t` was made a reference to it. -/
structure Bound (d : Draft) (t s : Index) (d' : Draft) : Prop where
  complete : d'.memory.Complete
  limit_eq : d'.limit = d.limit
  level_eq : d'.memory.level = d.memory.level
  relinked : d.memory.Relinked t s d'.memory
  target : ∃ e, d.memory.entry? s = some e ∧ d'.memory.entry? t = some (d.fit
    (placed (d.memory.entryOrUndefined t) t e (!(ArraySource.ofEntry d.memory e).isEmpty) true))
  entry?_eq : ∀ i, ¬t.Contains i → d'.memory.entry? i = d.memory.entry? i

/-- Binding one variable to another never fails on complete memory. -/
theorem exists_bound (h : d.memory.Complete) (htp : target.isVariable = true)
    (hsp : source.isVariable = true) (targetLevel sourceLevel : Nat) :
    ∃ d', (Edit.bindPaths target targetLevel source sourceLevel).run d = .ok () d' ∧
      (d.referring (source.indexAt sourceLevel)).Bound (target.indexAt targetLevel)
        (source.indexAt sourceLevel) d' := by
  have htv := Index.isVariable_indexAt target targetLevel
  have hsv := Index.isVariable_indexAt source sourceLevel
  generalize ht : target.indexAt targetLevel = t at htv
  generalize hs : source.indexAt sourceLevel = s at hsv
  have hcreated := renewed_referring h.toNeat hsv
  have hcomplete := hcreated.complete h
  obtain ⟨e, he⟩ := exists_entry_referring h hsv
  generalize hd : d.referring s = created at hcreated hcomplete he
  obtain ⟨n, hlink, hattached⟩ := Memory.exists_attached hcomplete.toNeat htv hsv
  have hread : (∅ : Entry).join (created.memory.readIndex s) = e := by
    unfold Memory.readIndex
    rw [Entry.empty_join, he]
    rfl
  -- what is stored in the target is what the source holds
  have hstorable : Storable n e (ArraySource.ofEntry created.memory e) :=
    storable_ofEntry hcomplete.toTidy (fun v hv => (hcomplete.held s e he v hv).1)
      (hcomplete.introduces s e he) fun id hid => hattached.objects_eq.symm ▸ hid
  have hhosts : n.Hosts t := Memory.hosts_of_isVariable htv
  let linked : Draft := created.update fun _ => n
  have hstored : linked.Renewed t.Contains
      (linked.store t e (ArraySource.ofEntry created.memory e) true) :=
    renewed_store hattached.neat hhosts hstorable.isData hstorable.introduces
      hstorable.available true
  have hentry := entry?_store (d := linked) hattached.neat hhosts hstorable.isData
    hstorable.introduces hstorable.available true
  refine ⟨_, Memory.bindPaths_run htp hsp ht hs hd hlink, ?_⟩
  rw [hread]
  refine ⟨⟨hstored.neat, ?_⟩, hstored.limit_eq, hstored.level_eq.trans hattached.level_eq,
    hattached.toRelinked.congr (fun _ => rfl) hstored.aliases_eq, ⟨e, he, ?_⟩, ?_⟩
  · -- the two variables have entries, whether they were there before or not
    rw [Memory.hasEntries_iff]
    intro i hi
    obtain ⟨hdefined, hnone⟩ := hstored.vacant i hi
    have hnone : created.memory.entry? i = none := (hattached.entry?_eq i).symm.trans hnone
    rcases hattached.isDefined i hdefined with rfl | rfl | hdefined
    · have hnone := hi.2
      rw [hentry] at hnone
      cases hnone
    · rw [he] at hnone
      cases hnone
    · have hsome := hcomplete.hasEntries i hdefined
      rw [hnone] at hsome
      cases hsome
  · have hold : n.entryOrUndefined t = created.memory.entryOrUndefined t := by
      unfold Memory.entryOrUndefined
      rw [hattached.entry?_eq]
    rw [hentry]
    change some (linked.fit (placed (n.entryOrUndefined t) t e _ true)) = _
    rw [hold]
    rfl
  · exact fun i hi => (hstored.entry?_eq i hi).trans (hattached.entry?_eq i)

end Draft
end ScriptMemory
