import ScriptMemory.Proofs.Analysis.Completeness
import ScriptMemory.Proofs.Memory.Guarded

/-! What every snapshot of a run keeps to: the limit of simplification, and the doubt about unknown
members. The limit is kept by every program; the doubt is lost where a reference is made to an
unknown member, and only there. -/
namespace ScriptMemory
open Std Transact

namespace Analysis
variable {a : Analysis} {U : Segment → Prop} {limits : Limits} {level : Nat}

/-- An edit that keeps drafts guarded keeps memory guarded in every transaction. -/
theorem leads_mutate_guarded {edit : Edit α} {Q : α → Prop} (kind : Statistic)
    (h : Edit.Sustains (Draft.Guarded limits.simplify U level) edit Q) :
    Leads limits (Memory.Guarded limits.simplify U level) (Snapshot.mutate kind edit)
      fun x m => m.Guarded limits.simplify U level ∧ Q x := by
  apply Leads.mutate
  intro d hd hm
  obtain ⟨x, d', hrun, hd', hx⟩ := h d ⟨hd, hm⟩
  exact ⟨x, d', hrun, hd'.memory, hx⟩

section
variable (hU : ∀ s, U s → s.isUnknown = true)
include hU

/-- Guarded memory withstands every statement whose references avoid `U`. -/
theorem upkeep_guarded (limits : Limits) (level : Nat) :
    Memory.Upkeep limits (fun _ => Entry.IsData)
      (fun target source => target.Avoids U ∧ source.Avoids U)
      (fun _ => True) (Memory.Guarded limits.simplify U level) where
  fresh := fun _ he v hv => (he v hv).isReference
  read := fun h p k => Memory.isData_readAt h.isData p k
  report := by
    rintro e f - m ⟨hm, he⟩
    obtain ⟨u, n, hy, hn, -⟩ := leads_mutate_guarded _ (Edit.sustains_report f) m hm
    exact ⟨u, n, hy, hn, he⟩
  createObject := by
    intro className site fields hf m hm
    have hdata : ∀ x ∈ fields, x.2.IsData := by
      intro x hx
      obtain ⟨s, hs⟩ := hf x hx
      rw [hs]
      exact Entry.all_ofValue rfl
    obtain ⟨o, n, hy, hn, -⟩ := leads_mutate_guarded _
      (Edit.sustains_createObject hU className site hdata) m hm
    exact ⟨o, n, hy, hn, Entry.all_ofValue rfl⟩
  assign := by
    rintro p e force m ⟨hm, he⟩
    obtain ⟨u, n, hy, hn, -⟩ := leads_mutate_guarded _ (Edit.sustains_assign hU p he force) m hm
    exact ⟨u, n, hy, hn⟩
  assignReturn := by
    rintro e m ⟨hm, he⟩
    obtain ⟨u, n, hy, hn, -⟩ := leads_mutate_guarded .assign
      (Edit.sustains_assignIndex he true (Index.avoids_root (.returnSlot m.level))) m hm
    exact ⟨u, n, Yields.get_bind (fun s t h => by simp only [h]) hy, hn⟩
  assignAlias := by
    rintro target source ⟨ht, hs⟩
    exact (leads_mutate_guarded _ (Edit.sustains_assignAlias hU ht hs)).mono (fun _ h => h)
      fun _ _ h => h.1
  unset := fun p _ => (leads_mutate_guarded _ (Edit.Sustains.modify fun d h => h.unset p)).mono
    (fun _ h => h) fun _ _ h => h.1

/-- The guard is handed on from point to point. -/
theorem inherited_guarded
    (hR : a.program.Refers fun target source => target.Avoids U ∧ source.Avoids U) :
    a.Inherited fun k => Memory.Guarded a.config.limits.simplify U k where
  initial := Memory.Guarded.initial
  level_eq := fun h => h.level_eq
  join := Memory.guarded_takenOver
  enter := fun h => h.withLevel _
  bind := by
    intro s id c k hs hc
    have hupkeep := upkeep_guarded hU a.config.limits (k + 1)
    apply leads_bindAll hupkeep.toWithstands
    · exact fun x _ e => hupkeep.assign _ e true
    · -- arguments by reference are references of the program too
      intro x hx source hby hread
      obtain ⟨ht, hsource⟩ := refers_bindings hR hs hc x hx source hby hread
      exact (leads_mutate_guarded _ (Edit.sustains_bindReference hU ht hsource)).mono
        (fun _ h => h) fun _ _ h => h.1
  leave := by
    intro k d hd hlimit result
    -- the level of the call is discarded first, then the caller's is written to
    have hclosed : (d.close k).Guarded a.config.limits.simplify U k :=
      ⟨hlimit, (hd.discard _).withLevel k⟩
    have hreturned := (Memory.isData_readIndex hd.isData (.returnSlot (k + 1))).returned
    exact (hclosed.storeResult hU k result hreturned (ArraySource.guarded_ofEntry hd _)).memory
  apply := by
    intro s p c st target k hs hsite
    apply leads_apply (upkeep_guarded hU a.config.limits k)
    · rintro path source rfl
      obtain ⟨name, hname⟩ := hs.function hsite.context
      exact hR.assignAlias hname hsite.statement
    · exact fun _ _ => trivial

/-- Where references avoid `U`, every snapshot of a run that succeeds is guarded. -/
theorem run_guarded (hp : a.program.IsBuilt)
    (hR : a.program.Refers fun target source => target.Avoids U ∧ source.Avoids U)
    {nodes : List Nat} {r : Report} (h : a.run (.ofNodes nodes) = .ok r) {p : Point} {t : Snapshot}
    (ht : r.snapshots[p]? = some t) :
    t.memory.Guarded a.config.limits.simplify U t.memory.level :=
  (inherited_guarded hU hR).run (fun before hm => hm.widen before) hp
    (Worklist.consistent_ofNodes nodes) h ht

end
end Analysis

namespace Path

/-- The path does not end in an unknown segment. -/
def endsKnown (p : Path) : Bool :=
  p.segments.getLast?.all fun s => !s.isUnknown

theorem avoids_of_endsKnown {p : Path} (h : p.endsKnown = true) :
    p.Avoids fun s => s.isUnknown = true := by
  refine .inl fun s hs => ?_
  unfold endsKnown at h
  rw [hs] at h
  exact (Bool.not_eq_eq_eq_not ..).1 h

end Path

namespace Sample

/-- A script that sets `x` to one of two numbers. -/
def choosing : Graph where
  nodes := [⟨0, .branch .any⟩, ⟨1, .assign (.ofVariable "x") (.literal (.integer 1))⟩,
    ⟨2, .assign (.ofVariable "x") (.literal (.integer 2))⟩, ⟨3, .exit⟩]
  edges := [(0, 1), (0, 2), (1, 3), (2, 3)]
  entry := 0
  exit := 3

/-- The analysis of that script with room for one number. -/
def narrow : Analysis where
  program := Program.withFunction {} ⟨"main", [], choosing⟩
  config := { limits := { simplify := some 1 } }

theorem isBuilt_narrow : narrow.program.IsBuilt :=
  Program.isBuilt_empty.withFunction
    ⟨{ nodes := choosing.nodes, edges := [(0, 1), (0, 2), (1, 3), (2, 3)] }, rfl⟩

/-- Some member of the array `a`. -/
def someElement : Path :=
  (Path.ofVariable "a").member .unknownKey

/-- A script that writes an unknown element of an array, and then a known one by a reference. -/
def fillingOpen : Graph where
  nodes := [⟨0, .assign someElement (.literal (.integer 1))⟩,
    ⟨1, .assignAlias (.ofVariable "x") ((Path.ofVariable "a").member (.key (.integer 1)))⟩,
    ⟨2, .assign (.ofVariable "x") (.literal (.integer 5))⟩, ⟨3, .exit⟩]
  edges := [(0, 1), (1, 2), (2, 3)]
  entry := 0
  exit := 3

def doubting : Analysis where
  program := Program.withFunction {} ⟨"main", [], fillingOpen⟩

theorem isBuilt_doubting : doubting.program.IsBuilt :=
  Program.isBuilt_empty.withFunction
    ⟨{ nodes := fillingOpen.nodes, edges := [(0, 1), (1, 2), (2, 3)] }, rfl⟩

/-- A script that writes an unknown element of an array by a reference. -/
def settling : Graph where
  nodes := [⟨0, .assignAlias (.ofVariable "x") someElement⟩,
    ⟨1, .assign (.ofVariable "x") (.literal (.integer 5))⟩, ⟨2, .exit⟩]
  edges := [(0, 1), (1, 2)]
  entry := 0
  exit := 2

def settled : Analysis where
  program := Program.withFunction {} ⟨"main", [], settling⟩

theorem isBuilt_settled : settled.program.IsBuilt :=
  Program.isBuilt_empty.withFunction ⟨{ nodes := settling.nodes, edges := [(0, 1), (1, 2)] }, rfl⟩

/-- The member of the global array `a` under a segment. -/
def element (s : Segment) : Index :=
  (Index.ofVariable "a" .global).member s

end Sample

namespace Analysis
variable {a : Analysis} {r : Report} {nodes : List Nat}

/-- No entry of any snapshot holds more scalars and intervals than the limit allows. An entry is
simplified just when it is over the limit, and then every scalar and interval is folded into its
kind while all else stays. -/
theorem run_withinLimit (hp : a.program.IsBuilt) {most : Nat}
    (hmost : a.config.limits.simplify = some most) (h : a.run (.ofNodes nodes) = .ok r) :
    (∀ (p : Point) t, r.snapshots[p]? = some t →
      ∀ i e, t.memory.entry? i = some e → e.simplifiableCount ≤ most) ∧
    ∀ (limit : Nat) (e : Entry), ((∃ f, e.simplify? limit = some f) ↔ limit < e.simplifiableCount) ∧
      ∀ f, e.simplify? limit = some f → e.FoldsTo f := by
  refine ⟨fun p t ht i e he => ?_, fun limit e =>
    ⟨Entry.exists_simplify_iff, fun f => Entry.foldsTo_of_simplify⟩⟩
  -- no segment is singled out, so every reference is allowed
  have hguarded := run_guarded (U := fun _ => False) (fun _ h => h.elim) hp
    ⟨fun _ _ => ⟨.inr fun _ => id, .inr fun _ => id⟩,
      fun _ _ _ _ _ _ _ _ => ⟨.inr fun _ => id, .inr fun _ => id⟩⟩ h ht
  exact Entry.fits_iff.1 (hguarded.allowed i e he).fits most hmost

set_option maxRecDepth 20000 in
/-- Where two numbers meet and there is room for one, their kind takes their place. -/
theorem run_withinLimit_narrow : ∃ r t e, Sample.narrow.run (.ofNodes []) = .ok r ∧
    r.snapshots[Point.mk .main 3]? = some t ∧
    t.memory.entry? (.ofVariable "x" .global) = some e ∧ e = .ofValue (.anyOf .integer) ∧
    e.simplifiableCount ≤ 1 := by
  obtain ⟨r, t, hr, ht, he⟩ := exists_of_run (a := Sample.narrow) (w := .ofNodes [])
    (p := ⟨.main, 3⟩) (f := fun t => t.memory.entry? (.ofVariable "x" .global))
    (x := some (.ofValue (.anyOf .integer))) (by decide +kernel)
  have hmost : Sample.narrow.config.limits.simplify = some 1 := rfl
  have hwithin := (run_withinLimit Sample.isBuilt_narrow hmost hr).1 _ t ht _ _ he
  exact ⟨r, t, _, hr, ht, he, rfl, hwithin⟩

/-- Where no reference is made to an unknown member, the entry of every unknown member says that it
may be undefined, and so does whatever is read where nothing was written. -/
theorem run_doubts_unknown (hp : a.program.IsBuilt) (hR : a.program.bindsOnly Path.endsKnown = true)
    (h : a.run (.ofNodes nodes) = .ok r) {p : Point} {t : Snapshot}
    (ht : r.snapshots[p]? = some t) :
    (∀ i e, i.isUnknownMember = true → t.memory.entry? i = some e → .undefined ∈ e) ∧
    (∀ i, t.memory.entry? i = none → .undefined ∈ t.memory.readIndex i) ∧
    ∀ path level i, i ∈ (t.memory.resolve path level).toList → i.isUnknownMember = false →
      t.memory.entry? i = none → .undefined ∈ t.memory.readAt path level := by
  have hrefers := (Program.refers_of_bindsOnly hR fun _ => rfl).mono fun _ _ hends =>
    And.intro (Path.avoids_of_endsKnown hends.1) (Path.avoids_of_endsKnown hends.2)
  have hguarded := run_guarded (fun _ => id) hp hrefers h ht
  refine ⟨fun i e hi he => ?_, fun i hi => hguarded.undefined_mem_readIndex (fun _ => id) hi,
    fun path level i hmem hi he => hguarded.undefined_mem_readAt (fun _ => id) hmem hi he⟩
  refine (hguarded.allowed i e he).loose.resolve_left fun havoids => ?_
  cases i with
  | root _ => cases hi
  | member c s => exact Index.avoids_member.1 havoids hi

set_option maxRecDepth 20000 in
/-- A known element was written for certain, but that says nothing of the others. -/
theorem run_doubts_unknown_doubting : ∃ r t e, Sample.doubting.run (.ofNodes []) = .ok r ∧
    r.snapshots[Point.mk .main 3]? = some t ∧
    t.memory.entry? (Sample.element (.key (.integer 1))) = some (.ofValue (.scalar (.integer 5))) ∧
    t.memory.entry? (Sample.element .unknownKey) = some e ∧ .undefined ∈ e ∧
    .undefined ∈ t.memory.readIndex (Sample.element (.key (.integer 2))) := by
  obtain ⟨r, t, hr, ht, hentries⟩ := exists_of_run (a := Sample.doubting) (w := .ofNodes [])
    (p := ⟨.main, 3⟩) (f := fun t => (t.memory.entry? (Sample.element (.key (.integer 1))),
      (t.memory.entry? (Sample.element .unknownKey)).isSome,
      t.memory.entry? (Sample.element (.key (.integer 2)))))
    (x := (some (.ofValue (.scalar (.integer 5))), true, none)) (by decide +kernel)
  obtain ⟨hknown, hrest⟩ := Prod.mk.inj hentries
  obtain ⟨hunknown, habsent⟩ := Prod.mk.inj hrest
  obtain ⟨e, he⟩ := Option.isSome_iff_exists.1 hunknown
  obtain ⟨hdoubt, hread, -⟩ := run_doubts_unknown Sample.isBuilt_doubting (by decide +kernel) hr ht
  exact ⟨r, t, e, hr, ht, hknown, he, hdoubt _ e rfl he, hread _ habsent⟩

set_option maxRecDepth 20000 in
/-- A reference to the unknown member makes it one with a variable. What is written to that variable
is then all that any element of the array may be. -/
theorem run_settles_unknown : Sample.settled.program.IsBuilt ∧
    ∃ r t e, Sample.settled.run (.ofNodes []) = .ok r ∧ r.snapshots[Point.mk .main 2]? = some t ∧
      t.memory.entry? (Sample.element .unknownKey) = some e ∧ .undefined ∉ e ∧
      t.memory.entry? (Sample.element (.key (.integer 1))) = none ∧
      .undefined ∉ t.memory.readIndex (Sample.element (.key (.integer 1))) := by
  refine ⟨Sample.isBuilt_settled, ?_⟩
  obtain ⟨r, t, hr, ht, hentries⟩ := exists_of_run (a := Sample.settled) (w := .ofNodes [])
    (p := ⟨.main, 2⟩) (f := fun t => (t.memory.entry? (Sample.element .unknownKey),
      t.memory.entry? (Sample.element (.key (.integer 1))),
      t.memory.readIndex (Sample.element (.key (.integer 1)))))
    (x := (some (.ofValue (.scalar (.integer 5))), none, .ofValue (.scalar (.integer 5))))
    (by decide +kernel)
  obtain ⟨hunknown, hrest⟩ := Prod.mk.inj hentries
  obtain ⟨habsent, hread⟩ := Prod.mk.inj hrest
  have hfive : Value.undefined ∉ Entry.ofValue (.scalar (.integer 5)) := fun h =>
    nomatch Entry.mem_ofValue.1 h
  exact ⟨r, t, _, hr, ht, hunknown, hfive, habsent, hread ▸ hfive⟩

end Analysis
end ScriptMemory
