import ScriptMemory.Proofs.Analysis.Inheritance
import ScriptMemory.Proofs.Memory.Confinement

/-! The discipline of frames. A snapshot has the level of its context and mentions no location of a
deeper frame, so whatever a call leaves behind is gone when its frame is closed; the next function
called at that level starts with its parameters and no other variable of its own. -/
namespace ScriptMemory
open Std Transact

namespace Memory
variable {m : Memory} {i : Index} {p : Path} {k level : Nat} {limits : Limits}

/-- The location lies outside of all frames, or in one that is at most `level` calls deep. -/
def Shallow (level : Nat) (i : Index) : Prop :=
  i.frame ≤ level

theorem Shallow.mono (h : Shallow k i) (hle : k ≤ level) : Shallow level i :=
  Nat.le_trans h hle

theorem shallow_ofVariable (p : Path) (level : Nat) :
    (Locations.ofVariable p level).All (Shallow level) :=
  all_ofVariable (Index.frame_indexAt_le p level)

/-- Closing the frame above a level leaves nothing that is deeper. -/
theorem Confined.close {d : Draft} (h : d.memory.Confined (Shallow (level + 1)) (level + 1)) :
    (d.close level).memory.Confined (Shallow level) level := by
  refine ((h.discard fun i => i.isRootedAtLevel (level + 1)).mono ?_).withLevel level
  rintro i ⟨hle, hgone⟩
  have hne : i.frame ≠ level + 1 := fun heq => by
    rw [Index.isRootedAtLevel_iff.2 heq] at hgone
    cases hgone
  have hle' : i.frame ≤ level + 1 := hle
  change i.frame ≤ level
  omega

theorem shallow_survives (k level : Nat) :
    Survives (Shallow k) Value.Belongs (Confined (Shallow k) level) :=
  confined_survives (fun _ => Nat.zero_le k) fun _ _ h => h

theorem shallow_upkeep (limits : Limits) (level : Nat) :
    Upkeep limits (fun _ => Entry.IsData) (fun _ _ => True) (fun _ => True)
      (Confined (Shallow level) level) := by
  apply (shallow_survives level level).upkeep
  · intro m p h
    rw [h.level_eq]
    exact shallow_ofVariable p level
  · intro m h
    exact Nat.le_of_eq h.level_eq
  · exact confined_withstands (fun _ => Nat.zero_le level) (fun _ _ h => h) (Nat.zero_le level) _

end Memory

namespace Analysis
variable {a : Analysis} {s s' : AnalysisState} {p q : Point} {c : Context} {st : Statement}
  {target : Option CallTarget} {m n before : Memory} {x : Intake} {t : Snapshot}
  {view : Point → Option Memory} {k level : Nat} {limits : Limits}

/-- The location is no local of the frame that a context runs in, at `level + 1`, unless it is that
of a bound parameter or lies below one. -/
def BoundLocal (s : AnalysisState) (c : Context) (level : Nat) (i : Index) : Prop :=
  Memory.Shallow level i ∨ ∃ x ∈ bindings s c, i.base = .var x.1.name (.frame (level + 1))

/-- Parameters are bound at the locals that they name, and what they are bound to lies in the frame
of the caller. -/
theorem leads_boundLocals (limits : Limits) (a : Analysis) (s : AnalysisState) (c : Context)
    (level : Nat) :
    Leads limits (Memory.Confined (BoundLocal s c level) (level + 1)) (a.bindParameters s c)
      fun _ => Memory.Confined (BoundLocal s c level) (level + 1) := by
  have hobject (id : ObjectId) : BoundLocal s c level (.object id) := .inl (Nat.zero_le level)
  have hmember (i : Index) (seg : Segment) (hi : BoundLocal s c level i) :
      BoundLocal s c level (i.member seg) := hi
  have hI : Memory.Survives (BoundLocal s c level) Value.Belongs
      (Memory.Confined (BoundLocal s c level) (level + 1)) :=
    Memory.confined_survives hobject hmember
  have hparam (x : Parameter × Expression) (hx : x ∈ bindings s c) (m : Memory)
      (h : m.Confined (BoundLocal s c level) (level + 1)) :
      (Locations.ofVariable (.ofVariable x.1.name) m.level).All (BoundLocal s c level) := by
    rw [h.level_eq]
    exact Memory.all_ofVariable (.inr ⟨x, hx, rfl⟩)
  apply leads_bindAll (Memory.confined_withstands hobject hmember (.inl (Nat.zero_le level)) limits)
  · rintro x hx e m ⟨hm, he⟩
    exact (Keeps.mutate (Edit.keeps_assign hI he (hparam x hx) true) _).leads_same limits m hm
  · intro x hx source _ _
    refine (Keeps.mutate (Edit.keeps_bindReference hI ?_ (hparam x hx) ?_) _).leads_same limits
    · intro m h
      rw [h.level_eq]
      exact Nat.succ_ne_zero level
    · intro m h
      rw [h.level_eq]
      exact Memory.all_ofVariable (.inl (Index.frame_indexAt_le source level))

/-- Frame discipline is handed on from point to point. -/
theorem shallow_inherited (a : Analysis) :
    a.Inherited fun k => Memory.Confined (Memory.Shallow k) k where
  initial := Memory.confined_initial (Nat.le_refl 0)
  level_eq := fun h => h.level_eq
  join := fun hne h => Memory.confined_takenOver hne h _
  enter := fun h => (h.mono fun _ hi => hi.mono (Nat.le_succ _)).withLevel _
  bind := by
    intro s id c k _ _
    have hI := Memory.shallow_survives (k + 1) (k + 1)
    have hup := Memory.shallow_upkeep a.config.limits (k + 1)
    apply leads_bindAll hup.toWithstands
    · exact fun x _ e => hup.assign _ e true
    · intro x _ source _ _
      refine (Keeps.mutate (Edit.keeps_bindReference hI ?_ ?_ ?_) _).leads_same _
      · intro m h
        rw [h.level_eq]
        exact Nat.succ_ne_zero k
      · intro m h
        rw [h.level_eq]
        exact Memory.shallow_ofVariable _ (k + 1)
      · intro m h
        rw [h.level_eq]
        exact Memory.all_ofVariable (Nat.le_succ_of_le (Index.frame_indexAt_le source k))
  leave := by
    intro k d h _ result
    -- the result is data that is read in the frame, and written below variables of the caller
    have hdata := (Memory.shallow_survives (k + 1) (k + 1)).isData h
    exact Draft.survives_storeResult (Memory.shallow_survives k k) h.close result
      (fun p _ => Memory.shallow_ofVariable p k) (Memory.isData_readIndex hdata _).returned
      fun _ => ArraySource.isData_of_mem_ofEntry hdata
  apply := fun _ _ => leads_apply (Memory.shallow_upkeep _ _) _ _ _ _ _ _ (fun _ _ _ => trivial)
    fun _ _ => trivial

/-- Where a run succeeds, each point that waited was processed, so it has a statement. -/
theorem Steps.lt_size (hsteps : a.Steps k s s') (hp : a.program.IsBuilt)
    (hinv : a.Invariant s s.worklist.Waits ∧ s.worklist.Consistent)
    (hdone : s'.worklist.pop? = none) (hq : s.worklist.Waits q)
    (hc : s.contexts[q.context]? = some c) : q.node < c.function.graph.size := by
  induction hsteps with
  | refl s =>
    rw [hinv.2.eq_empty hdone] at hq
    cases hq
  | @step _ s r _ p w hpop hstep _ ih =>
    obtain ⟨hpending, hw⟩ := hinv.1.pop hp hinv.2 hpop
    have hnext := Invariant.step (s := { s with worklist := w }) hpending hp hw hstep
    rcases step_ok (s := { s with worklist := w }) hp hpending.tree hpending.rests hstep with
      ⟨hnone, rfl⟩ | ⟨r', c', st, target, -, hg, -, hworklist, hsite, hcases⟩
    · rcases (hinv.2.pop hpop).2 q |>.1 hq with rfl | hwaits
      · rw [hc] at hnone
        cases hnone
      · exact ih hnext hdone hwaits hc
    · have hcr := hg _ _ hc
      rcases (hinv.2.pop hpop).2 q |>.1 hq with rfl | hwaits
      · -- the point itself is visited
        obtain rfl : c' = c := Option.some.inj (hsite.context.symm.trans hcr)
        obtain ⟨node, hnode, -⟩ := Option.map_eq_some_iff.1 hsite.statement
        exact (List.getElem?_eq_some_iff.1 hnode).1
      · -- any other point still waits afterwards
        have hwaits' : r'.worklist.Waits q := by
          rw [hworklist]
          exact hwaits
        rcases hcases with ⟨-, rfl⟩ | ⟨x, n, t, -, rfl⟩
        · exact ih hnext hdone hwaits' hcr
        · have hwr : r'.worklist.Consistent := by
            rw [hworklist]
            exact hw
          exact ih hnext hdone ((waits_visited hwr).2 (.inl hwaits')) hcr

/-- The memory in which the function of a called context starts: that at the call, with a new frame
in which the parameters are bound. -/
def StartsIn (a : Analysis) (r : Report) (c : Context) (m : Memory) : Prop :=
  ∃ call u, c.caller = some call ∧ r.snapshots[call]? = some u ∧
    ∀ n, Yields (a.takeIn r.resumed c .enter (.call u.memory)) a.config.limits n () m

/-- The snapshot of a point was made from the memory `m` by the statement of the point. -/
def MadeFrom (a : Analysis) (r : Report) (p : Point) (c : Context) (m : Memory) (t : Snapshot) :
    Prop :=
  ∃ st target n before, a.Site r.resumed p c st target ∧
    Yields (a.apply r.resumed c.function p target st) a.config.limits m () n ∧
    t.memory = Memory.committed a.config.limits t.commits before n

/-- The only locals in memory at a level are bound parameters. -/
def OnlyParameters (r : Report) (c : Context) (m : Memory) : Prop :=
  ∀ i, m.Mentions i → i.frame = c.depth →
    ∃ x ∈ bindings r.resumed c, i.base = .var x.1.name (.frame c.depth)

theorem onlyParameters_of_confined {r : Report} (h : m.Confined (BoundLocal r.resumed c k) level)
    (hdepth : c.depth = k + 1) : OnlyParameters r c m := by
  intro i hi hframe
  rw [hdepth] at hframe ⊢
  rcases h.mentions hi with hshallow | hbound
  · have hle : i.frame ≤ k := hshallow
    omega
  · exact hbound

/-- The state in which a run that succeeds ends is orderly, and its report is made from it. -/
theorem run_orderly (hp : a.program.IsBuilt) {nodes : List Nat} {r : Report}
    (h : a.run (.ofNodes nodes) = .ok r) :
    a.Orderly r.resumed (fun _ => False) ∧ r.contexts = r.resumed.contexts ∧
      ∀ p : Point, r.snapshots[p]? =
        (r.resumed.snapshots[p]?).map fun t => { t with phase := .frozen } := by
  obtain ⟨main, k, s, hmain, hsteps, hdone, hcontexts, hsnapshots⟩ := run_steps h
  have hw := Worklist.consistent_ofNodes nodes
  have hinv := invariant_initialState hmain hw
  have hnodes : ∀ n ∈ nodes, n < main.graph.size := by
    intro n hn
    have hwaits : (initialState main (.ofNodes nodes)).worklist.Waits ⟨.main, n⟩ :=
      (Worklist.waits_push hw).2 (.inl (Worklist.waits_ofNodes.2 ⟨rfl, hn⟩))
    exact hsteps.lt_size hp ⟨hinv, hw.push _⟩ hdone hwaits rfl
  obtain ⟨horderly, hconsistent⟩ := hsteps.orderly hp (orderly_initialState hp hmain hnodes)
  have hempty := hconsistent.eq_empty hdone
  rw [resumed_eq horderly.invariant.tree horderly.invariant.rests hempty hcontexts hsnapshots]
  refine ⟨horderly.mono fun q => iff_of_false ?_ id, hcontexts, hsnapshots⟩
  rw [hempty]
  exact fun hq => by cases hq

/-- At the entry of a called function the memory before the entry's own statement has no locals but
the parameters that were bound. -/
theorem entered_of_settled
    (hI : ∀ q m, s.view q = some m → m.Confined (Memory.Shallow m.level) m.level)
    (hset : a.Settled s p) (hc : s.contexts[p.context]? = some c) (hmain : p.context ≠ .main)
    (hentry : p.node = c.function.graph.entry) :
    ∃ call caller m st target n before t, c.caller = some call ∧ s.view call = some caller ∧
      (∀ k, Yields (a.takeIn s c .enter (.call caller)) a.config.limits k () m) ∧
      m.Confined (BoundLocal s c caller.level) (caller.level + 1) ∧
      s.snapshots[p]? = some t ∧ a.Site s p c st target ∧
      Yields (a.apply s c.function p target st) a.config.limits m () n ∧
      t.memory = Memory.committed a.config.limits t.commits before n := by
  obtain ⟨c', st, target, view, x, n, before, t, ht, hout, hflow⟩ := hset
  obtain rfl : c = c' := Option.some.inj (hc.symm.trans hout.site.context)
  have hx := hout.intake
  rw [intake?_entry ⟨hentry, hmain⟩] at hx
  obtain ⟨caller, hcaller, rfl⟩ := Option.map_eq_some_iff.1 hx
  obtain ⟨call, hcall, hview⟩ := Option.bind_eq_some_iff.1 hcaller
  -- memory flows from the call to the entry, so the caller is what it is in the end
  have hflows : Flow s.contexts call p := by
    have hpoint : (⟨p.context, c.function.graph.entry⟩ : Point) = p := by rw [← hentry]
    exact hpoint ▸ .enter hc hcall
  rw [hflow call hflows] at hview
  have hentered : ({ caller with level := caller.level + 1 } : Memory).Confined
      (BoundLocal s c caller.level) (caller.level + 1) :=
    ((hI call caller hview).mono fun _ hi => .inl hi).withLevel _
  obtain ⟨u, m, hbind, hm⟩ :=
    leads_boundLocals a.config.limits a s c caller.level _ hentered
  have htake (st : Statement) (k : Memory) :
      Yields (a.takeIn s c st (.call caller)) a.config.limits k () m := by
    have hrun : (Edit.enterCall caller).run
        { memory := k, limit := a.config.limits.simplify } = .ok () {
          memory := { caller with level := caller.level + 1 }
          limit := a.config.limits.simplify } := rfl
    exact (Yields.mutate hrun).bind hbind
  refine ⟨call, caller, m, st, target, n, before, t, hcall, hview, htake .enter, hm, ht, hout.site,
    ?_, hout.memory⟩
  have hshallow : m.Confined (Memory.Shallow (caller.level + 1)) (caller.level + 1) := by
    refine hm.mono fun i hi => ?_
    rcases hi with hi | ⟨y, -, hi⟩
    · exact hi.mono (Nat.le_succ _)
    · have hframe : i.frame = caller.level + 1 := by
        unfold Index.frame
        rw [hi]
      exact Nat.le_of_eq hframe
  -- the transfer is the intake and then the statement
  obtain ⟨v, n', happly, -⟩ := leads_apply (Memory.shallow_upkeep a.config.limits _) a s c.function
    p target st (fun _ _ _ => trivial) (fun _ _ => trivial) m hshallow
  obtain ⟨rfl, -⟩ := (hout.yields .initial).unique ((htake st .initial).bind happly)
  exact happly

/-- In the end every memory keeps to its frame. -/
theorem confined_view (hp : a.program.IsBuilt) {nodes : List Nat} {r : Report}
    (h : a.run (.ofNodes nodes) = .ok r) (q : Point) (m : Memory)
    (hm : r.resumed.view q = some m) : m.Confined (Memory.Shallow m.level) m.level := by
  obtain ⟨-, -, hsnapshots⟩ := run_orderly hp h
  obtain ⟨u, hu, rfl⟩ := Option.map_eq_some_iff.1 hm
  have hfrozen : r.snapshots[q]? = some { u with phase := .frozen } := by
    rw [hsnapshots, hu]
    rfl
  have hinherited := (shallow_inherited a).run (fun before h => h.widen before) hp
    (Worklist.consistent_ofNodes nodes) h hfrozen
  exact hinherited

/-- In a run that succeeds, the snapshot of a point has the level of its context, and nothing occurs
in it that belongs to a deeper frame. At the entry of a called function there are no locals but the
bound parameters, until the statement of the entry makes some. -/
theorem run_framed (hp : a.program.IsBuilt) {nodes : List Nat} {r : Report}
    (h : a.run (.ofNodes nodes) = .ok r) (ht : r.snapshots[p]? = some t)
    (hc : r.contexts[p.context]? = some c) :
    t.memory.level = c.depth ∧ (∀ i, t.memory.Mentions i → i.frame ≤ c.depth) ∧
      (p.context ≠ .main → p.node = c.function.graph.entry →
        (∃ m, a.StartsIn r c m ∧ OnlyParameters r c m ∧ a.MadeFrom r p c m t) ∧
        (c.function.graph.statement? p.node = some .enter → OnlyParameters r c t.memory)) := by
  obtain ⟨horderly, hcontexts, hsnapshots⟩ := run_orderly hp h
  have hconfined := confined_view hp h
  rw [hsnapshots] at ht
  obtain ⟨old, hold, rfl⟩ := Option.map_eq_some_iff.1 ht
  rw [hcontexts] at hc
  have hview := AnalysisState.view_eq_some hold
  have hlevel : old.memory.level = c.depth := horderly.levelled p old.memory c hview hc
  refine ⟨hlevel, fun i hi => hlevel ▸ (hconfined p old.memory hview).mentions hi, ?_⟩
  intro hmain hentry
  -- nothing is pending, so the entry was made from what flows to it in the end
  have hsettled := (horderly.invariant.settled p (by rw [hview]; rfl)).resolve_left id
  obtain ⟨call, caller, m, st, target, n, before, t', hcall, hcaller, htake, hm, ht', hsite, happly,
    hmemory⟩ := entered_of_settled hconfined hsettled hc hmain hentry
  obtain rfl : old = t' := Option.some.inj (hold.symm.trans ht')
  obtain ⟨context, _, _, hctx, -⟩ := horderly.invariant.tree.entered _ c call hc hcall
  have hdepth : c.depth = caller.level + 1 := by
    rw [depth_of_caller horderly.invariant.tree hc hcall hctx,
      horderly.levelled call caller context hcaller hctx]
  refine ⟨⟨m, ?_, onlyParameters_of_confined hm hdepth, st, target, n, before, hsite,
    happly, hmemory⟩, ?_⟩
  · obtain ⟨u, hu, rfl⟩ := Option.map_eq_some_iff.1 hcaller
    refine ⟨call, { u with phase := .frozen }, hcall, ?_, htake⟩
    rw [hsnapshots, hu]
    rfl
  · intro hst
    obtain rfl : Statement.enter = st := Option.some.inj (hst.symm.trans hsite.statement)
    have hidle : Yields (a.apply r.resumed c.function p target .enter) a.config.limits m () m :=
      Yields.get_bind (fun _ _ _ => rfl) (Yields.pure _ _ _)
    obtain ⟨rfl, -⟩ := happly.unique hidle
    have hkept : old.memory.Confined (BoundLocal r.resumed c caller.level) (caller.level + 1) := by
      rw [hmemory]
      unfold Memory.committed
      split
      · exact hm.widen before
      · exact hm
    exact onlyParameters_of_confined hkept hdepth

set_option maxRecDepth 20000 in
/-- The only local with which a function starts that copies its parameter in a loop. -/
theorem run_framed_entry : ∃ r t c, Sample.loop.run (.ofNodes []) = .ok r ∧
    r.snapshots[Point.mk 1 0]? = some t ∧ r.contexts[1]? = some c ∧ t.memory.level = c.depth ∧
      OnlyParameters r c t.memory := by
  have hrun : ((Sample.loop.run (.ofNodes [])).toOption.map fun r =>
      ((r.snapshots[Point.mk 1 0]?).isSome, (r.contexts[1]?).any fun c =>
        c.function.graph.entry = 0 ∧ c.function.graph.statement? 0 = some .enter)) =
      some (true, true) := by
    decide +kernel
  cases hr : Sample.loop.run (.ofNodes []) with
  | error e =>
    rw [hr] at hrun
    cases hrun
  | ok r =>
    rw [hr] at hrun
    obtain ⟨hsnapshot, hcontext⟩ := Prod.mk.inj (Option.some.inj hrun)
    obtain ⟨t, ht⟩ := Option.isSome_iff_exists.1 hsnapshot
    obtain ⟨c, hc, henter⟩ := (Option.any_eq_true _ _).1 hcontext
    obtain ⟨hentry, hst⟩ := of_decide_eq_true henter
    have hframed := run_framed (p := ⟨1, 0⟩) Sample.isBuilt_loop hr ht hc
    exact ⟨r, t, c, rfl, ht, hc, hframed.1, (hframed.2.2 (by decide) hentry.symm).2 hst⟩

end Analysis
end ScriptMemory
