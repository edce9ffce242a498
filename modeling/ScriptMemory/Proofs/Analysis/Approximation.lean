import ScriptMemory.Proofs.Analysis.CallTree
import ScriptMemory.Proofs.Analysis.FrameDiscipline
import ScriptMemory.Proofs.Memory.Courses
import ScriptMemory.Proofs.Memory.Slot

/-! Calls that are not analysed. Behind such a call memory is that at the call with one more
finding, which tells why, and then one output of the call after the other is made unknown: its
result, and what it takes by reference. -/
namespace ScriptMemory
open Std Transact

namespace Memory
variable {m n : Memory} {limit : Option Nat} {f g : Finding} {paths : List Path} {level : Nat}

theorem reports_iff_mem_slot : m.Reports f ↔ .info f ∈ m.slot :=
  mem_slot.symm

theorem Consistent.reports_reporting (h : m.Consistent) :
    (m.reporting limit f).Reports g ↔ m.Reports g ∨ g = f := by
  rw [reports_iff_mem_slot, reports_iff_mem_slot, h.slot_reporting,
    (Entry.writtenAs_fitted limit _).coarsened.info_mem_iff, Entry.mem_insert_info,
    Value.info.injEq, or_comm]

theorem Reports.congr (h : n.entry? .diagnostics = m.entry? .diagnostics) :
    n.Reports g ↔ m.Reports g := by
  unfold Reports
  rw [h]

/-- Making paths unknown reports nothing. -/
theorem entry?_forget_diagnostics (h : m.WellFormed) (limit : Option Nat) (paths : List Path) :
    Memory.entry? (paths.foldl (forget limit) m) .diagnostics = m.entry? .diagnostics := by
  let I (n : Memory) := n.WellFormed ∧ n.entry? .diagnostics = m.entry? .diagnostics
  have hforget (n : Memory) (hn : I n) (p : Path) (_ : p ∈ paths) : I (forget limit n p) :=
    Draft.survives_assign (survives_slot _) (d := { memory := n, limit }) hn
      (Entry.all_ofValue rfl) (Locations.all_ofVariable Index.isOrdinary_ofVariable p n.level) false
  exact (List.foldlRecOn (motive := I) paths (forget limit) ⟨h, rfl⟩ hforget).2

theorem reports_committed (limits : Limits) (commits : Nat) (before m : Memory) :
    (committed limits commits before m).Reports g ↔ m.Reports g := by
  unfold committed
  split
  · unfold Reports widen
    rw [entry?_mapEntries]
    cases m.entry? .diagnostics with
    | none => simp
    | some e => simp [(coarsened_widenEntry before .diagnostics e).info_mem_iff]
  · rfl

theorem confined_reporting (h : m.Confined (fun _ => True) level) (limit : Option Nat)
    (f : Finding) : (m.reporting limit f).Confined (fun _ => True) level :=
  confined_survives_anywhere.write h trivial (h.toConsistent.belongs_reported limit f)

theorem wellFormed_reporting (h : m.WellFormed) (hm : m.Consistent) (limit : Option Nat)
    (f : Finding) : (m.reporting limit f).WellFormed :=
  wellFormed_write h _ fun v hv => (hm.belongs_reported limit f v hv).1

end Memory

namespace Analysis
variable {a : Analysis} {s : AnalysisState} {f : Function} {p : Point} {m : Memory}
    {limits : Limits}
  {call : Point} {name : String} {caller : Context}

/-- The path that is passed to a parameter, if it is passed by reference. -/
def passed? (x : Parameter × Expression) : Option Path :=
  match x.1.byReference, x.2 with
  | true, .read path => some path
  | _, _ => none

/-- The paths that a call which is not analysed makes unknown: its result, and what its function
takes by reference, if that is known. -/
def outputs (result : Option Path) (callee : Option Function) (args : List Expression) :
    List Path :=
  result.toList ++ ((callee.map fun f => (f.params.zip args).filterMap passed?).getD [])

theorem yields_forget (limits : Limits) (m : Memory) (p : Path) :
    Yields (Snapshot.assign p (.ofValue .any) false) limits m () (m.forget limits.simplify p) :=
  Yields.mutate (Edit.assign_run { memory := m, limit := limits.simplify } p
    (Entry.all_ofValue rfl) false)

/-- Makes unknown what is passed by reference. -/
def forgetPassed (x : Parameter × Expression) : Transact Unit := do
  if let (true, .read p) := (x.1.byReference, x.2) then Snapshot.assign p (.ofValue .any) false

theorem yields_forgetPassed (limits : Limits) (m : Memory) (x : Parameter × Expression) :
    Yields (forgetPassed x) limits m ()
      ((passed? x).toList.foldl (Memory.forget limits.simplify) m) := by
  obtain ⟨⟨name, byReference⟩, arg⟩ := x
  cases byReference with
  | false => exact Yields.pure limits m ()
  | true =>
    cases arg with
    | read p => exact yields_forget limits m p
    | _ => exact Yields.pure limits m ()

theorem yields_forgetAllPassed (limits : Limits) (m : Memory) (l : List (Parameter × Expression)) :
    Yields (l.forM forgetPassed) limits m ()
      ((l.filterMap passed?).foldl (Memory.forget limits.simplify) m) := by
  induction l generalizing m with
  | nil => exact Yields.pure limits m ()
  | cons x l ih =>
    have hsplit : (x :: l).filterMap passed? = (passed? x).toList ++ l.filterMap passed? := by
      rw [List.filterMap_cons]
      cases passed? x <;> rfl
    rw [hsplit, List.foldl_append]
    exact (yields_forgetPassed limits m x).bind (ih _)

theorem yields_create (limits : Limits) (m : Memory) (v : Value) :
    Yields (Snapshot.create v) limits m v m :=
  fun _ hl hm _ => ⟨_, rfl, hl, hm, rfl, rfl⟩

/-- One output after the other is made unknown. -/
theorem yields_approximate (limits : Limits) (m : Memory) (result : Option Path)
    (callee : Option Function) (args : List Expression) :
    Yields (approximate result callee args) limits m ()
      ((outputs result callee args).foldl (Memory.forget limits.simplify) m) := by
  unfold outputs
  rw [List.foldl_append]
  refine (yields_create limits m .any).bind ?_
  cases result
  case' some p => refine (yields_forget limits m p).bind ?_
  all_goals
    cases callee with
    | none => exact Yields.pure limits _ ()
    | some f => exact yields_forgetAllPassed limits _ (f.params.zip args)

/-- Why a call that is barred is not analysed, and how that is told. -/
def barrier (a : Analysis) (s : AnalysisState) (call : Point) (name : String) : Cause × String :=
  if a.program.function? name = none then
    (.unknownFunction, "call to undefined function " ++ name)
  else if ∃ c ∈ s.running call.context, c.function.name = name then
    (.recursiveCall, "recursive call to " ++ name)
  else
    (.callDepthExceeded,
      "call to " ++ name ++ " nested deeper than " ++ toString a.config.maxCallDepth)

theorem verdict_of_barred (hcaller : s.contexts[call.context]? = some caller)
    (h : AnalysisState.Barred a s call caller.depth name) :
    a.verdict s call name = .error (.approximated (a.barrier s call name).1
      (a.barrier s call name).2 (a.program.function? name)) := by
  obtain ⟨rest, hchain⟩ := AnalysisState.chain_eq_cons hcaller
  have hrunning : (s.chain s.contexts.length call.context).any (fun c => c.function.name = name) =
      true ↔ ∃ c ∈ s.running call.context, c.function.name = name := by
    simp only [List.any_eq_true, decide_eq_true_eq, AnalysisState.running]
  unfold AnalysisState.Barred at h
  unfold verdict barrier
  cases hf : a.program.function? name with
  | none => rfl
  | some f =>
    rw [if_neg (Option.some_ne_none f)]
    dsimp only
    by_cases hr : ∃ c ∈ s.running call.context, c.function.name = name
    · rw [if_pos (hrunning.2 hr), if_pos hr]
    · rw [if_neg (mt hrunning.1 hr), if_neg hr, if_pos]
      rw [hchain]
      exact (h.resolve_left (by rw [hf]; exact Option.some_ne_none f)).resolve_left hr

theorem yields_report (limits : Limits) (m : Memory) (finding : Finding) :
    Yields (Snapshot.report finding) limits m () (m.reporting limits.simplify finding) := by
  have hrun : (Edit.report finding).run { memory := m, limit := limits.simplify } =
      .ok () (({ memory := m, limit := limits.simplify } : Draft).write .diagnostics
        (m.slot.insert (.info finding))) := rfl
  have hyields : Yields (Snapshot.report finding) limits m () _ := Yields.mutate hrun
  rwa [Draft.write_memory] at hyields

theorem yields_warn {ev : Evaluator} (hquiet : ev.quiet = false) (limits : Limits) (m : Memory)
    (cause : Cause) (message : String) : Yields (ev.warn cause message) limits m ()
      (m.reporting limits.simplify ⟨cause, ev.location, message⟩) := by
  unfold Evaluator.warn
  rw [hquiet]
  have hrecord : Yields (Snapshot.record .valueCreated) limits m () m :=
    fun _ hl hm _ => ⟨_, rfl, hl, hm, rfl, rfl⟩
  exact hrecord.bind (yields_report limits m _)

/-- What the statement behind a call does where the call is not analysed. -/
theorem yields_callReturn {result : Option Path} {node : Nat} {args : List Expression}
    (hnode : f.graph.callOf? p.node = some node)
    (hcall : f.graph.statement? node = some (.call name args)) (a : Analysis) (s : AnalysisState)
    (cause : Cause) (message : String) (callee : Option Function) (limits : Limits) (m : Memory) :
    Yields (a.apply s f p (some (.approximated cause message callee)) (.callReturn result)) limits
      m () ((outputs result callee args).foldl (Memory.forget limits.simplify)
        (m.reporting limits.simplify ⟨cause, f.location p.node, message⟩)) := by
  unfold apply
  refine Yields.get_bind (fun _ _ h => by rw [h]) ?_
  dsimp only
  rw [hnode, Option.bind_some, hcall]
  exact (yields_warn rfl limits m cause message).bind
    (yields_approximate limits _ result callee args)

theorem Site.target_of_barred {c : Context} {result : Option Path} {node : Nat}
    {args : List Expression} {target : Option CallTarget}
    (h : a.Site s p c (.callReturn result) target) (hp : a.program.IsBuilt) (hs : s.Tree a)
    (hnode : c.function.graph.callOf? p.node = some node)
    (hcall : c.function.graph.statement? node = some (.call name args))
    (hbarred : AnalysisState.Barred a s ⟨p.context, node⟩ c.depth name) :
    target = some (.approximated (a.barrier s ⟨p.context, node⟩ name).1
        (a.barrier s ⟨p.context, node⟩ name).2 (a.program.function? name)) ∧
      s.calls[Point.mk p.context node]? = none := by
  rcases AnalysisState.targetOf_cases (a := a) (hs.isBuilt hp h.context) h.statement with
    ⟨-, hreturn, -⟩ | ⟨call, name', args', habout, hcall', -, htarget⟩
  · cases hreturn
  obtain rfl : call = ⟨p.context, node⟩ := habout.unique (.inr ⟨rfl, hnode, rfl⟩)
  cases Option.some.inj (hcall.symm.trans hcall')
  obtain ⟨t, rfl, hresolved⟩ := AnalysisState.resolveCall_of_targetOf htarget h.target
  rcases AnalysisState.resolveCall_fixed hresolved with ⟨id, -, rfl⟩ | ⟨hnone, hv⟩
  · -- a context that was entered from the call was allowed to
    have hiff : (a.resolveCall s ⟨p.context, node⟩ name).2.IsApproximated ↔
        AnalysisState.Barred a s ⟨p.context, node⟩ c.depth name :=
      AnalysisState.isApproximated_resolveCall_iff hs h.context hcall
    rw [hresolved] at hiff
    exact (hiff.2 hbarred).elim
  · have hverdict : a.verdict s ⟨p.context, node⟩ name = _ := verdict_of_barred h.context hbarred
    cases hverdict.symm.trans hv
    exact ⟨rfl, hnone⟩

/-- A visit takes memory in and then applies the statement. -/
theorem Outcome.taken {c : Context} {st : Statement} {target : Option CallTarget}
    {view : Point → Option Memory} {x : Intake} {n before : Memory} {t : Snapshot}
    (h : a.Outcome s p c st target view x n before t) (hs : s.Tree a)
    (hx : ∀ m ∈ x.memories, m.Confined (Memory.Shallow m.level) m.level) :
    ∃ m level, m.WellFormed ∧ m.Confined (Memory.Shallow level) level ∧
      (∀ k, Yields (a.takeIn s c st x) a.config.limits k () m) ∧
      Yields (a.apply s c.function p target st) a.config.limits m () n := by
  obtain ⟨level, hfits⟩ := h.fits
  -- what a visit takes in is a frame, and it mentions nothing deeper; both are of one memory
  obtain ⟨m, hm, htake⟩ := (shallow_inherited a).takeIn hs h.site.context st hfits hx
  obtain ⟨m', hframe, htake'⟩ := takeIn_frame a s c st hfits h.wellFormed a.config.limits
  obtain ⟨rfl, -⟩ := (htake .initial).unique (htake' .initial)
  obtain ⟨u, n', happly, -⟩ := (shallow_inherited a).apply hs h.site m hm
  obtain ⟨rfl, -⟩ := (h.yields .initial).unique ((htake .initial).bind happly)
  exact ⟨m, level, hframe.toWellFormed, hm, htake, happly⟩

/-- No context leads back behind a call that is barred, so memory flows there from the call. -/
theorem flow_behind {c : Context} {node : Nat} {args : List Expression}
    (hp : a.program.IsBuilt) (hs : s.Tree a) (hc : s.contexts[p.context]? = some c)
    (hnode : c.function.graph.callOf? p.node = some node)
    (hcall : c.function.graph.statement? node = some (.call name args))
    (hnone : s.calls[Point.mk p.context node]? = none)
    (hinside : ¬(p.node = c.function.graph.entry ∧ p.context ≠ .main)) :
    Flow s.contexts ⟨p.context, node⟩ p := by
  have hbuilt := hs.isBuilt hp hc
  refine .edge hc (Graph.mem_edges_of_callReturnOf? (hbuilt.callReturnOf?_iff.2 hnode)) ?_ ?_
  · intro id callee hcallee hcaller
    rw [(hs.calls _ id).2 ⟨callee, hcallee, hcaller⟩] at hnone
    cases hnone
  · intro hcalled
    refine ⟨?_, fun hentry => hinside ⟨hentry, (hs.ne_main_iff hc).2 hcalled⟩⟩
    rintro rfl
    rw [hbuilt.statement?_exit] at hcall
    cases hcall

/-- The snapshot `t` behind a call that is not analysed, made from the memory `m`: it has one
finding more, and the outputs of the call read as anything, but for those of which a later one
destroys the way or the end. -/
structure Approximates (limit : Option Nat) (m : Memory) (warning : Finding) (paths : List Path)
    (t : Memory) : Prop where
  mem_findings : ∀ f, f ∈ t.findings ↔ f ∈ m.findings ∨ f = warning
  any_mem_read : ∀ before q after, paths = before ++ q :: after →
    let reached := before.foldl (Memory.forget limit) (m.reporting limit warning)
    (reached.course limit q).Outlasts ((reached.forget limit q).courses limit after) →
      .any ∈ t.read q

/-- What a visit behind such a call commits. -/
theorem Outcome.approximates {c : Context} {result : Option Path} {node : Nat}
    {args : List Expression} {cause : Cause} {message : String} {callee : Option Function}
    {view : Point → Option Memory} {x : Intake} {n before : Memory} {t : Snapshot}
    (h : a.Outcome s p c (.callReturn result) (some (.approximated cause message callee)) view x n
      before t) (hs : s.Tree a)
    (hx : ∀ m ∈ x.memories, m.Confined (Memory.Shallow m.level) m.level)
    (hnode : c.function.graph.callOf? p.node = some node)
    (hcall : c.function.graph.statement? node = some (.call name args)) :
    ∃ m, (∀ k, Yields (a.takeIn s c (.callReturn result) x) a.config.limits k () m) ∧
      Approximates a.config.limits.simplify m ⟨cause, c.function.location p.node, message⟩
        (outputs result callee args) t.memory := by
  obtain ⟨m, level, hwf, hconfined, htake, happly⟩ := h.taken hs hx
  obtain ⟨rfl, -⟩ := happly.unique (yields_callReturn hnode hcall a s cause message callee _ m)
  have htrue : m.Confined (fun _ => True) level := hconfined.mono fun _ _ => trivial
  refine ⟨m, htake, fun f => ?_, fun before q after heq hlasts => ?_⟩
  · have hreported := Memory.wellFormed_reporting hwf htrue.toConsistent
      a.config.limits.simplify ⟨cause, c.function.location p.node, message⟩
    rw [Memory.mem_findings, Memory.mem_findings, h.memory, Memory.reports_committed,
      Memory.Reports.congr (Memory.entry?_forget_diagnostics hreported ..),
      htrue.toConsistent.reports_reporting]
  · rw [h.memory, heq, List.foldl_append, List.foldl_cons]
    let limit := a.config.limits.simplify
    have hreached := Memory.confined_forget_all (Memory.confined_reporting htrue limit
      ⟨cause, c.function.location p.node, message⟩) limit before
    exact Memory.any_mem_read_forget hreached hlasts ..

/-- The memory that the point behind a call which is not analysed starts from: that at the call. A
function that starts with such a point, though, starts with it as ever. -/
def StartsBehind (a : Analysis) (r : Report) (p : Point) (c : Context) (node : Nat) (m : Memory) :
    Prop :=
  if p.node = c.function.graph.entry ∧ p.context ≠ .main then a.StartsIn r c m
  else ∃ u, r.snapshots[Point.mk p.context node]? = some u ∧ u.memory = m

theorem Report.exists_snapshot_of_view {r : Report} {q : Point} {m : Memory}
    (hsnapshots : ∀ p : Point, r.snapshots[p]? =
      (r.resumed.snapshots[p]?).map fun t => { t with phase := .frozen })
    (hm : r.resumed.view q = some m) :
    ∃ u : Snapshot, r.snapshots[q]? = some u ∧ u.memory = m := by
  obtain ⟨u, hu, rfl⟩ := Option.map_eq_some_iff.1 hm
  refine ⟨{ u with phase := .frozen }, ?_, rfl⟩
  rw [hsnapshots, hu]
  rfl

/-- The one memory that a visit behind such a call takes in, and what it starts from with it. -/
theorem Outcome.startsBehind {r : Report} {c : Context} {result : Option Path} {node : Nat}
    {args : List Expression} {cause : Cause} {message : String} {callee : Option Function}
    {view : Point → Option Memory} {x : Intake} {n before : Memory} {t : Snapshot}
    {nodes : List Nat}
    (hp : a.program.IsBuilt) (hr : a.run (.ofNodes nodes) = .ok r)
    (h : a.Outcome r.resumed p c (.callReturn result) (some (.approximated cause message callee))
      view x n before t)
    (hflow : ∀ q, Flow r.resumed.contexts q p → view q = r.resumed.view q)
    (hnode : c.function.graph.callOf? p.node = some node)
    (hcall : c.function.graph.statement? node = some (.call name args))
    (hnone : r.resumed.calls[Point.mk p.context node]? = none) :
    ∃ q source, r.resumed.view q = some source ∧ x.memories = [source] ∧
      ∀ m, (∀ k, Yields (a.takeIn r.resumed c (.callReturn result) x) a.config.limits k () m) →
        a.StartsBehind r p c node m := by
  obtain ⟨horderly, -, hsnapshots⟩ := run_orderly hp hr
  have hc := h.site.context
  have hx := h.intake
  unfold StartsBehind
  by_cases hentry : p.node = c.function.graph.entry ∧ p.context ≠ .main
  · -- the function starts with this point, so its memory comes from where the function is called
    rw [intake?_entry hentry] at hx
    obtain ⟨source, hsource, rfl⟩ := Option.map_eq_some_iff.1 hx
    obtain ⟨call, hcaller, hsource⟩ := Option.bind_eq_some_iff.1 hsource
    have hpoint : (⟨p.context, c.function.graph.entry⟩ : Point) = p := by rw [← hentry.1]
    rw [hflow call (hpoint ▸ .enter hc hcaller)] at hsource
    refine ⟨call, source, hsource, rfl, fun m htake => ?_⟩
    rw [if_pos hentry]
    obtain ⟨u, hu, rfl⟩ := Report.exists_snapshot_of_view hsnapshots hsource
    exact ⟨call, _, hcaller, hu, htake⟩
  · rw [intake?_approximated hentry rfl hnode] at hx
    obtain ⟨source, hsource, rfl⟩ := Option.map_eq_some_iff.1 hx
    rw [hflow _ (flow_behind hp horderly.invariant.tree hc hnode hcall hnone hentry)] at hsource
    refine ⟨_, source, hsource, rfl, fun m htake => ?_⟩
    rw [if_neg hentry]
    -- the one source is taken over as it is
    have hextend : (Edit.extend [source]).run
        { memory := .initial, limit := a.config.limits.simplify } =
          .ok () { memory := source, limit := a.config.limits.simplify } := rfl
    obtain ⟨rfl, -⟩ := (htake .initial).unique (Yields.mutate hextend)
    exact Report.exists_snapshot_of_view hsnapshots hsource

/-- Outputs that are variables read as anything, all of them. -/
theorem Approximates.any_mem_read_variable {limit : Option Nat} {m t : Memory} {warning : Finding}
    {paths : List Path} (h : Approximates limit m warning paths t)
    (hpaths : ∀ q ∈ paths, q.isVariable = true) {q : Path} (hq : q ∈ paths) : .any ∈ t.read q := by
  obtain ⟨before, after, rfl⟩ := List.append_of_mem hq
  refine h.any_mem_read before q after rfl (Memory.outlasts_variable (hpaths q hq) ?_ ..)
  exact fun q' hq' => hpaths q' (List.mem_append_right _ (List.mem_cons_of_mem q hq'))

/-- In a run that succeeds, the snapshot behind a call of an undefined function, of a running one or
of one nested too deep has the findings of the memory it started from and one more, which tells why
and where; and each output of the call reads as anything if none of the later ones destroys the way
to it or its end. -/
theorem run_approximates {nodes : List Nat} {r : Report} {c : Context} {result : Option Path}
    {node : Nat} {args : List Expression} {t : Snapshot} (hp : a.program.IsBuilt)
    (h : a.run (.ofNodes nodes) = .ok r) (ht : r.snapshots[p]? = some t)
    (hc : r.contexts[p.context]? = some c)
    (hst : c.function.graph.statement? p.node = some (.callReturn result))
    (hnode : c.function.graph.callOf? p.node = some node)
    (hcall : c.function.graph.statement? node = some (.call name args))
    (hbarred : AnalysisState.Barred a r.resumed ⟨p.context, node⟩ c.depth name) :
    let barrier := a.barrier r.resumed ⟨p.context, node⟩ name
    ∃ m, a.StartsBehind r p c node m ∧
      Approximates a.config.limits.simplify m
        ⟨barrier.1, c.function.location p.node, barrier.2⟩
        (outputs result (a.program.function? name) args) t.memory := by
  intro barrier
  obtain ⟨horderly, hcontexts, hsnapshots⟩ := run_orderly hp h
  have htree := horderly.invariant.tree
  rw [hcontexts] at hc
  rw [hsnapshots] at ht
  obtain ⟨old, hold, rfl⟩ := Option.map_eq_some_iff.1 ht
  -- nothing is pending, so the snapshot was made from what flows to the point in the end
  have hseen : (r.resumed.view p).isSome := by
    rw [AnalysisState.view_eq_some hold]
    rfl
  obtain ⟨c', st, target, view, x, n, before, t, ht', hout, hflow⟩ :=
    (horderly.invariant.settled p hseen).resolve_left id
  obtain rfl : old = t := Option.some.inj (hold.symm.trans ht')
  obtain rfl : c = c' := Option.some.inj (hc.symm.trans hout.site.context)
  obtain rfl : .callReturn result = st := Option.some.inj (hst.symm.trans hout.site.statement)
  obtain ⟨rfl, hnone⟩ := hout.site.target_of_barred hp htree hnode hcall hbarred
  obtain ⟨q, source, hsource, hx, hbehind⟩ := hout.startsBehind hp h hflow hnode hcall hnone
  have hshallow : ∀ m ∈ x.memories, m.Confined (Memory.Shallow m.level) m.level := by
    rw [hx]
    exact List.forall_mem_singleton.2 (confined_view hp h q source hsource)
  obtain ⟨m, htake, happroximates⟩ := hout.approximates htree hshallow hnode hcall
  exact ⟨m, hbehind m htake, happroximates⟩

end Analysis

namespace Sample

/-- A function that does nothing with its parameter, which it takes by reference. -/
def ignoring : Graph where
  nodes := [⟨0, .enter⟩, ⟨1, .exit⟩]
  edges := [(0, 1)]
  entry := 0
  exit := 1

/-- A script that passes a path to that function, without analysing any call. -/
def shallow (argument : Path) : Analysis where
  program := (Program.withFunction {} ⟨"ignore", [⟨"target", true⟩], ignoring⟩).withFunction
    ⟨"main", [], calling "ignore" (.read argument)⟩
  config := { maxCallDepth := 0 }

theorem isBuilt_shallow (argument : Path) : (shallow argument).program.IsBuilt :=
  (Program.isBuilt_empty.withFunction
    ⟨{ nodes := ignoring.nodes, edges := [(0, 1)] }, rfl⟩).withFunction
    (isBuilt_calling _ _)

/-- The script of the analysis, as a context. -/
def shallowScript (argument : Path) : Context where
  function := ⟨"main", [], calling "ignore" (.read argument)⟩
  caller := none
  depth := 0

theorem main_shallow (argument : Path) :
    (shallow argument).program.main = .ok (shallowScript argument).function :=
  Program.main_withFunction _ rfl

theorem function?_shallow (argument : Path) : (shallow argument).program.function? "ignore" =
    some ⟨"ignore", [⟨"target", true⟩], ignoring⟩ := by
  have hother : ¬"main" = "ignore" := by decide
  exact (Program.function?_withFunction ..).trans
    ((if_neg hother).trans ((Program.function?_withFunction ..).trans (if_pos rfl)))

theorem barred_shallow (argument : Path) (s : AnalysisState) :
    AnalysisState.Barred (shallow argument) s ⟨.main, 0⟩ 0 "ignore" :=
  .inr (.inr (by decide : 0 < 1))

end Sample

namespace Analysis

theorem context_shallow {argument : Path} {r : Report}
    (h : (Sample.shallow argument).run (.ofNodes []) = .ok r) :
    r.contexts[ContextId.main]? = some (Sample.shallowScript argument) := by
  obtain ⟨horderly, hcontexts, -⟩ := run_orderly (Sample.isBuilt_shallow argument) h
  obtain ⟨f, hf, hroot⟩ := horderly.invariant.tree.root
  rw [hcontexts, hroot, Except.ok.inj (hf.symm.trans (Sample.main_shallow argument))]
  rfl

/-- The call is nested too deep, since nothing is running but the script. -/
theorem barrier_shallow {argument : Path} {r : Report}
    (h : (Sample.shallow argument).run (.ofNodes []) = .ok r) :
    (Sample.shallow argument).barrier r.resumed ⟨.main, 0⟩ "ignore" =
      (.callDepthExceeded, "call to ignore nested deeper than 0") := by
  obtain ⟨horderly, -⟩ := run_orderly (Sample.isBuilt_shallow argument) h
  have hrunning := AnalysisState.running_script horderly.invariant.tree
    (Sample.main_shallow argument)
  have hdefined : (Sample.shallow argument).program.function? "ignore" ≠ none := by
    rw [Sample.function?_shallow]
    exact Option.some_ne_none _
  have hfree : ¬∃ c ∈ r.resumed.running ContextId.main, c.function.name = "ignore" := by
    rw [hrunning]
    rintro ⟨c, hc, hname⟩
    obtain rfl := List.mem_singleton.1 hc
    have hsame : "main" = "ignore" := hname
    exact absurd hsame (by decide)
  unfold barrier
  rw [if_neg hdefined, if_neg hfree]
  exact congrArg (Prod.mk Cause.callDepthExceeded)
    (by decide +kernel : "call to " ++ "ignore" ++ " nested deeper than " ++ toString 0 =
      "call to ignore nested deeper than 0")

set_option maxRecDepth 20000 in
/-- A result that is passed by reference, too: both outputs are the same variable. -/
theorem run_approximates_shallow : ∃ r t u,
    (Sample.shallow (.ofVariable "result")).run (.ofNodes []) = .ok r ∧
      r.snapshots[Point.mk .main 1]? = some t ∧ r.snapshots[Point.mk .main 0]? = some u ∧
      Approximates (some 16) u.memory
        ⟨.callDepthExceeded, "main:1", "call to ignore nested deeper than 0"⟩
        [.ofVariable "result", .ofVariable "result"] t.memory ∧
      .any ∈ t.memory.read (.ofVariable "result") := by
  obtain ⟨r, t, hrun, ht, -⟩ := exists_of_run (a := Sample.shallow (.ofVariable "result"))
    (w := .ofNodes []) (p := ⟨.main, 1⟩) (f := fun _ => ()) (x := ()) (by decide +kernel)
  obtain ⟨m, hm, h⟩ := run_approximates (p := ⟨.main, 1⟩) (Sample.isBuilt_shallow _) hrun ht
    (context_shallow hrun) rfl rfl rfl (Sample.barred_shallow _ _)
  unfold StartsBehind at hm
  rw [if_neg fun hentry => hentry.2 rfl] at hm
  obtain ⟨u, hu, rfl⟩ := hm
  dsimp only at h
  rw [barrier_shallow hrun, Sample.function?_shallow] at h
  refine ⟨r, t, u, hrun, ht, hu, h, h.any_mem_read_variable ?_ List.mem_cons_self⟩
  intro q hq
  rcases List.mem_cons.1 hq with rfl | hq
  · rfl
  · rw [List.mem_singleton.1 hq]
    rfl

set_option maxRecDepth 20000 in
/-- A result of which an element is passed by reference. The element becomes anything after the
result has become so, which makes an array of the result. -/
theorem run_spoils_result : ∃ r t c, (Sample.shallow
      ((Path.ofVariable "result").member (.key (.integer 1)))).run (.ofNodes []) = .ok r ∧
    r.snapshots[Point.mk .main 1]? = some t ∧ r.contexts[ContextId.main]? = some c ∧
      c.function.graph.statement? 1 = some (.callReturn (some (.ofVariable "result"))) ∧
      c.function.graph.callOf? 1 = some 0 ∧
      (∃ args, c.function.graph.statement? 0 = some (.call "ignore" args)) ∧
      AnalysisState.Barred (Sample.shallow ((Path.ofVariable "result").member (.key (.integer 1))))
        r.resumed ⟨.main, 0⟩ c.depth "ignore" ∧
      .any ∉ t.memory.read (.ofVariable "result") := by
  obtain ⟨r, t, hrun, ht, hread⟩ := exists_of_run
    (a := Sample.shallow ((Path.ofVariable "result").member (.key (.integer 1))))
    (w := .ofNodes []) (p := ⟨.main, 1⟩)
    (f := fun t => (t.memory.read (.ofVariable "result")).contains .any) (x := false)
    (by decide +kernel)
  refine ⟨r, t, _, hrun, ht, context_shallow hrun, rfl, rfl, ⟨_, rfl⟩,
    Sample.barred_shallow _ _, ?_⟩
  exact fun hany => Bool.eq_false_iff.1 hread (Entry.contains_eq_true.2 hany)

end Analysis
end ScriptMemory
