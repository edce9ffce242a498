import ScriptMemory.Proofs.Analysis.Driver

/-! The result of an analysis is a fixpoint: when a point is processed once more, its memory stays
as it is and the commit reports no change. -/
namespace ScriptMemory
open Std

namespace Report

/-- The state that a finished analysis can go on from: nothing waits, and the snapshots may be
changed in transactions again. -/
def resumed (r : Report) : AnalysisState where
  contexts := r.contexts
  calls := .tabulate (.ofList (r.contexts.filterMap (·.caller))) fun call =>
    r.contexts.findIdx (·.caller = some call)
  snapshots := r.snapshots.map fun _ t => { t with phase := .resting }

end Report

namespace Analysis
variable {a : Analysis} {s : AnalysisState} {p q u : Point} {c : Context} {st : Statement}
  {target : Option CallTarget} {view view' : Point → Option Memory} {r : Report}

/-- Calls are told by the contexts entered from them. -/
theorem calls_resumed (hs : s.Tree a) (h : r.contexts = s.contexts) :
    r.resumed.calls = s.calls := by
  apply ExtTreeMap.ext_getElem?
  intro call
  unfold Report.resumed
  dsimp only
  rw [OrdMap.getElem?_tabulate, h]
  cases hcall : s.calls[call]? with
  | none =>
    rw [if_neg]
    intro hmem
    rw [OrdSet.mem_ofList, List.mem_filterMap] at hmem
    obtain ⟨c, hc, hcaller⟩ := hmem
    obtain ⟨id, hid⟩ := List.mem_iff_getElem?.1 hc
    rw [(hs.calls call id).2 ⟨c, hid, hcaller⟩] at hcall
    cases hcall
  | some id =>
    obtain ⟨c, hc, hcaller⟩ := (hs.calls call id).1 hcall
    rw [if_pos]
    · -- the first context entered from the call is the only one
      have hex : ∃ c ∈ s.contexts, decide (c.caller = some call) = true :=
        ⟨c, List.mem_of_getElem? hc, decide_eq_true hcaller⟩
      have hlt : s.contexts.findIdx (fun c => decide (c.caller = some call)) < s.contexts.length :=
        List.findIdx_lt_length.2 hex
      have hfound := List.findIdx_getElem (w := hlt)
      have hfirst := (hs.calls call (s.contexts.findIdx fun c => decide (c.caller = some call))).2
        ⟨_, List.getElem?_eq_getElem hlt, of_decide_eq_true hfound⟩
      rw [hcall] at hfirst
      exact hfirst.symm
    · rw [OrdSet.mem_ofList, List.mem_filterMap]
      exact ⟨c, List.mem_of_getElem? hc, hcaller⟩

theorem resumed_eq (hs : s.Tree a) (hrests : a.Rests s) (hempty : s.worklist = .empty)
    (hcontexts : r.contexts = s.contexts)
    (hsnapshots : ∀ p : Point,
      r.snapshots[p]? = (s.snapshots[p]?).map fun t => { t with phase := .frozen }) :
    r.resumed = s := by
  have hmap : r.resumed.snapshots = s.snapshots := by
    apply ExtTreeMap.ext_getElem?
    intro p
    unfold Report.resumed
    dsimp only
    rw [ExtTreeMap.getElem?_map, hsnapshots, Option.map_map]
    cases hp : s.snapshots[p]? with
    | none => rfl
    | some t =>
      have hphase := (hrests p t hp).2.1
      cases t
      dsimp only at hphase
      rw [hphase]
      rfl
  have hcalls := calls_resumed hs hcontexts
  cases s
  dsimp only at hcontexts hcalls hmap hempty
  rw [← hcontexts, ← hcalls, ← hmap, hempty]
  rfl

/-- If no exit has outgoing edges, the intake of a point depends on what flows to it only. -/
theorem intake?_congr (hsite : a.Site s q c st target) (hp : a.program.IsBuilt) (hs : s.Tree a)
    (hexit : ∀ e ∈ c.function.graph.edges, e.1 ≠ c.function.graph.exit)
    (hv : ∀ u, Flow s.contexts u q → view u = view' u) :
    intake? s.contexts c q st target view = intake? s.contexts c q st target view' := by
  have hbuilt := hs.isBuilt hp hsite.context
  have hcallee (hentry : ¬(q.node = c.function.graph.entry ∧ q.context ≠ .main)) :
      c.caller ≠ none → q.node ≠ c.function.graph.entry := fun hcaller hq =>
    hentry ⟨hq, (hs.ne_main_iff hsite.context).2 hcaller⟩
  cases hsite.intakeRule hp hs with
  | @entry _ call _ hentry hcaller _ =>
    have hf : Flow s.contexts call q := by
      have hq : q = ⟨q.context, c.function.graph.entry⟩ := by rw [← hentry.1]
      rw [hq]
      exact .enter hsite.context hcaller
    rw [intake?_entry hentry, intake?_entry hentry, hcaller, Option.bind_some, Option.bind_some,
      hv call hf]
  | callReturn hentry hst hnode hc hcaller =>
    have hf := Flow.leave hc hcaller hsite.context (hbuilt.callReturnOf?_iff.2 hnode)
      (hcallee hentry)
    rw [intake?_callReturn hentry hst hc, intake?_callReturn hentry hst hc, hv _ hf]
  | @approximated _ _ _ node hentry hst hnode hnone =>
    have he := Graph.mem_edges_of_callOf? hnode
    have hf : Flow s.contexts ⟨q.context, node⟩ q := by
      refine .edge hsite.context he ?_ fun hcaller => ⟨hexit _ he, hcallee hentry hcaller⟩
      intro id c' hc' hcaller
      rw [(hs.calls _ id).2 ⟨c', hc', hcaller⟩] at hnone
      cases hnone
    rw [intake?_approximated hentry hst hnode, intake?_approximated hentry hst hnode, hv _ hf]
  | join hentry hst =>
    rw [intake?_join hentry hst, intake?_join hentry hst]
    apply joinIntake_congr
    intro node hnode
    have he := Graph.mem_predecessors.1 hnode
    apply hv
    refine .edge hsite.context he ?_ fun hcaller => ⟨hexit _ he, hcallee hentry hcaller⟩
    -- an analysed call is followed by its call-return only
    intro id c' hc' hcaller
    obtain ⟨name, args, hcall⟩ := hs.isCall hc' hcaller hsite.context
    obtain ⟨j, result, hj, hreturn⟩ := hbuilt.successors_call hcall
    have hq : q.node ∈ c.function.graph.successors node := Graph.mem_successors.2 he
    rw [hj, List.mem_singleton] at hq
    rw [← hq, hsite.statement] at hreturn
    cases hreturn
    cases hst

/-- Where nothing is pending, every point with a snapshot is a fixpoint: a step there stores a
snapshot with the same memory and queues nothing. -/
theorem step_of_settled (hp : a.program.IsBuilt) (hinv : a.Invariant s fun _ => False)
    (hexit : ∀ name f, a.program.function? name = some f →
      ∀ e ∈ f.graph.edges, e.1 ≠ f.graph.exit)
    {t : Snapshot} (ht : s.snapshots[p]? = some t) :
    ∃ t', a.step s p = .ok { s with snapshots := s.snapshots.insert p t' } ∧
      t'.memory = t.memory ∧ t'.changed = false ∧ t'.limits = t.limits ∧
      t'.commits = t.commits + 1 := by
  have hseen : (s.view p).isSome := by
    rw [AnalysisState.view_eq_some ht]
    rfl
  have hprevious : a.previous s p = t := previous_eq ht
  obtain ⟨c, st, target, view, x, n, before, t₀, ht₀, hout, hflow⟩ :=
    (hinv.settled p hseen).resolve_left id
  obtain rfl : t = t₀ := Option.some.inj (ht.symm.trans ht₀)
  have hgraph : ∀ e ∈ c.function.graph.edges, e.1 ≠ c.function.graph.exit := by
    obtain ⟨name, hname⟩ := hinv.tree.function hout.site.context
    exact hexit name _ hname
  -- what flowed to the point when it was visited last is what is in view now
  have hintake : intake? s.contexts c p st target (s.viewFrom p (a.previous s p)) = some x := by
    rw [← hout.intake]
    exact intake?_congr hout.site hp hinv.tree hgraph fun u hf =>
      (viewFrom_previous hseen u).trans (hflow u hf).symm
  obtain ⟨input, hinput, hcases⟩ := visitWith_spec hp hinv.tree hinv.rests hout.site
  rw [step_eq hout.site.context hout.site.statement hout.site.target hinput]
  rw [hintake, hprevious] at hcases
  rcases hcases with ⟨hnone, -⟩ | ⟨x', hx, ⟨n', t', hout', hcommits, hchanged, hok⟩ | ⟨hrefused, -⟩⟩
  · cases hnone
  · obtain rfl := Option.some.inj hx
    obtain ⟨rfl, -⟩ := (hout.yields .initial).unique (hout'.yields .initial)
    -- the same draft is committed again, over what became of it the last time
    have hmemory : t'.memory = t.memory := by
      rw [hout'.memory, hcommits, hout.memory]
      exact Memory.committed_committed _ _ _ _
    refine ⟨t', ?_, hmemory, ?_, hout'.limits.trans hout.limits.symm, hcommits⟩
    · rw [hok]
      unfold visited recordVisit
      rw [ht, hprevious, if_neg (by simp [hmemory])]
    · rw [hchanged, hmemory]
      exact decide_eq_false fun hne => hne rfl
  · cases hx
    obtain ⟨level, hfits⟩ := hout.fits
    exact absurd hfits (hrefused level)

/-- The result is a fixpoint. When any point of any context is processed once more, nothing is
queued, and its memory stays as it is. -/
theorem step_resumed {nodes : List Nat} (hp : a.program.IsBuilt)
    (hexit : ∀ name f, a.program.function? name = some f →
      ∀ e ∈ f.graph.edges, e.1 ≠ f.graph.exit)
    (h : a.run (.ofNodes nodes) = .ok r) {t : Snapshot} (ht : r.snapshots[p]? = some t) :
    ∃ t', a.step r.resumed p =
        .ok { r.resumed with snapshots := r.resumed.snapshots.insert p t' } ∧
      t'.memory = t.memory ∧ t'.changed = false ∧ t'.limits = t.limits ∧
      t'.commits = t.commits + 1 := by
  obtain ⟨s, hinv, hempty, hcontexts, hsnapshots⟩ := run_ok hp (Worklist.consistent_ofNodes nodes) h
  rw [resumed_eq hinv.tree hinv.rests hempty hcontexts hsnapshots]
  -- the report has the snapshots of the last state, but for their phase
  rw [hsnapshots] at ht
  obtain ⟨old, hold, rfl⟩ := Option.map_eq_some_iff.1 ht
  obtain ⟨t', hstep, hmemory, hchanged, hlimits, hcommits⟩ := step_of_settled hp hinv hexit hold
  exact ⟨t', hstep, hmemory, hchanged, hlimits, hcommits⟩

end Analysis

namespace Sample

/-- A body that copies its parameter any number of times and returns the copy. -/
def copying : Graph where
  nodes := [⟨0, .enter⟩, ⟨1, .assign (.ofVariable "copy") (.read (.ofVariable "value"))⟩,
    ⟨2, .branch .any⟩, ⟨3, .returnValue (some (.read (.ofVariable "copy")))⟩, ⟨4, .exit⟩]
  edges := [(0, 1), (1, 2), (2, 1), (2, 3), (3, 4)]
  entry := 0
  exit := 4

/-- A script that calls a function once. -/
def calling (name : String) (argument : Expression) : Graph where
  nodes := [⟨0, .call name [argument]⟩, ⟨1, .callReturn (some (.ofVariable "result"))⟩, ⟨2, .exit⟩]
  edges := [(0, 1), (1, 2)]
  entry := 0
  exit := 2

theorem isBuilt_copying : copying.IsBuilt :=
  ⟨{ nodes := copying.nodes, edges := [(0, 1), (1, 2), (2, 1), (2, 3), (3, 4)] }, rfl⟩

theorem isBuilt_calling (name : String) (argument : Expression) :
    (calling name argument).IsBuilt :=
  ⟨{ nodes := (calling name argument).nodes, edges := [(0, 1), (1, 2)] }, rfl⟩

/-- A script whose only call leads to a loop. -/
def loop : Analysis where
  program := (Program.withFunction {} ⟨"copy", [⟨"value", false⟩], copying⟩).withFunction
    ⟨"main", [], calling "copy" .any⟩

theorem isBuilt_loop : loop.program.IsBuilt :=
  (Program.isBuilt_empty.withFunction isBuilt_copying).withFunction (isBuilt_calling _ _)

set_option maxRecDepth 20000 in
theorem run_loop : ((loop.run (.ofNodes [1])).toOption.bind
    fun r => r.snapshots[Point.mk 1 1]?).isSome = true := by
  decide +kernel

end Sample

namespace Analysis

/-- The head of the loop, inside the call, stays as it is. -/
theorem step_resumed_loop : ∃ r t t', Sample.loop.run (.ofNodes [1]) = .ok r ∧
    r.snapshots[Point.mk 1 1]? = some t ∧
    Sample.loop.step r.resumed ⟨1, 1⟩ =
      .ok { r.resumed with snapshots := r.resumed.snapshots.insert ⟨1, 1⟩ t' } ∧
    t'.memory = t.memory ∧ t'.changed = false := by
  have hrun := Sample.run_loop
  cases hr : Sample.loop.run (.ofNodes [1]) with
  | error e =>
    rw [hr] at hrun
    cases hrun
  | ok r =>
    rw [hr] at hrun
    obtain ⟨t, ht⟩ := Option.isSome_iff_exists.1 hrun
    obtain ⟨t', hstep, hmemory, hchanged, -⟩ := step_resumed Sample.isBuilt_loop
      (Program.forall_withFunction (by decide)
        (Program.forall_withFunction (by decide) Program.forall_empty)) hr ht
    exact ⟨r, t, t', rfl, ht, hstep, hmemory, hchanged⟩

end Analysis
end ScriptMemory
