import Mathlib.Logic.Relation
import ScriptMemory.Proofs.Analysis.Fixpoint

/-! Findings on their way to the report. A finding goes wherever memory flows. Control may also go
back to the entry of a called function, or on from its exit; there the driver takes no memory over,
and a finding made on such a way can be lost. -/
namespace ScriptMemory
open Std

/-- Control goes on from one point to another: along an edge, unless the first point is an analysed
call, from an analysed call into the function, and from the end of the function behind the call. -/
inductive Control (contexts : List Context) : Point → Point → Prop
  | edge {id : ContextId} {i j : Nat} {c : Context} (hc : contexts[id]? = some c)
      (he : (i, j) ∈ c.function.graph.edges)
      (hcall : ∀ (id' : ContextId) c', contexts[id']? = some c' → c'.caller ≠ some ⟨id, i⟩) :
      Control contexts ⟨id, i⟩ ⟨id, j⟩
  | enter {u : Point} {id : ContextId} {c : Context} (hc : contexts[id]? = some c)
      (hu : c.caller = some u) : Control contexts u ⟨id, c.function.graph.entry⟩
  | leave {id : ContextId} {c caller : Context} {call : Point} {node : Nat}
      (hc : contexts[id]? = some c) (hcall : c.caller = some call)
      (hctx : contexts[call.context]? = some caller)
      (hnode : caller.function.graph.callReturnOf? call.node = some node) :
      Control contexts ⟨id, c.function.graph.exit⟩ ⟨call.context, node⟩

/-- The driver ignores that control goes from `u` to `v`: `v` is the entry of a called function and
`u` is not its call, or `u` is the exit of a called function and `v` is another point of it. -/
def Ignored (contexts : List Context) (u v : Point) : Prop :=
  (∃ c, contexts[v.context]? = some c ∧ c.caller ≠ none ∧ c.caller ≠ some u ∧
      v.node = c.function.graph.entry) ∨
    ∃ c, contexts[u.context]? = some c ∧ c.caller ≠ none ∧ v.context = u.context ∧
      u.node = c.function.graph.exit

namespace Report

/-- Every finding at `u` is at `v`, too. -/
def Carries (r : Report) (u v : Point) : Prop :=
  ∀ t, r.snapshots[u]? = some t →
    ∃ t', r.snapshots[v]? = some t' ∧ ∀ f ∈ t.memory.findings, f ∈ t'.memory.findings

/-- Control gets from `u` to `v` without a step that the driver ignores. -/
def Reaches (r : Report) : Point → Point → Prop :=
  Relation.ReflTransGen fun u v => Control r.contexts u v ∧ ¬Ignored r.contexts u v

theorem Carries.trans {r : Report} {u v w : Point} (h : r.Carries u v) (h' : r.Carries v w) :
    r.Carries u w := by
  intro t ht
  obtain ⟨t', ht', hf⟩ := h t ht
  obtain ⟨t'', ht'', hf'⟩ := h' t' ht'
  exact ⟨t'', ht'', fun f hm => hf' f (hf f hm)⟩

theorem Carries.refl (r : Report) (u : Point) : r.Carries u u :=
  fun t ht => ⟨t, ht, fun _ h => h⟩

end Report

namespace Analysis
variable {a : Analysis} {s : AnalysisState} {u v : Point} {r : Report}

/-- Where control goes and is not ignored, memory flows. -/
theorem flow_of_control (hs : s.Tree a) (hp : a.program.IsBuilt) (h : Control s.contexts u v)
    (hi : ¬Ignored s.contexts u v) : Flow s.contexts u v := by
  cases h with
  | @edge id i j c hc he hcall =>
    refine .edge hc he hcall fun hcaller => ⟨?_, ?_⟩
    · exact fun hexit => hi (.inr ⟨c, hc, hcaller, rfl, hexit⟩)
    · exact fun hentry => hi (.inl ⟨c, hc, hcaller, hcall id c hc, hentry⟩)
  | enter hc hu => exact .enter hc hu
  | @leave id c caller call node hc hcall hctx hnode =>
    refine .leave hc hcall hctx hnode fun hcaller hentry =>
      hi (.inl ⟨caller, hctx, hcaller, ?_, hentry⟩)
    -- an exit is not a call
    intro hu
    obtain ⟨name, args, hst⟩ := hs.isCall hctx hu hc
    rw [(hs.isBuilt hp hc).statement?_exit] at hst
    cases hst

/-- What flows to a settled point is in its memory. -/
theorem reports_of_settled (hinv : a.Invariant s fun _ => False) (hp : a.program.IsBuilt)
    (hf : Flow s.contexts u v) {m : Memory} (hm : s.view u = some m) :
    ∃ t, s.snapshots[v]? = some t ∧ ∀ f, m.Reports f → t.memory.Reports f := by
  have hreached := (hinv.reached u v hf (by rw [hm]; rfl)).resolve_left id
  obtain ⟨c, st, target, view, x, n, before, t, ht, hout, hflow⟩ :=
    (hinv.settled v hreached).resolve_left id
  obtain ⟨x', hx', hmem⟩ :=
    intake?_of_flow hf hout.site hp hinv.tree ((hflow u hf).trans hm)
  obtain rfl : x = x' := Option.some.inj (hout.intake.symm.trans hx')
  obtain ⟨level, -, hframe⟩ := hout.frame
  exact ⟨t, ht, fun f hr => hframe.reports f ⟨m, hmem, hr⟩⟩

theorem carries_of_flow {nodes : List Nat} (hp : a.program.IsBuilt)
    (h : a.run (.ofNodes nodes) = .ok r) (hc : Control r.contexts u v)
    (hi : ¬Ignored r.contexts u v) : r.Carries u v := by
  obtain ⟨s, hinv, -, hcontexts, hsnapshots⟩ := run_ok hp (Worklist.consistent_ofNodes nodes) h
  rw [hcontexts] at hc hi
  intro t ht
  rw [hsnapshots] at ht
  obtain ⟨old, hold, rfl⟩ := Option.map_eq_some_iff.1 ht
  obtain ⟨t', ht', hreports⟩ := reports_of_settled hinv hp
    (flow_of_control hinv.tree hp hc hi) (AnalysisState.view_eq_some hold)
  refine ⟨{ t' with phase := .frozen }, ?_, ?_⟩
  · rw [hsnapshots, ht']
    rfl
  · intro f hf
    exact Memory.mem_findings.2 (hreports f (Memory.mem_findings.1 hf))

theorem carries_of_reaches {nodes : List Nat} (hp : a.program.IsBuilt)
    (h : a.run (.ofNodes nodes) = .ok r) (hr : r.Reaches u v) : r.Carries u v := by
  induction hr with
  | refl => exact .refl r u
  | tail _ hstep ih => exact ih.trans (carries_of_flow hp h hstep.1 hstep.2)

/-- Findings are carried wherever control goes and is not ignored; those made at a point from which
the end of the script is reached in this way are reported. -/
theorem findings_carried {nodes : List Nat} (hp : a.program.IsBuilt)
    (h : a.run (.ofNodes nodes) = .ok r) :
    (∀ u v, Control r.contexts u v → ¬Ignored r.contexts u v → r.Carries u v) ∧
      ∀ u t main, r.main? = some main → r.Reaches u ⟨.main, main.graph.exit⟩ →
        r.snapshots[u]? = some t → ∀ f ∈ t.memory.findings, f ∈ r.warnings := by
  refine ⟨fun u v => carries_of_flow hp h, ?_⟩
  intro u t main hmain hreaches ht f hf
  obtain ⟨t', ht', hcarried⟩ := carries_of_reaches hp h hreaches t ht
  have hexit : r.exit? = some t' := by
    unfold Report.exit?
    rw [hmain]
    exact ht'
  unfold Report.warnings
  rw [hexit]
  exact hcarried f hf

end Analysis

namespace Sample

/-- A body with a loop that reads an undefined variable and goes back to the node `back`. -/
def reading (back : Nat) : Graph where
  nodes := [⟨0, .enter⟩, ⟨1, .branch .any⟩, ⟨2, .echo (.read (.ofVariable "missing"))⟩, ⟨3, .exit⟩]
  edges := [(0, 1), (1, 2), (1, 3), (2, back)]
  entry := 0
  exit := 3

theorem isBuilt_reading_one : (reading 1).IsBuilt :=
  ⟨{ nodes := (reading 1).nodes, edges := [(0, 1), (1, 2), (1, 3), (2, 1)] }, rfl⟩

theorem isBuilt_reading_zero : (reading 0).IsBuilt :=
  ⟨{ nodes := (reading 0).nodes, edges := [(0, 1), (1, 2), (1, 3), (2, 0)] }, rfl⟩

/-- A script whose only call leads to such a loop. -/
def readingLoop (back : Nat) : Analysis where
  program := (Program.withFunction {} ⟨"read", [⟨"value", false⟩], reading back⟩).withFunction
    ⟨"main", [], calling "read" .any⟩

/-- The contexts of the script and of its call. -/
def readingContexts (back : Nat) : List Context :=
  [⟨⟨"main", [], calling "read" .any⟩, none, 0⟩,
    ⟨⟨"read", [⟨"value", false⟩], reading back⟩, some ⟨0, 0⟩, 1⟩]

/-- What the loop reports. -/
def missing : Finding where
  cause := .undefinedVariable
  location := "read:2"
  message := "$missing may be undefined"

theorem isBuilt_readingLoop {back : Nat} (h : (reading back).IsBuilt) :
    (readingLoop back).program.IsBuilt :=
  (Program.isBuilt_empty.withFunction h).withFunction (isBuilt_calling _ _)

/-- What is found at a node of the loop, and what is reported in the end. -/
def found (r : Report) (node : Nat) : Option (List Finding) :=
  (r.snapshots[Point.mk 1 node]?).map (·.memory.findings)

set_option maxRecDepth 20000 in
theorem run_readingLoop_one : ((readingLoop 1).run .empty).toOption.map
    (fun r => (r.contexts, found r 2, found r 1, r.warnings)) =
      some (readingContexts 1, some [missing], some [missing], [missing]) := by
  decide +kernel

set_option maxRecDepth 20000 in
theorem run_readingLoop_zero : ((readingLoop 0).run .empty).toOption.map
    (fun r => (r.contexts, found r 2, found r 0, r.warnings)) =
      some (readingContexts 0, some [missing], some [], []) := by
  decide +kernel

/-- In the loop control goes back from the read to `back`. -/
theorem control_back (back : Nat) : Control (readingContexts back) ⟨1, 2⟩ ⟨1, back⟩ := by
  refine .edge (c := ⟨⟨"read", [⟨"value", false⟩], reading back⟩, some ⟨0, 0⟩, 1⟩) rfl ?_ ?_
  · simp [reading]
  · intro id c hc
    match id, hc with
    | 0, hc =>
      cases hc
      exact fun h => by cases h
    | 1, hc =>
      cases hc
      exact fun h => by cases h

/-- The way back to the head of the loop is not ignored. -/
theorem not_ignored_back : ¬Ignored (readingContexts 1) ⟨1, 2⟩ ⟨1, 1⟩ := by
  rintro (⟨c, hc, -, -, hentry⟩ | ⟨c, hc, -, -, hexit⟩)
  · cases hc
    cases hentry
  · cases hc
    cases hexit

end Sample

namespace Analysis

theorem findings_carried_readingLoop : ∃ r,
    (Sample.readingLoop 1).run (.ofNodes []) = .ok r ∧ r.Carries ⟨1, 2⟩ ⟨1, 1⟩ ∧
      Sample.missing ∈ r.warnings := by
  have hrun := Sample.run_readingLoop_one
  cases hr : (Sample.readingLoop 1).run .empty with
  | error e =>
    rw [hr] at hrun
    cases hrun
  | ok r =>
    rw [hr] at hrun
    simp only [Except.toOption, Option.map_some, Option.some.injEq, Prod.mk.injEq] at hrun
    obtain ⟨hcontexts, -, -, hwarnings⟩ := hrun
    refine ⟨r, hr, ?_, ?_⟩
    · have hrun : (Sample.readingLoop 1).run (.ofNodes []) = .ok r := hr
      apply (findings_carried (Sample.isBuilt_readingLoop Sample.isBuilt_reading_one) hrun).1
      · rw [hcontexts]
        exact Sample.control_back 1
      · rw [hcontexts]
        exact Sample.not_ignored_back
    · rw [hwarnings]
      exact List.mem_singleton_self _

/-- A finding that control carries back to the entry of a called function is lost. -/
theorem findings_lost : (Sample.readingLoop 0).program.IsBuilt ∧
    ∃ r t t', (Sample.readingLoop 0).run (.ofNodes []) = .ok r ∧
      Control r.contexts ⟨1, 2⟩ ⟨1, 0⟩ ∧
      r.snapshots[Point.mk 1 2]? = some t ∧ Sample.missing ∈ t.memory.findings ∧
      r.snapshots[Point.mk 1 0]? = some t' ∧ Sample.missing ∉ t'.memory.findings ∧
      r.warnings = [] := by
  refine ⟨Sample.isBuilt_readingLoop Sample.isBuilt_reading_zero, ?_⟩
  have hrun := Sample.run_readingLoop_zero
  cases hr : (Sample.readingLoop 0).run .empty with
  | error e =>
    rw [hr] at hrun
    cases hrun
  | ok r =>
    rw [hr] at hrun
    simp only [Except.toOption, Option.map_some, Option.some.injEq, Prod.mk.injEq] at hrun
    obtain ⟨hcontexts, hread, hentry, hwarnings⟩ := hrun
    obtain ⟨t, ht, hfindings⟩ := Option.map_eq_some_iff.1 hread
    obtain ⟨t', ht', hfindings'⟩ := Option.map_eq_some_iff.1 hentry
    refine ⟨r, t, t', hr, ?_, ht, ?_, ht', ?_, hwarnings⟩
    · rw [hcontexts]
      exact Sample.control_back 0
    · rw [hfindings]
      exact List.mem_singleton_self _
    · rw [hfindings']
      exact List.not_mem_nil

end Analysis
end ScriptMemory
