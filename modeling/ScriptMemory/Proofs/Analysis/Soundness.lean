import ScriptMemory.Proofs.Analysis.Driver
import ScriptMemory.Proofs.Covering

/-! The analysis is sound on scalar scripts: whatever an execution makes of the variables is
described by the snapshot of the node it gets past. In the end every snapshot was made from those of
the nodes before it, so one that covers the stores there covers what the statement makes of them. -/
namespace ScriptMemory
open Std

namespace AnalysisState
variable {a : Analysis} {s : AnalysisState} {c : Context} {main : Function}

/-- A scalar script calls nothing, so it has one context. -/
theorem Tree.eq_main (hs : s.Tree a) (hmain : a.program.main = .ok main) (hscalar : main.IsScalar)
    {id : ContextId} (hc : s.contexts[id]? = some c) : id = .main ∧ c = ⟨main, none, 0⟩ := by
  obtain ⟨f, hf, hroot⟩ := hs.root
  obtain rfl : main = f := Except.ok.inj (hmain.symm.trans hf)
  induction id using Nat.strongRecOn generalizing c with
  | ind id ih =>
    cases hcaller : c.caller with
    | none =>
      obtain rfl := hs.orphan id c hc hcaller
      exact ⟨rfl, Option.some.inj (hc.symm.trans hroot)⟩
    | some call =>
      obtain ⟨caller, name, args, hctx, hst, -⟩ := hs.entered id c call hc hcaller
      obtain ⟨-, rfl⟩ := ih call.context (hs.older id c call hc hcaller) hctx
      cases hscalar.statement hst

/-- Memory flows along every edge of a scalar script. -/
theorem Tree.flow_of_edge (hs : s.Tree a) (hmain : a.program.main = .ok main)
    (hscalar : main.IsScalar) {i j : Nat} (he : (i, j) ∈ main.graph.edges) :
    Flow s.contexts ⟨.main, i⟩ ⟨.main, j⟩ := by
  obtain ⟨f, hf, hroot⟩ := hs.root
  obtain rfl : main = f := Except.ok.inj (hmain.symm.trans hf)
  refine .edge hroot he ?_ fun hcaller => absurd rfl hcaller
  intro id c hc hcaller
  obtain ⟨-, rfl⟩ := hs.eq_main hmain hscalar hc
  cases hcaller

end AnalysisState

namespace Analysis
open Transact
variable {a : Analysis} {s s' : AnalysisState} {p : Point} {c : Context} {st : Statement}
  {target : Option CallTarget} {view : Point → Option Memory} {x : Intake} {m n before : Memory}
  {t : Snapshot} {main : Function} {S : Store → Prop} {r : Report}

/-- What a point of a scalar script is made from. -/
theorem Outcome.intake_scalar (hout : a.Outcome s p c st target view x n before t) (hs : s.Tree a)
    (hmain : a.program.main = .ok main) (hscalar : main.IsScalar) :
    p.context = .main ∧ main.graph.statement? p.node = some st ∧ st.isScalar = true ∧
      ∃ sources, x = .join sources ∧ sources ≠ [] ∧
        ∀ m, m ∈ sources ↔ m = .initial ∧ p.node = main.graph.entry ∨
          ∃ node, (node, p.node) ∈ main.graph.edges ∧ view ⟨.main, node⟩ = some m := by
  obtain ⟨hctx, rfl⟩ := hs.eq_main hmain hscalar hout.site.context
  have hst := hscalar.statement hout.site.statement
  have hx := hout.intake
  rw [intake?_join (fun h => h.2 hctx) (Statement.not_call_of_isScalar hst).2] at hx
  refine ⟨hctx, hout.site.statement, hst, ?_⟩
  rw [← hctx]
  exact joinIntake_eq_some hx

/-- The memory of a point of a scalar script covers what its statement makes of the stores that one
of the memories covers that it is made from. -/
theorem Outcome.covers (hout : a.Outcome s p c st target view x n before t) (hs : s.Tree a)
    (hmain : a.program.main = .ok main) (hscalar : main.IsScalar)
    (hplain : ∀ m ∈ x.memories, m.Plain) (hm : m ∈ x.memories) (h : m.Covers S) :
    t.memory.Covers (st.after S) := by
  obtain ⟨-, -, hst, sources, rfl, hne, -⟩ := hout.intake_scalar hs hmain hscalar
  have htaken : (Memory.takenOver a.config.limits.simplify sources).Covers S :=
    Memory.covers_takenOver hplain hm h _
  -- the draft of the join, the statement on it, and the commit cover the store in turn
  obtain ⟨d, hd, -, hrun⟩ := Edit.extend_run hne (fun m hm => (hplain m hm).level_eq)
    a.config.limits.simplify
  obtain ⟨k, hy, hk⟩ := yields_apply htaken hst a s c.function p target a.config.limits
  rw [← hd] at hy
  obtain ⟨rfl, -⟩ := (hout.yields .initial).unique ((Yields.mutate (hrun .initial)).bind hy)
  rw [hout.memory]
  exact hk.committed _ _ _

theorem plain_viewFrom (h : ∀ q m, s.view q = some m → m.Plain) {u : Point}
    (hm : s.viewFrom p (a.previous s p) u = some m) : m.Plain := by
  rcases viewFrom_eq_some hm with hview | ⟨-, -, rfl⟩
  · exact h u m hview
  · exact Memory.plain_initial

/-- A step of a scalar script leaves plain memory only. -/
theorem plain_step (hp : a.program.IsBuilt) (hmain : a.program.main = .ok main)
    (hscalar : main.IsScalar) (hs : s.Tree a) (hrests : a.Rests s)
    (h : ∀ q m, s.view q = some m → m.Plain) (hstep : a.step s p = .ok s') :
    ∀ q m, s'.view q = some m → m.Plain := by
  rcases step_ok hp hs hrests hstep with
    ⟨-, rfl⟩ | ⟨r, c, st, target, hr, -, hsnapshots, -, -, hcases⟩
  · exact h
  · rw [← view_congr hsnapshots] at h
    rcases hcases with ⟨-, rfl⟩ | ⟨x, n, t, hout, rfl⟩
    · exact h
    · -- a visit makes plain memory of plain memory
      have hplain : ∀ m ∈ x.memories, m.Plain := by
        intro m hm
        rcases mem_intake hout.intake hm with rfl | ⟨u, hu⟩
        · exact Memory.plain_initial
        · exact plain_viewFrom h hu
      obtain ⟨-, -, -, sources, rfl, hne, -⟩ := hout.intake_scalar hr hmain hscalar
      obtain ⟨m₀, hm₀⟩ := List.exists_mem_of_ne_nil sources hne
      have ht := hout.covers hr hmain hscalar hplain hm₀ (hplain m₀ hm₀).covers_none
      intro q m hm
      rw [view_visited] at hm
      split at hm
      · cases hm
        exact ht.toPlain
      · exact h q m hm

/-- In the end the memory of a point covers what its statement makes of the stores covered before
it. -/
theorem covers_of_settled (hinv : a.Invariant s fun _ => False)
    (hmain : a.program.main = .ok main) (hscalar : main.IsScalar)
    (h : ∀ q m, s.view q = some m → m.Plain) {node : Nat}
    (hst : main.graph.statement? node = some st)
    (hseen : (s.view ⟨.main, node⟩).isSome)
    (hm : m = .initial ∧ node = main.graph.entry ∨
      ∃ i, (i, node) ∈ main.graph.edges ∧ s.view ⟨.main, i⟩ = some m) (hcovers : m.Covers S) :
    ∃ k, s.view ⟨.main, node⟩ = some k ∧ k.Covers (st.after S) := by
  obtain ⟨c, st', target, view, x, n, before, t, ht, hout, hflow⟩ :=
    (hinv.settled _ hseen).resolve_left id
  obtain ⟨-, hst', -, sources, rfl, -, hsources⟩ := hout.intake_scalar hinv.tree hmain hscalar
  obtain rfl : st = st' := Option.some.inj (hst.symm.trans hst')
  -- what was seen of the nodes before is what is in view now
  have hsame {i : Nat} (he : (i, node) ∈ main.graph.edges) :
      view ⟨.main, i⟩ = s.view ⟨.main, i⟩ :=
    hflow _ (hinv.tree.flow_of_edge hmain hscalar he)
  have hplain : ∀ m ∈ sources, m.Plain := by
    intro m hm
    rcases (hsources m).1 hm with ⟨rfl, -⟩ | ⟨i, he, hi⟩
    · exact Memory.plain_initial
    · rw [hsame he] at hi
      exact h _ m hi
  have hmem : m ∈ sources := by
    rw [hsources]
    refine hm.imp_right ?_
    rintro ⟨i, he, hi⟩
    exact ⟨i, he, (hsame he).trans hi⟩
  exact ⟨t.memory, AnalysisState.view_eq_some ht,
    hout.covers hinv.tree hmain hscalar hplain hmem hcovers⟩

theorem Statement.after_of_runs {st : Statement} {σ σ' : Store} (hrun : st.Runs σ σ') :
    ∀ τ, τ = σ' → st.after (· = σ) τ := by
  rintro _ rfl
  exact ⟨σ, rfl, hrun⟩

/-- Memory that covers a store leads along an edge to memory that covers what comes of the store. -/
theorem covers_of_edge (hinv : a.Invariant s fun _ => False)
    (hmain : a.program.main = .ok main) (hscalar : main.IsScalar)
    (h : ∀ q m, s.view q = some m → m.Plain) {i j : Nat} {σ σ' : Store}
    (he : (i, j) ∈ main.graph.edges) (hm : s.view ⟨.main, i⟩ = some m) (hcovers : m.Covers (· = σ))
    (hst : main.graph.statement? j = some st) (hrun : st.Runs σ σ') :
    ∃ k, s.view ⟨.main, j⟩ = some k ∧ k.Covers (· = σ') := by
  have hf := hinv.tree.flow_of_edge hmain hscalar he
  have hseen := (hinv.reached _ _ hf (by rw [hm]; rfl)).resolve_left id
  obtain ⟨k, hk, hcovers'⟩ := covers_of_settled hinv hmain hscalar h hst hseen
    (.inr ⟨i, he, hm⟩) hcovers
  exact ⟨k, hk, hcovers'.mono (Statement.after_of_runs hrun)⟩

/-- Wherever an execution gets, there is memory that covers its store. -/
theorem covers_of_executes (hinv : a.Invariant s fun _ => False)
    (hmain : a.program.main = .ok main) (hscalar : main.IsScalar)
    (h : ∀ q m, s.view q = some m → m.Plain) {node : Nat} {σ : Store}
    (hexec : main.graph.Executes node σ) :
    ∃ m, s.view ⟨.main, node⟩ = some m ∧ m.Covers (· = σ) := by
  -- by induction on the path: what was reached is in view, and what is in view is settled
  induction hexec with
  | @entry st σ hst hrun =>
    have hreturn : (main.graph.statement? main.graph.entry).any Statement.isCallReturn = false := by
      rw [hst]
      exact (Statement.not_call_of_isScalar (hscalar.statement hst)).2
    have hseen := (hinv.start main hmain hreturn).resolve_left id
    obtain ⟨k, hk, hcovers⟩ := covers_of_settled hinv hmain hscalar h hst hseen (.inl ⟨rfl, rfl⟩)
      Memory.covers_initial
    exact ⟨k, hk, hcovers.mono (Statement.after_of_runs hrun)⟩
  | @edge i j st σ σ' _ he hst hrun ih =>
    obtain ⟨m, hm, hcovers⟩ := ih
    exact covers_of_edge hinv hmain hscalar h he hm hcovers hst hrun

/-- The analysis is sound on scalar scripts. If it ends with a report, then for every execution of
the script up to a node there is a snapshot of that node, and what is read of any variable there
describes what the variable holds. -/
theorem run_sound {nodes : List Nat} (hp : a.program.IsBuilt) (hmain : a.program.main = .ok main)
    (hscalar : main.IsScalar) (h : a.run (.ofNodes nodes) = .ok r) {node : Nat} {σ : Store}
    (hexec : main.graph.Executes node σ) :
    ∃ t, r.snapshots[Point.mk .main node]? = some t ∧
      ∀ p : Path, p.isVariable = true → (t.memory.read p).Describes (σ p.name) := by
  obtain ⟨s, hinv, hplain, -, -, hsnapshots⟩ := run_ok_of hp (Worklist.consistent_ofNodes nodes) h
    (K := fun s => ∀ q m, s.view q = some m → m.Plain)
    (by
      intro main _ q m hm
      cases hm)
    (fun s p s' hinv hplain hstep =>
      plain_step hp hmain hscalar hinv.tree hinv.rests hplain hstep)
    (fun s w _ hplain => hplain)
  obtain ⟨m, hm, hcovers⟩ := covers_of_executes hinv hmain hscalar hplain hexec
  obtain ⟨t, ht, rfl⟩ := Option.map_eq_some_iff.1 hm
  refine ⟨{ t with phase := .frozen }, ?_, ?_⟩
  · rw [hsnapshots, ht]
    rfl
  · intro p hvariable
    change (t.memory.readAt p t.memory.level).Describes (σ p.name)
    rw [hcovers.level_eq, hcovers.toPlain.readAt hvariable]
    exact (hcovers.describes σ rfl p.name).join_right ∅

end Analysis

namespace Sample

/-- A script that sets a flag any number of times. -/
def flagging : Graph where
  nodes := [⟨0, .assign (.ofVariable "seen") (.literal (.boolean false))⟩, ⟨1, .branch .any⟩,
    ⟨2, .assign (.ofVariable "seen") (.literal (.boolean true))⟩, ⟨3, .exit⟩]
  edges := [(0, 1), (1, 2), (2, 1), (1, 3)]
  entry := 0
  exit := 3

theorem isBuilt_flagging : flagging.IsBuilt :=
  ⟨{ nodes := flagging.nodes, edges := [(0, 1), (1, 2), (2, 1), (1, 3)] }, rfl⟩

/-- The analysis of the script, which widens at once. -/
def flag : Analysis where
  program := Program.withFunction {} ⟨"main", [], flagging⟩
  config := { limits := { widening := some 0, simplify := some 1 } }

set_option maxRecDepth 20000 in
theorem run_flag : (flag.run (.ofNodes [2])).toOption.isSome = true := by
  decide +kernel

/-- An execution that goes through the loop once. -/
theorem executes_flagging :
    ∃ σ, flagging.Executes 3 σ ∧ σ "seen" = some (.scalar (.boolean true)) := by
  have hentry : flagging.Executes 0 _ := .entry rfl (.assign rfl (.literal (.boolean false)))
  have hbranch := Graph.Executes.edge (j := 1) hentry (by decide) rfl (.branch .any)
  have hset := Graph.Executes.edge (j := 2) hbranch (by decide) rfl
    (.assign rfl (.literal (.boolean true)))
  have hagain := Graph.Executes.edge (j := 1) hset (by decide) rfl (.branch .any)
  exact ⟨_, .edge hagain (by decide) rfl .exit, rfl⟩

end Sample

namespace Analysis

/-- A flag set in the loop is described at the end of the script. -/
theorem run_sound_flag : ∃ r t, Sample.flag.run (.ofNodes [2]) = .ok r ∧
    r.snapshots[Point.mk .main 3]? = some t ∧
    (t.memory.read (.ofVariable "seen")).Describes (some (.scalar (.boolean true))) := by
  have hrun := Sample.run_flag
  cases hr : Sample.flag.run (.ofNodes [2]) with
  | error e =>
    rw [hr] at hrun
    cases hrun
  | ok r =>
    have hscalar : Function.IsScalar ⟨"main", [], Sample.flagging⟩ := by
      unfold Function.IsScalar
      decide
    obtain ⟨σ, hexec, hseen⟩ := Sample.executes_flagging
    obtain ⟨t, ht, hread⟩ := run_sound (Program.isBuilt_empty.withFunction Sample.isBuilt_flagging)
      (Program.main_withFunction _ rfl) hscalar hr hexec
    refine ⟨r, t, rfl, ht, ?_⟩
    rw [← hseen]
    exact hread (.ofVariable "seen") rfl

end Analysis
end ScriptMemory
