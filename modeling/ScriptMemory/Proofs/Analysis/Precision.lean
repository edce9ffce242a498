import ScriptMemory.Proofs.Analysis.Soundness
import ScriptMemory.Proofs.Precision

/-! Without limits the analysis of a determinate script is exact: a variable is read as what the
executions make of it, and as nothing else. Executions start at the entry, and also at every node
with an edge to itself: on its first visit such a node sees itself, which is blank then. -/
namespace ScriptMemory
open Std

namespace Graph
variable {g : Graph} {starts starts' : Nat → Prop} {i : Nat} {σ : Store}

/-- Along some path from one of the nodes `starts`, where no variable is set, execution gets to a
node with the variables as they are in the store. -/
inductive Arrives (g : Graph) (starts : Nat → Prop) : Nat → Store → Prop
  | start {i : Nat} (h : starts i) : Arrives g starts i .blank
  | edge {i j : Nat} {st : Statement} {σ σ' : Store} (h : Arrives g starts i σ)
      (hst : g.statement? i = some st) (hrun : st.Runs σ σ') (he : (i, j) ∈ g.edges) :
      Arrives g starts j σ'

/-- Execution gets past a node with the variables as they are in the store. -/
def Leaves (g : Graph) (starts : Nat → Prop) (i : Nat) (σ' : Store) : Prop :=
  ∃ st σ, g.statement? i = some st ∧ g.Arrives starts i σ ∧ st.Runs σ σ'

theorem Arrives.mono (hstarts : ∀ i, starts i → starts' i) (h : g.Arrives starts i σ) :
    g.Arrives starts' i σ := by
  induction h with
  | start h => exact .start (hstarts _ h)
  | edge _ hst hrun he ih => exact .edge ih hst hrun he

theorem Leaves.mono (hstarts : ∀ i, starts i → starts' i) (h : g.Leaves starts i σ) :
    g.Leaves starts' i σ := by
  obtain ⟨st, σ₀, hst, harrive, hrun⟩ := h
  exact ⟨st, σ₀, hst, harrive.mono hstarts, hrun⟩

theorem Leaves.edge {j : Nat} (h : g.Leaves starts i σ) (he : (i, j) ∈ g.edges) :
    g.Arrives starts j σ := by
  obtain ⟨st, σ₀, hst, harrive, hrun⟩ := h
  exact .edge harrive hst hrun he

/-- From the entry alone these are the executions of the script. -/
theorem leaves_entry_iff : g.Leaves (· = g.entry) i σ ↔ g.Executes i σ := by
  constructor
  · rintro ⟨st, σ₀, hst, harrive, hrun⟩
    induction harrive generalizing st σ with
    | start h =>
      subst h
      exact .entry hst hrun
    | edge _ hst' hrun' he ih => exact .edge (ih _ hst' hrun') he hst hrun
  · intro h
    induction h with
    | entry hst hrun => exact ⟨_, _, hst, .start rfl, hrun⟩
    | edge _ he hst hrun ih => exact ⟨_, _, hst, ih.edge he, hrun⟩

/-- The nodes where a first visit finds no variable set: the entry, and among the nodes `seen` those
with an edge to themselves. -/
def Starts (g : Graph) (seen : Nat → Prop) (i : Nat) : Prop :=
  i = g.entry ∨ (i, i) ∈ g.edges ∧ seen i

end Graph

/-- A finding about an undefined variable names a variable and a node that reads it, where some
execution arrives with the variable unset. -/
def Function.Justifies (f : Function) (starts : Nat → Prop) (w : Finding) : Prop :=
  w.cause = .undefinedVariable → ∃ i st x p σ, f.graph.statement? i = some st ∧
    x ∈ st.expressions ∧ x.readPath? = some p ∧ p.isVariable = true ∧
    w = ⟨.undefinedVariable, f.location i, p.text ++ " may be undefined"⟩ ∧
    f.graph.Arrives starts i σ ∧ σ p.name = none

theorem Function.Justifies.mono {f : Function} {starts starts' : Nat → Prop} {w : Finding}
    (hstarts : ∀ i, starts i → starts' i) (h : f.Justifies starts w) : f.Justifies starts' w := by
  intro hcause
  obtain ⟨i, st, x, p, σ, hst, hx, hread, hp, hw, harrive, hσ⟩ := h hcause
  exact ⟨i, st, x, p, σ, hst, hx, hread, hp, hw, harrive.mono hstarts, hσ⟩

theorem Function.IsDeterminate.isScalar {f : Function} (h : f.IsDeterminate) : f.IsScalar :=
  fun node hn => Statement.isScalar_of_isDeterminate (h node hn)

theorem Function.IsDeterminate.statement {f : Function} (h : f.IsDeterminate) {node : Nat}
    {st : Statement} (hst : f.graph.statement? node = some st) : st.isDeterminate = true := by
  obtain ⟨n, hn, rfl⟩ := Option.map_eq_some_iff.1 hst
  exact h n (List.mem_of_getElem? hn)

/-- The snapshots of a script say what the executions from the nodes `starts` make of each variable,
and nothing else; what they report as undefined some execution leaves unset. -/
structure Report.IsExact (r : Report) (f : Function) (starts : Nat → Prop) : Prop where
  read : ∀ (node : Nat) t p, r.snapshots[Point.mk .main node]? = some t → p.isVariable = true →
    ∀ v, v ∈ t.memory.read p ↔ ∃ σ, f.graph.Leaves starts node σ ∧ v.Denotes (σ p.name)
  reports : ∀ (node : Nat) t w, r.snapshots[Point.mk .main node]? = some t → t.memory.Reports w →
    f.Justifies starts w

namespace Analysis
open Transact
variable {a : Analysis} {s s' : AnalysisState} {p : Point} {c : Context} {st : Statement}
  {target : Option CallTarget} {view : Point → Option Memory} {x : Intake} {m n before : Memory}
  {t : Snapshot} {main : Function} {S : Store → Prop} {F : Finding → Prop} {r : Report}

/-- Without limits the memory of a point is precise about what its statement makes of the stores
that the memories are precise about which it is made from. -/
theorem Outcome.precise (hout : a.Outcome s p c st target view x n before t) (hs : s.Tree a)
    (hmain : a.program.main = .ok main) (hdet : main.IsDeterminate) (hlimits : a.config.limits = {})
    (h : ∀ m ∈ x.memories, m.Precise S F)
    (hunset : ∀ x ∈ st.expressions, ∀ path, x.readPath? = some path → path.isVariable = true →
      (∃ σ, S σ ∧ σ path.name = none) →
      F ⟨.undefinedVariable, main.location p.node, path.text ++ " may be undefined"⟩)
    (hother : ∀ f : Finding, f.cause ≠ .undefinedVariable → F f) :
    t.memory.Precise (st.after S) F := by
  obtain ⟨hctx, hst, -, sources, rfl, hne, -⟩ := hout.intake_scalar hs hmain hdet.isScalar
  obtain ⟨-, rfl⟩ := hs.eq_main hmain hdet.isScalar hout.site.context
  have hsimplify : a.config.limits.simplify = none := by rw [hlimits]
  have htaken := Memory.precise_takenOver hne h
  -- the draft of the join and the statement on it are precise, and a commit widens nothing
  obtain ⟨d, hd, -, hrun⟩ := Edit.extend_run hne (fun m hm => (h m hm).level_eq)
    a.config.limits.simplify
  rw [← hsimplify, ← hd] at htaken
  obtain ⟨k, hy, hk⟩ := yields_apply_precise hsimplify htaken (hdet.statement hst) a s main p target
    hunset hother
  obtain ⟨rfl, -⟩ := (hout.yields .initial).unique ((Yields.mutate (hrun .initial)).bind hy)
  have hcommitted : Memory.committed a.config.limits t.commits before n = n := by
    unfold Memory.committed
    rw [hlimits]
    exact if_neg fun h => nomatch h.2
  rw [hout.memory, hcommitted]
  exact hk

/-- The nodes of the script that have a snapshot. -/
def Seen (s : AnalysisState) (i : Nat) : Prop :=
  (s.view ⟨.main, i⟩).isSome = true

/-- Every snapshot is precise about the executions that start at the entry or at a node with an edge
to itself, and the latter do happen. -/
structure Exact (main : Function) (s : AnalysisState) : Prop where
  precise : ∀ q m, s.view q = some m →
    m.Precise (main.graph.Leaves (main.graph.Starts (Seen s)) q.node)
      (main.Justifies (main.graph.Starts (Seen s)))
  covers : ∀ i m st, (i, i) ∈ main.graph.edges → main.graph.statement? i = some st →
    s.view ⟨.main, i⟩ = some m → m.Covers (st.after (· = .blank))

theorem Exact.congr {main : Function} (h : Exact main s) (hview : s'.view = s.view) :
    Exact main s' := by
  have hseen : Seen s' = Seen s := by
    unfold Seen
    rw [hview]
  refine ⟨?_, ?_⟩
  · rw [hview, hseen]
    exact h.precise
  · rw [hview]
    exact h.covers

/-- What a visit sees of another point is precise about what leads on from there, and what it sees
of itself on the first visit is blank. -/
theorem Exact.source (h : Exact main s) {starts : Nat → Prop}
    (hstarts : ∀ i, main.graph.Starts (Seen s) i → starts i) (hself : p.context = .main →
      (p.node, p.node) ∈ main.graph.edges → starts p.node) {i : Nat} (hctx : p.context = .main)
    (he : (i, p.node) ∈ main.graph.edges)
    (hm : s.viewFrom p (a.previous s p) ⟨.main, i⟩ = some m) :
    m.Precise (main.graph.Arrives starts p.node) (main.Justifies starts) := by
  rcases viewFrom_eq_some hm with hview | ⟨hp, -, rfl⟩
  · exact (h.precise _ m hview).mono (fun σ hσ => (hσ.mono hstarts).edge he)
      fun _ hw => hw.mono hstarts
  · obtain rfl : i = p.node := congrArg Point.node hp
    refine (Memory.precise_initial _).mono ?_ fun _ hw => hw
    rintro _ rfl
    exact .start (hself hctx he)

/-- A visit keeps the snapshots exact. -/
theorem Exact.visited (h : Exact main s) (hmain : a.program.main = .ok main)
    (hdet : main.IsDeterminate) (hlimits : a.config.limits = {}) (hs : s.Tree a)
    (hout : a.Outcome s p c st target (s.viewFrom p (a.previous s p)) x n before t) :
    Exact main (a.visited s c p target t) := by
  obtain ⟨hctx, hst, -, sources, rfl, -, hsources⟩ := hout.intake_scalar hs hmain hdet.isScalar
  let starts := main.graph.Starts (Seen (a.visited s c p target t))
  have hstarts : ∀ i, main.graph.Starts (Seen s) i → starts i := fun i hi =>
    hi.imp_right fun hi => ⟨hi.1, isSome_view_visited hi.2⟩
  have hseen : Seen (a.visited s c p target t) p.node := by
    unfold Seen
    rw [← hctx, view_visited, if_pos rfl]
    rfl
  have hintake : ∀ m ∈ sources,
      m.Precise (main.graph.Arrives starts p.node) (main.Justifies starts) := by
    intro m hm
    rcases (hsources m).1 hm with ⟨rfl, hentry⟩ | ⟨i, he, hi⟩
    · refine (Memory.precise_initial _).mono ?_ fun _ hw => hw
      rintro _ rfl
      exact .start (.inl hentry)
    · exact h.source hstarts (fun _ he => .inr ⟨he, hseen⟩) hctx he hi
  refine ⟨?_, ?_⟩
  · intro q m hm
    rw [view_visited] at hm
    split at hm
    · next hq =>
      subst hq
      cases hm
      have ht := hout.precise hs hmain hdet hlimits hintake
        (fun x hx path hread hp ⟨σ, hσ, hunset⟩ _ =>
          ⟨q.node, st, x, path, σ, hst, hx, hread, hp, rfl, hσ, hunset⟩)
        fun f hne heq => absurd heq hne
      exact ht.mono (fun σ' ⟨σ, hσ, hrun⟩ => ⟨st, σ, hst, hσ, hrun⟩) fun _ hw => hw
    · exact (h.precise q m hm).mono (fun σ hσ => hσ.mono hstarts) fun _ hw => hw.mono hstarts
  · intro i m st' he hst' hm
    rw [view_visited] at hm
    split at hm
    · next hi =>
      subst hi
      cases hm
      obtain rfl : st = st' := Option.some.inj (hst.symm.trans hst')
      -- a node with an edge to itself takes over what it had before
      have hself : (a.previous s ⟨.main, i⟩).memory ∈ sources :=
        (hsources _).2 (.inr ⟨i, he, AnalysisState.viewFrom_self ..⟩)
      have hcovers {S : Store → Prop} (hS : (a.previous s ⟨.main, i⟩).memory.Covers S) :
          t.memory.Covers (st.after S) :=
        hout.covers hs hmain hdet.isScalar (fun m hm => (hintake m hm).toPlain) hself hS
      cases hold : s.view ⟨.main, i⟩ with
      | none =>
        apply hcovers
        rw [previous_memory a hold]
        exact Memory.covers_initial
      | some old =>
        obtain ⟨t', ht', rfl⟩ := Option.map_eq_some_iff.1 hold
        have hblank := h.covers i _ st he hst' hold
        rw [← previous_eq (a := a) ht'] at hblank
        apply (hcovers hblank).mono
        rintro τ ⟨σ, hσ, hrun⟩
        exact ⟨τ, ⟨σ, hσ, hrun⟩, hrun.again (hdet.statement hst')⟩
    · exact h.covers i m st' he hst' hm

/-- Every step keeps the snapshots exact. -/
theorem Exact.step (h : Exact main s) (hp : a.program.IsBuilt) (hmain : a.program.main = .ok main)
    (hdet : main.IsDeterminate) (hlimits : a.config.limits = {}) (hs : s.Tree a)
    (hrests : a.Rests s) (hstep : a.step s p = .ok s') : Exact main s' := by
  rcases step_ok hp hs hrests hstep with
    ⟨-, rfl⟩ | ⟨r, c, st, target, hr, -, hsnapshots, -, -, hcases⟩
  · exact h
  · have hr' : Exact main r := h.congr (view_congr hsnapshots)
    rcases hcases with ⟨-, rfl⟩ | ⟨x, n, t, hout, rfl⟩
    · exact hr'
    · exact hr'.visited hmain hdet hlimits hr hout

/-- In the end what every execution makes of the variables is covered. -/
theorem Exact.covers_of_arrives (h : Exact main s) (hinv : a.Invariant s fun _ => False)
    (hmain : a.program.main = .ok main) (hdet : main.IsDeterminate) {node : Nat} {σ σ' : Store}
    (harrive : main.graph.Arrives (main.graph.Starts (Seen s)) node σ)
    (hst : main.graph.statement? node = some st) (hrun : st.Runs σ σ') :
    ∃ m, s.view ⟨.main, node⟩ = some m ∧ m.Covers (· = σ') := by
  have hplain : ∀ q m, s.view q = some m → m.Plain := fun q m hm => (h.precise q m hm).toPlain
  induction harrive generalizing st σ' with
  | @start i hi =>
    rcases hi with rfl | ⟨he, hseen⟩
    · exact covers_of_executes hinv hmain hdet.isScalar hplain (.entry hst hrun)
    · obtain ⟨m, hm⟩ := Option.isSome_iff_exists.1 hseen
      exact ⟨m, hm, (h.covers i m st he hst hm).mono (Statement.after_of_runs hrun)⟩
  | edge _ hst₀ hrun₀ he ih =>
    obtain ⟨m, hm, hcovers⟩ := ih hst₀ hrun₀
    exact covers_of_edge hinv hmain hdet.isScalar hplain he hm hcovers hst hrun

end Analysis

namespace Sample

/-- A script that may set `x` before it reads it. -/
def skipping : Graph where
  nodes := [⟨0, .branch .any⟩, ⟨1, .assign (.ofVariable "x") (.literal (.integer 1))⟩,
    ⟨2, .assign (.ofVariable "y") (.read (.ofVariable "x"))⟩, ⟨3, .exit⟩]
  edges := [(0, 1), (0, 2), (1, 2), (2, 3)]
  entry := 0
  exit := 3

/-- A script that sets `x`, waits in a loop of one node, and reads it. -/
def waiting : Graph where
  nodes := [⟨0, .assign (.ofVariable "x") (.literal (.integer 1))⟩, ⟨1, .branch .any⟩,
    ⟨2, .echo (.read (.ofVariable "x"))⟩, ⟨3, .exit⟩]
  edges := [(0, 1), (1, 1), (1, 2), (2, 3)]
  entry := 0
  exit := 3

/-- The analysis without limits of the program whose main function has the graph `g`. -/
def unlimited (g : Graph) : Analysis where
  program := Program.withFunction {} ⟨"main", [], g⟩
  config := { limits := {} }

theorem isBuilt_skipping : skipping.IsBuilt :=
  ⟨{ nodes := skipping.nodes, edges := [(0, 1), (0, 2), (1, 2), (2, 3)] }, rfl⟩

/-- Whatever path the script takes, it has set `x`. -/
theorem executes_waiting {i : Nat} {σ : Store} (h : waiting.Executes i σ) :
    σ "x" = some (.scalar (.integer 1)) := by
  induction h with
  | entry hst hrun =>
    cases hst
    cases hrun with
    | assign _ hx =>
      cases hx
      rfl
  | @edge i j st σ σ' _ he hst hrun ih =>
    -- every edge leads to a statement that leaves the variables alone
    have hnext : ∀ e ∈ waiting.edges, e.2 = 1 ∨ e.2 = 2 ∨ e.2 = 3 := by decide
    obtain rfl | rfl | rfl := hnext _ he
    all_goals
      cases hst
      cases hrun
      exact ih

end Sample

namespace Analysis
variable {a : Analysis} {main : Function} {r : Report}

/-- Without limits the analysis of a determinate script is exact about the executions that start at
the entry or, with no variable set, at a node that has a snapshot and an edge to itself. If only the
entry may have an edge to itself, it is exact about the executions of the script. -/
theorem run_exact {nodes : List Nat} (hp : a.program.IsBuilt) (hmain : a.program.main = .ok main)
    (hdet : main.IsDeterminate) (hlimits : a.config.limits = {})
    (h : a.run (.ofNodes nodes) = .ok r) :
    r.IsExact main (main.graph.Starts fun i => (r.snapshots[Point.mk .main i]?).isSome) ∧
      ((∀ i, (i, i) ∈ main.graph.edges → i = main.graph.entry) →
        r.IsExact main (· = main.graph.entry)) := by
  obtain ⟨s, hinv, hexact, -, -, hsnapshots⟩ := run_ok_of hp (Worklist.consistent_ofNodes nodes) h
    (K := Exact main)
    (by
      intro f _
      have hnone (q : Point) (m : Memory) (hm : (initialState f (.ofNodes nodes)).view q = some m) :
          False := by
        rw [view_initialState] at hm
        cases hm
      exact ⟨fun q m hm => (hnone q m hm).elim, fun i m _ _ _ hm => (hnone _ m hm).elim⟩)
    (fun s p s' hinv hexact hstep =>
      hexact.step hp hmain hdet hlimits hinv.tree hinv.rests hstep)
    (fun s w _ hexact => hexact.congr rfl)
  have hseen : (fun i : Nat => (r.snapshots[Point.mk .main i]?).isSome = true) = Seen s := by
    funext i
    unfold Seen AnalysisState.view
    rw [hsnapshots, Option.isSome_map, Option.isSome_map]
  have hmemory {node : Nat} {t : Snapshot} (ht : r.snapshots[Point.mk .main node]? = some t) :
      s.view ⟨.main, node⟩ = some t.memory := by
    rw [hsnapshots] at ht
    obtain ⟨old, hold, rfl⟩ := Option.map_eq_some_iff.1 ht
    exact (AnalysisState.view_eq_some hold).trans rfl
  have hall : r.IsExact main
      (main.graph.Starts fun i => (r.snapshots[Point.mk .main i]?).isSome) := by
    rw [hseen]
    refine ⟨?_, fun node t w ht hw => (hexact.precise _ _ (hmemory ht)).reports w hw⟩
    intro node t p ht hpv v
    have hprecise := hexact.precise _ _ (hmemory ht)
    have hread :
        t.memory.read p = (∅ : Entry).join (t.memory.entryOrUndefined (.global p.name)) := by
      unfold Memory.read
      rw [hprecise.level_eq, hprecise.toPlain.readAt hpv]
    have hdenotes {v : Value} (hv : v ∈ t.memory.read p) := by
      rw [hread] at hv
      exact hprecise.denotes p.name v
        ((Entry.mem_or_mem_of_mem_join hv).resolve_left Entry.not_mem_empty)
    constructor
    · exact hdenotes
    · rintro ⟨σ', ⟨st, σ, hst, harrive, hrun⟩, hv⟩
      obtain ⟨m, hm, hcovers⟩ := hexact.covers_of_arrives hinv hmain hdet harrive hst hrun
      cases hm.symm.trans (hmemory ht)
      -- what describes the store is among the values that denote something, so it is `v`
      have hdescribes := (hcovers.describes σ' rfl p.name).join_right ∅
      rw [← hread] at hdescribes
      obtain ⟨w, hw, hx⟩ := hdescribes
      obtain ⟨τ, -, hτ⟩ := hdenotes hw
      rwa [hv.unique (hτ.of_describes hx)]
  refine ⟨hall, fun hself => ?_⟩
  have hstarts : (main.graph.Starts fun i => (r.snapshots[Point.mk .main i]?).isSome = true) =
      (· = main.graph.entry) := by
    funext i
    exact propext ⟨fun hi => hi.elim id fun hi => hself i hi.1, .inl⟩
  rwa [← hstarts]

set_option maxRecDepth 20000 in
/-- What is copied of a variable that one branch sets is the number or nothing, and both happen. -/
theorem run_exact_skipping : ∃ r t, (Sample.unlimited Sample.skipping).run (.ofNodes []) = .ok r ∧
    r.snapshots[Point.mk .main 3]? = some t ∧
    (∀ v, v ∈ t.memory.read (.ofVariable "y") ↔
      ∃ σ, Sample.skipping.Executes 3 σ ∧ v.Denotes (σ "y")) ∧
    .undefined ∈ t.memory.read (.ofVariable "y") := by
  have hrun : ((Sample.unlimited Sample.skipping).run (.ofNodes [])).toOption.bind (fun r =>
      (r.snapshots[Point.mk .main 3]?).map fun t =>
        (t.memory.read (.ofVariable "y")).hasUndefined) = some true := by
    decide +kernel
  cases hr : (Sample.unlimited Sample.skipping).run (.ofNodes []) with
  | error e =>
    rw [hr] at hrun
    cases hrun
  | ok r =>
    rw [hr] at hrun
    obtain ⟨t, ht, hundefined⟩ := Option.map_eq_some_iff.1 hrun
    have hdet : Function.IsDeterminate ⟨"main", [], Sample.skipping⟩ := by
      unfold Function.IsDeterminate
      decide
    obtain ⟨-, hexact⟩ := run_exact (Program.isBuilt_empty.withFunction Sample.isBuilt_skipping)
      (Program.main_withFunction _ rfl) hdet rfl hr
    have hself : ∀ e ∈ Sample.skipping.edges, e.1 = e.2 → e.1 = Sample.skipping.entry := by decide
    refine ⟨r, t, rfl, ht, fun v => ?_, Entry.contains_eq_true.1 hundefined⟩
    have hread := (hexact fun i hi => hself _ hi rfl).read 3 t (.ofVariable "y") ht rfl v
    simp only [Graph.leaves_entry_iff] at hread
    exact hread

set_option maxRecDepth 20000 in
/-- A node that leads to itself takes over its own blank snapshot on the first visit. After it a
variable that is always set may be undefined, and reading it is reported. -/
theorem run_inexact : ∃ r t, (Sample.unlimited Sample.waiting).run (.ofNodes []) = .ok r ∧
    r.snapshots[Point.mk .main 2]? = some t ∧
    .undefined ∈ t.memory.read (.ofVariable "x") ∧
    t.memory.Reports ⟨.undefinedVariable, "main:2", "$x may be undefined"⟩ ∧
    ∀ σ, Sample.waiting.Executes 2 σ → σ "x" ≠ none := by
  have hrun : ((Sample.unlimited Sample.waiting).run (.ofNodes [])).toOption.bind (fun r =>
      (r.snapshots[Point.mk .main 2]?).map fun t =>
        ((t.memory.read (.ofVariable "x")).hasUndefined, t.memory.findings)) =
      some (true, [⟨.undefinedVariable, "main:2", "$x may be undefined"⟩]) := by
    decide +kernel
  cases hr : (Sample.unlimited Sample.waiting).run (.ofNodes []) with
  | error e =>
    rw [hr] at hrun
    cases hrun
  | ok r =>
    rw [hr] at hrun
    obtain ⟨t, ht, hpair⟩ := Option.map_eq_some_iff.1 hrun
    obtain ⟨hundefined, hfindings⟩ := Prod.mk.inj hpair
    refine ⟨r, t, rfl, ht, Entry.contains_eq_true.1 hundefined, ?_, fun σ hexec hnone => ?_⟩
    · rw [← Memory.mem_findings, hfindings]
      exact List.mem_singleton_self _
    · rw [Sample.executes_waiting hexec] at hnone
      cases hnone

end Analysis
end ScriptMemory
