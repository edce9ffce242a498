import ScriptMemory.Proofs.Analysis.Fixpoint
import ScriptMemory.Proofs.Analysis.Levels

/-! When the analysis keeps its own contracts. On a built program with a main function it ends with
a report or out of steps, unless it comes to the first visit of a point of a called function that
is its own predecessor: then memory of two call levels is to be joined, and the run fails. -/
namespace ScriptMemory
open Std

namespace Analysis
variable {a : Analysis} {s s' r : AnalysisState} {p q u : Point} {c : Context} {st : Statement}
  {target : Option CallTarget} {m n before : Memory} {x : Intake} {t : Snapshot} {j k : Nat}

theorem Expected.grow (h : a.Expected s p) (hp : a.program.IsBuilt) (hs : s.Tree a)
    (hs' : s'.Tree a)
    (hg : s.Grows s') (hv : ∀ u, (s.view u).isSome → (s'.view u).isSome) : a.Expected s' p := by
  obtain ⟨⟨c, hc, hlt⟩, hreason⟩ := h
  refine ⟨⟨c, hg _ _ hc, hlt⟩, hreason.imp_right (Or.imp (hv p) ?_)⟩
  rintro ⟨u, cu, st, target, hu, hsite, hqueued⟩
  refine ⟨u, cu, st, target, hv u hu, hsite.grow hp hs hs' hg, ?_⟩
  rw [successors_grow hsite hp hs hg]
  exact hqueued

/-- A visited point expects the points that it queues. -/
theorem expected_of_successor (hp : a.program.IsBuilt) (hs : s.Tree a)
    (hsite : a.Site s p c st target) (hv : (s.view p).isSome)
    (h : q ∈ successors s c p target) : a.Expected s q := by
  refine ⟨?_, .inr (.inr ⟨p, c, st, target, hv, hsite, h⟩)⟩
  rcases successors_cases h with
    ⟨call, caller, node, -, hctx, hreturn, rfl⟩ | ⟨id, callee, hctx, rfl⟩ | ⟨hctx, hedge⟩
  · have hbuilt := hs.isBuilt hp hctx
    have hcallOf := hbuilt.callReturnOf?_iff.1 hreturn
    exact ⟨caller, hctx, (hbuilt.edge_lt (Graph.mem_edges_of_callOf? hcallOf)).2⟩
  · exact ⟨callee, hctx, (hs.isBuilt hp hctx).entry_lt⟩
  · refine ⟨c, ?_, ((hs.isBuilt hp hsite.context).edge_lt hedge).2⟩
    rw [hctx]
    exact hsite.context

/-- What the driver keeps up beyond its invariant: memory has the level of its context, and what
waits is expected. -/
structure Orderly (a : Analysis) (s : AnalysisState) (pending : Point → Prop) : Prop where
  invariant : a.Invariant s pending
  levelled : Levelled s
  expected : ∀ p, pending p → a.Expected s p

theorem fits_unique {level level' : Nat} (h : x.Fits level) (h' : x.Fits level') :
    level = level' := by
  cases x with
  | join sources =>
    obtain ⟨m, hm⟩ := List.exists_mem_of_ne_nil sources h.1
    exact (h.2 m hm).symm.trans (h'.2 m hm)
  | call caller =>
    have hl : caller.level + 1 = level := h
    exact hl.symm.trans h'
  | callReturn exit =>
    have hl : exit.level = level + 1 := h
    have hl' : exit.level = level' + 1 := h'
    omega

theorem Orderly.grow {pending : Point → Prop} (h : a.Orderly s pending) (hp : a.program.IsBuilt)
    (hr : r.Tree a) (hg : s.Grows r) (hsnapshots : r.snapshots = s.snapshots) :
    a.Orderly r pending where
  invariant := h.invariant.grow hp hr hg hsnapshots
  levelled := by
    intro p m c hm hc
    rw [view_congr hsnapshots] at hm
    obtain ⟨c', st, target, hsite, -⟩ := h.invariant.known p (by rw [hm]; rfl)
    obtain rfl : c = c' := Option.some.inj (hc.symm.trans (hg _ _ hsite.context))
    exact h.levelled p m c hm hsite.context
  expected := fun p hwaits => (h.expected p hwaits).grow hp h.invariant.tree hr hg fun u hu => by
    rw [view_congr hsnapshots]
    exact hu

theorem Orderly.mono {pending pending' : Point → Prop} (h : a.Orderly s pending)
    (heq : ∀ q, pending q ↔ pending' q) : a.Orderly s pending' where
  invariant := h.invariant.mono fun q => (heq q).1
  levelled := h.levelled
  expected := fun q hq => h.expected q ((heq q).2 hq)

/-- A visit leaves memory of the right level, and expects what it queues. -/
theorem Orderly.visit (h : a.Orderly s fun q => q = p ∨ s.worklist.Waits q)
    (hp : a.program.IsBuilt) (hw : s.worklist.Consistent) (hself : ¬SelfFirst s p)
    (hout : a.Outcome s p c st target (s.viewFrom p (a.previous s p)) x n
      (a.previous s p).memory t) :
    a.Orderly (a.visited s c p target t) (a.visited s c p target t).worklist.Waits := by
  have htree : (a.visited s c p target t).Tree a := tree_visited h.invariant.tree
  refine ⟨h.invariant.visit hp hw hout, ?_, ?_⟩
  · intro q m c' hm hc'
    by_cases hq : q = p
    · subst hq
      rw [view_visited, if_pos rfl, Option.some.injEq] at hm
      obtain rfl : c = c' := Option.some.inj (hout.site.context.symm.trans hc')
      obtain ⟨level, hfits, hframe⟩ := hout.frame
      -- the intake was accepted for the level of the context, and it fits one level only
      have hdepth :=
        fits_of_not_selfFirst hp h.invariant.tree h.levelled hout.site hself hout.intake
      rw [← hm, hframe.level_eq]
      exact fits_unique hfits hdepth
    · rw [view_visited, if_neg hq] at hm
      exact h.levelled q m c' hm hc'
  · intro q hq
    rcases (waits_visited hw).1 hq with hq | ⟨-, hq⟩
    · exact (h.expected q (.inr hq)).grow hp h.invariant.tree htree grows_visited
        fun u => isSome_view_visited
    · refine expected_of_successor hp htree
        (hout.site.grow hp h.invariant.tree htree grows_visited) ?_ hq
      rw [view_visited, if_pos rfl]
      rfl

theorem selfFirst_grow (hg : s.Grows r) (hsnapshots : r.snapshots = s.snapshots)
    (hc : s.contexts[p.context]? = some c) : SelfFirst r p ↔ SelfFirst s p := by
  unfold SelfFirst
  rw [view_congr hsnapshots, hc, hg _ _ hc]

/-- A step fails exactly on the first visit of a point that is its own predecessor. -/
theorem Orderly.step (h : a.Orderly s fun q => q = p ∨ s.worklist.Waits q) (hp : a.program.IsBuilt)
    (hw : s.worklist.Consistent) :
    (SelfFirst s p ∧ ∃ e, a.step s p = .error (.contract e)) ∨
      ¬SelfFirst s p ∧ ∃ s', a.step s p = .ok s' ∧ a.Orderly s' s'.worklist.Waits ∧
        s'.worklist.Consistent := by
  obtain ⟨⟨c, hc, hlt⟩, -⟩ := h.expected p (.inl rfl)
  obtain ⟨b, hst⟩ : ∃ b, c.function.graph.statement? p.node = some b := by
    unfold Graph.statement? Graph.node?
    rw [List.getElem?_eq_getElem hlt]
    exact ⟨_, rfl⟩
  obtain ⟨r, target, hr, hg, hsnapshots, hworklist, hsite, hvisit⟩ :=
    step_spec hp h.invariant.tree hc hst
  have hself := selfFirst_grow hg hsnapshots hc
  have hr' : a.Orderly r fun q => q = p ∨ r.worklist.Waits q := by
    rw [hworklist]
    exact h.grow hp hr hg hsnapshots
  rw [← hworklist] at hw
  obtain ⟨input, hinput, hcases⟩ := visitWith_spec hp hr hr'.invariant.rests hsite
  rw [hvisit input hinput, ← hself]
  by_cases hfirst : SelfFirst r p
  · -- the point itself is blank and at level 0, the points before it are not
    left
    obtain ⟨x, hx, hrefused⟩ := refused_of_selfFirst hp hr hr'.levelled hsite hfirst
      (hr'.expected p (.inl rfl))
    rcases hcases with ⟨hnone, -⟩ | ⟨x', hx', ⟨n, t, hout, -⟩ | ⟨-, e, herror⟩⟩
    · rw [hx] at hnone
      cases hnone
    · obtain rfl : x = x' := Option.some.inj (hx.symm.trans hx')
      obtain ⟨level, hfits⟩ := hout.fits
      exact absurd hfits (hrefused level)
    · exact ⟨hfirst, e, herror⟩
  · right
    refine ⟨hfirst, ?_⟩
    rcases hcases with ⟨hnone, hok⟩ | ⟨x', hx', ⟨n, t, hout, -, -, hok⟩ | ⟨hrefused, -⟩⟩
    · have hinv := hr'.invariant.wait hp hsite hnone
      exact ⟨r, hok, ⟨hinv, hr'.levelled, fun q hq => hr'.expected q (.inr hq)⟩, hw⟩
    · exact ⟨_, hok, hr'.visit hp hw hfirst hout, consistent_visited hw⟩
    · exact absurd (fits_of_not_selfFirst hp hr hr'.levelled hsite hfirst hx') (hrefused _)

/-- The driver gets from one state to another in so many successful steps. -/
inductive Steps (a : Analysis) : Nat → AnalysisState → AnalysisState → Prop
  | refl (s : AnalysisState) : Steps a 0 s s
  | step {k : Nat} {s r s' : AnalysisState} {p : Point} {w : Worklist}
      (hpop : s.worklist.pop? = some (p, w)) (hstep : a.step { s with worklist := w } p = .ok r)
      (hrest : Steps a k r s') : Steps a (k + 1) s s'

theorem Orderly.pop (h : a.Orderly s s.worklist.Waits) (hp : a.program.IsBuilt)
    (hw : s.worklist.Consistent) {w : Worklist} (hpop : s.worklist.pop? = some (p, w)) :
    a.Orderly { s with worklist := w } (fun q => q = p ∨ w.Waits q) ∧ w.Consistent := by
  obtain ⟨hw', hwaits⟩ := hw.pop hpop
  exact ⟨(h.mono hwaits).grow hp (h.invariant.tree.congr rfl rfl)
    (AnalysisState.grows_of_eq rfl) rfl,
    hw'⟩

/-- Successful steps keep what the driver keeps up. -/
theorem Orderly.next (h : a.Orderly s s.worklist.Waits ∧ s.worklist.Consistent)
    (hp : a.program.IsBuilt) {w : Worklist} (hpop : s.worklist.pop? = some (p, w))
    (hstep : a.step { s with worklist := w } p = .ok s') :
    a.Orderly s' s'.worklist.Waits ∧ s'.worklist.Consistent := by
  obtain ⟨hpending, hw⟩ := h.1.pop hp h.2 hpop
  rcases Orderly.step (s := { s with worklist := w }) hpending hp hw with
    ⟨-, e, herror⟩ | ⟨-, r, hok, hr⟩
  · rw [herror] at hstep
    cases hstep
  · obtain rfl : r = s' := Except.ok.inj (hok.symm.trans hstep)
    exact hr

theorem Steps.orderly {k : Nat} (hsteps : a.Steps k s s') (hp : a.program.IsBuilt)
    (h : a.Orderly s s.worklist.Waits ∧ s.worklist.Consistent) :
    a.Orderly s' s'.worklist.Waits ∧ s'.worklist.Consistent := by
  induction hsteps with
  | refl s => exact h
  | step hpop hstep _ ih => exact ih (Orderly.next h hp hpop hstep)

theorem Steps.trans (h : a.Steps j s r) (h' : a.Steps k r s') : a.Steps (j + k) s s' := by
  induction h with
  | refl s =>
    rw [Nat.zero_add]
    exact h'
  | step hpop hstep _ ih =>
    rw [Nat.add_right_comm]
    exact .step hpop hstep (ih h')

/-- The driver takes the steps as long as it may, and it is done when nothing waits. -/
theorem Steps.drive_eq (h : a.Steps k s s') (hdone : s'.worklist.pop? = none) {remaining : Nat}
    (hle : k ≤ remaining) (steps : Nat) : a.drive remaining steps s = .ok (s', steps + k) := by
  induction h generalizing remaining steps with
  | refl s => exact drive_of_pop_none hdone remaining steps
  | @step k s r s' p w hpop hstep _ ih =>
    obtain ⟨remaining, rfl⟩ := Nat.exists_eq_add_of_le' (Nat.le_trans (Nat.le_add_left 1 k) hle)
    rw [drive_succ hpop, hstep]
    have hsteps : steps + (k + 1) = steps + 1 + k := by omega
    rw [hsteps]
    exact ih hdone (Nat.le_of_succ_le_succ hle) (steps + 1)

/-- What an analysis does in a step is all that its runs depend on. -/
theorem Steps.congr {b : Analysis} (hb : ∀ s p, b.step s p = a.step s p) (h : a.Steps k s s') :
    b.Steps k s s' := by
  induction h with
  | refl s => exact .refl s
  | step hpop hstep _ ih => exact .step hpop ((hb _ _).trans hstep) ih

/-- The points that the driver comes to are the one it pops and those it comes to afterwards. -/
theorem forall_steps_succ {w : Worklist} (hpop : s.worklist.pop? = some (p, w))
    (hok : a.step { s with worklist := w } p = .ok r) {remaining : Nat}
    {P : AnalysisState → Point → Prop} :
    (∀ k < remaining + 1, ∀ t q w', a.Steps k s t → t.worklist.pop? = some (q, w') → P t q) ↔
      P s p ∧ ∀ k < remaining, ∀ t q w', a.Steps k r t →
        t.worklist.pop? = some (q, w') → P t q := by
  constructor
  · intro h
    refine ⟨h 0 (Nat.succ_pos _) s p w (.refl s) hpop, ?_⟩
    intro k hk t q w' hsteps hpop'
    exact h (k + 1) (Nat.succ_lt_succ hk) t q w' (.step hpop hok hsteps) hpop'
  · rintro ⟨hhere, hlater⟩ k hk t q w' hsteps hpop'
    cases hsteps with
    | refl =>
      rw [hpop] at hpop'
      cases hpop'
      exact hhere
    | @step j _ r' _ _ _ hpop'' hstep hrest =>
      rw [hpop] at hpop''
      cases hpop''
      obtain rfl : r = r' := Except.ok.inj (hok.symm.trans hstep)
      exact hlater j (Nat.lt_of_succ_lt_succ hk) t q w' hrest hpop'

/-- Where nothing waits, there is no step, and the driver comes to no point. -/
theorem Steps.eq_of_pop_none {k : Nat} (hsteps : a.Steps k s s')
    (hpop : s.worklist.pop? = none) : s' = s := by
  cases hsteps with
  | refl => rfl
  | step hpop' =>
    rw [hpop] at hpop'
    cases hpop'

/-- The driver finishes, with a state or out of steps, exactly if no point that it comes to is on a
first visit and its own predecessor. -/
theorem drive_finishes_iff (hp : a.program.IsBuilt) {remaining : Nat} (steps : Nat)
    (h : a.Orderly s s.worklist.Waits) (hw : s.worklist.Consistent) :
    ((∃ y, a.drive remaining steps s = .ok y) ∨
        a.drive remaining steps s = .error (.noFixpoint (steps + remaining))) ↔
      ∀ k < remaining, ∀ t p w, a.Steps k s t → t.worklist.pop? = some (p, w) → ¬SelfFirst t p := by
  -- by induction on the steps that remain; orderliness is what a successful step hands on
  induction remaining generalizing steps s with
  | zero =>
    refine iff_of_true ?_ fun k hk => absurd hk (Nat.not_lt_zero k)
    cases hpop : s.worklist.pop? with
    | none => exact .inl ⟨_, drive_of_pop_none hpop 0 steps⟩
    | some y => exact .inr (drive_zero hpop steps)
  | succ remaining ih =>
    cases hpop : s.worklist.pop? with
    | none =>
      refine iff_of_true (.inl ⟨_, drive_of_pop_none hpop _ steps⟩) ?_
      intro k _ t p w hsteps hpop'
      rw [hsteps.eq_of_pop_none hpop, hpop] at hpop'
      cases hpop'
    | some y =>
      obtain ⟨p, w⟩ := y
      obtain ⟨hpending, hw'⟩ := h.pop hp hw hpop
      rw [drive_succ hpop]
      rcases Orderly.step (s := { s with worklist := w }) hpending hp hw' with
        ⟨hself, e, herror⟩ | ⟨hself, r, hok, hr, hwr⟩
      · -- the step fails, and its point is a first visit of the kind in question
        rw [herror]
        refine iff_of_false ?_ fun hnever => hnever 0 (Nat.succ_pos _) s p w (.refl s) hpop hself
        rintro (⟨y, hy⟩ | hy)
        · cases hy
        · cases hy
      · have hsteps : steps + (remaining + 1) = steps + 1 + remaining := by omega
        have hhere : ¬SelfFirst s p := hself
        rw [forall_steps_succ hpop hok, and_iff_right hhere, ← ih (steps + 1) hr hwr, hok, hsteps]
        rfl

theorem orderly_initialState (hp : a.program.IsBuilt) {main : Function}
    (hmain : a.program.main = .ok main) {nodes : List Nat} (hn : ∀ n ∈ nodes, n < main.graph.size) :
    let s := initialState main (.ofNodes nodes)
    a.Orderly s s.worklist.Waits ∧ s.worklist.Consistent := by
  intro s
  have hw := Worklist.consistent_ofNodes nodes
  refine ⟨⟨invariant_initialState hmain hw, ?_, ?_⟩, hw.push _⟩
  · intro q m c hm
    rw [view_initialState] at hm
    cases hm
  · intro q hq
    have hexpected : ∀ node, node < main.graph.size → a.Expected s ⟨.main, node⟩ :=
      fun node hlt => ⟨⟨⟨main, none, 0⟩, rfl, hlt⟩, .inl rfl⟩
    rcases (Worklist.waits_push hw).1 hq with hq | rfl
    · obtain ⟨hctx, hnode⟩ := Worklist.waits_ofNodes.1 hq
      have hqq : q = ⟨.main, q.node⟩ := by rw [← hctx]
      rw [hqq]
      exact hexpected q.node (hn q.node hnode)
    · exact hexpected _ (hp _ _ (Program.function?_of_main hmain)).entry_lt

/-- Snapshots outside of transactions can be frozen. -/
theorem freezeAll_isOk {snapshots : OrdMap Point Snapshot}
    (h : ∀ (p : Point) t, snapshots[p]? = some t → t.phase = .resting) :
    ∃ result, freezeAll snapshots = .ok result := by
  have hresting : ∀ y ∈ snapshots.toList, y.2.phase = .resting := by
    intro y hy
    exact h y.1 y.2 (ExtTreeMap.mem_toList_iff_getElem?_eq_some.1 hy)
  unfold freezeAll
  generalize snapshots.toList = l at hresting ⊢
  generalize (∅ : OrdMap Point Snapshot) = frozen
  induction l generalizing frozen with
  | nil => exact ⟨frozen, rfl⟩
  | cons y l ih =>
    obtain ⟨q, limits, memory, phase, commits, changed, statistics⟩ := y
    obtain rfl : phase = .resting := hresting _ List.mem_cons_self
    rw [List.foldlM_cons]
    exact ih (fun z hz => hresting z (List.mem_cons_of_mem _ hz)) _

/-- The analysis of a built program keeps its contracts exactly if it never comes to the first visit
of a point of a called function that is its own predecessor. Then it ends with a report, or it runs
out of steps. -/
theorem run_finishes_iff (hp : a.program.IsBuilt) {main : Function}
    (hmain : a.program.main = .ok main) {nodes : List Nat} (hn : ∀ n ∈ nodes, n < main.graph.size) :
    ((∃ r, a.run (.ofNodes nodes) = .ok r) ∨
        a.run (.ofNodes nodes) = .error (.noFixpoint a.config.maxSteps)) ↔
      ∀ k < a.config.maxSteps, ∀ s p w, a.Steps k (initialState main (.ofNodes nodes)) s →
        s.worklist.pop? = some (p, w) → ¬SelfFirst s p := by
  obtain ⟨h, hw⟩ := orderly_initialState hp hmain hn
  rw [← drive_finishes_iff hp 0 h hw, Nat.zero_add]
  rw [run_eq hmain]
  cases hdrive : a.drive a.config.maxSteps 0 (initialState main (.ofNodes nodes)) with
  | error e =>
    constructor
    · rintro (⟨r, hr⟩ | hr)
      · cases hr
      · rw [Except.error.inj hr]
        exact .inr rfl
    · rintro (⟨y, hy⟩ | hy)
      · cases hy
      · rw [Except.error.inj hy]
        exact .inr rfl
  | ok y =>
    -- what the driver leaves can be frozen
    refine iff_of_true (.inl ?_) (.inl ⟨y, rfl⟩)
    obtain ⟨⟨hend, -⟩, -⟩ := drive_invariant (fun s p w s' h => Orderly.next h hp) ⟨h, hw⟩ hdrive
    obtain ⟨snapshots, hfreeze⟩ := freezeAll_isOk fun p t ht => (hend.invariant.rests p t ht).2.1
    refine ⟨⟨y.1.contexts, snapshots, y.2⟩, ?_⟩
    change (freezeAll y.1.snapshots).bind _ = _
    rw [hfreeze]
    rfl

end Analysis

namespace Sample

/-- A body in which one node is its own successor. -/
def spinning : Graph where
  nodes := [⟨0, .enter⟩, ⟨1, .branch .any⟩, ⟨2, .exit⟩]
  edges := [(0, 1), (1, 1), (1, 2)]
  entry := 0
  exit := 2

theorem isBuilt_spinning : spinning.IsBuilt :=
  ⟨{ nodes := spinning.nodes, edges := [(0, 1), (1, 1), (1, 2)] }, rfl⟩

/-- A script that calls such a function. -/
def spin : Analysis where
  program := (Program.withFunction {} ⟨"spin", [], spinning⟩).withFunction
    ⟨"main", [], calling "spin" .any⟩

theorem isBuilt_spin : spin.program.IsBuilt :=
  (Program.isBuilt_empty.withFunction isBuilt_spinning).withFunction (isBuilt_calling _ _)

end Sample

namespace Analysis

/-- The loop in a called function keeps the contracts: its head is not its own successor. -/
theorem run_finishes_iff_loop : Sample.loop.program.IsBuilt ∧
    (∃ r, Sample.loop.run (.ofNodes [1]) = .ok r) ∧
    ¬∃ k s p w, k < 100000 ∧
      Sample.loop.Steps k
        (initialState ⟨"main", [], Sample.calling "copy" .any⟩ (.ofNodes [1])) s ∧
      s.worklist.pop? = some (p, w) ∧ SelfFirst s p := by
  have hmain : Sample.loop.program.main = .ok ⟨"main", [], Sample.calling "copy" .any⟩ :=
    Program.main_withFunction _ rfl
  have hrun := Sample.run_loop
  cases hr : Sample.loop.run (.ofNodes [1]) with
  | error e =>
    rw [hr] at hrun
    cases hrun
  | ok r =>
    refine ⟨Sample.isBuilt_loop, ⟨r, rfl⟩, ?_⟩
    rintro ⟨k, s, p, w, hk, hsteps, hpop, hfirst⟩
    have hkeeps := (run_finishes_iff Sample.isBuilt_loop hmain (by decide)).1 (.inl ⟨r, hr⟩)
    exact hkeeps k hk s p w hsteps hpop hfirst

set_option maxRecDepth 20000 in
/-- The script that calls a function with such a node fails, although its graphs are accepted. -/
theorem run_fails_spin : Sample.spin.program.IsBuilt ∧
    Sample.spin.run (.ofNodes []) = .error (.contract (.callLevelMismatch 0 1)) := by
  refine ⟨Sample.isBuilt_spin, ?_⟩
  have herror : (match Sample.spin.run (.ofNodes []) with
      | .ok _ => none
      | .error e => some e) = some (.contract (.callLevelMismatch 0 1)) := by
    decide +kernel
  cases hr : Sample.spin.run (.ofNodes []) with
  | ok r =>
    rw [hr] at herror
    cases herror
  | error e =>
    rw [hr] at herror
    rw [Option.some.inj herror]

end Analysis
end ScriptMemory
