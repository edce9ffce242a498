import ScriptMemory.Proofs.Analysis.Flow

/-! One step of the driver. A step either finds nothing to do or records the outcome of a visit;
what it records is a function of the memories in view. -/
namespace ScriptMemory
open Std

namespace AnalysisState
variable {a : Analysis} {s s' : AnalysisState} {p q : Point}

/-- The tree is about contexts and calls only. -/
theorem Tree.congr (hs : s.Tree a) (hcontexts : s'.contexts = s.contexts)
    (hcalls : s'.calls = s.calls) : s'.Tree a := by
  have hg : s.Grows s' := by
    intro id c hc
    rw [hcontexts]
    exact hc
  refine ⟨?_, ?_, ?_, ?_, ?_⟩
  · rw [hcontexts]
    exact hs.root
  · rw [hcontexts]
    exact hs.orphan
  · rw [hcontexts, hcalls]
    exact hs.calls
  · rw [hcontexts]
    exact hs.older
  · intro id c call hc hcaller
    rw [hcontexts] at hc
    obtain ⟨caller, name, args, hctx, hst, hv⟩ := hs.entered id c call hc hcaller
    exact ⟨caller, name, args, hg _ _ hctx, hst, (verdict_eq hs hg hctx name).trans hv⟩

theorem grows_of_eq (hcontexts : s'.contexts = s.contexts) : s.Grows s' := by
  intro id c hc
  rw [hcontexts]
  exact hc

theorem viewFrom_self (s : AnalysisState) (p : Point) (previous : Snapshot) :
    s.viewFrom p previous p = some previous.memory := by
  unfold viewFrom lookUp
  rw [if_pos rfl]
  rfl

theorem viewFrom_of_ne (s : AnalysisState) (previous : Snapshot) (h : q ≠ p) :
    s.viewFrom p previous q = s.view q := by
  unfold viewFrom lookUp
  rw [if_neg h]
  rfl

end AnalysisState

namespace Analysis
open Transact
variable {a : Analysis} {s s' r : AnalysisState} {p q u : Point} {c : Context} {st : Statement}
  {target : Option CallTarget} {m n before : Memory} {x : Intake} {view : Point → Option Memory}
  {t : Snapshot}

/-- Only the caller is looked up when parameters are bound. -/
theorem bindParameters_congr {call : Point} (hcaller : c.caller = some call)
    (h : s'.contexts[call.context]? = s.contexts[call.context]?) :
    a.bindParameters s' c = a.bindParameters s c := by
  unfold bindParameters
  rw [hcaller]
  dsimp only
  rw [h]

/-- The transfer of a known point does not depend on contexts found later. -/
theorem transfer_grow (h : a.Site s p c st target) (hp : a.program.IsBuilt) (hs : s.Tree a)
    (hg : s.Grows s') (x : Intake) :
    a.transfer s' c p st target x = a.transfer s c p st target x := by
  have hbind : a.bindParameters s' c = a.bindParameters s c := by
    cases hcaller : c.caller with
    | none =>
      unfold bindParameters
      rw [hcaller]
    | some call =>
      obtain ⟨caller, _, _, hctx, -⟩ := hs.entered _ c call h.context hcaller
      exact bindParameters_congr hcaller ((hg _ _ hctx).trans hctx.symm)
  have hcallee : callee? s' target = callee? s target := by
    rcases h.target_cases hp hs with ⟨-, -, rfl⟩ | ⟨call, -, ⟨id, rfl, hid⟩ | ⟨_, _, _, rfl, -⟩⟩
    · rfl
    · obtain ⟨callee, hc, -⟩ := (hs.calls call id).1 hid
      unfold callee?
      dsimp only
      rw [hc, hg _ _ hc]
    · rfl
  unfold transfer takeIn apply
  rw [hbind, hcallee]

/-- Memory is taken in from what is in view, or it is the blank memory of the start. -/
theorem mem_intake (hx : intake? s.contexts c p st target view = some x) (hm : m ∈ x.memories) :
    m = .initial ∨ ∃ u, view u = some m := by
  have hsingle {o : Option Memory} {f : Memory → Intake} (hf : ∀ k, (f k).memories = [k])
      (h : o.map f = some x) : o = some m := by
    obtain ⟨k, hk, rfl⟩ := Option.map_eq_some_iff.1 h
    rw [hf, List.mem_singleton] at hm
    rw [hk, hm]
  have hjoin (h : joinIntake c p view = some x) : m = .initial ∨ ∃ u, view u = some m := by
    obtain ⟨sources, rfl, -, hsources⟩ := joinIntake_eq_some h
    exact ((hsources m).1 hm).imp And.left fun ⟨node, _, hnode⟩ => ⟨_, hnode⟩
  unfold intake? at hx
  dsimp only at hx
  split at hx
  · obtain ⟨call, -, hcall⟩ := Option.bind_eq_some_iff.1 (hsingle (fun _ => rfl) hx)
    exact .inr ⟨call, hcall⟩
  · split at hx
    · obtain ⟨callee, -, hexit⟩ := Option.bind_eq_some_iff.1 (hsingle (fun _ => rfl) hx)
      exact .inr ⟨_, hexit⟩
    · obtain ⟨node, -, hnode⟩ := Option.bind_eq_some_iff.1 (hsingle (fun _ => rfl) hx)
      exact .inr ⟨_, hnode⟩
    · exact hjoin hx

/-- The snapshot `t` of a point is what its transfer makes of the memories in `view`, committed over
the memory `before`. -/
structure Outcome (a : Analysis) (s : AnalysisState) (p : Point) (c : Context) (st : Statement)
    (target : Option CallTarget) (view : Point → Option Memory) (x : Intake) (n before : Memory)
    (t : Snapshot) : Prop where
  site : a.Site s p c st target
  intake : intake? s.contexts c p st target view = some x
  fits : ∃ level, x.Fits level
  wellFormed : ∀ m ∈ x.memories, m.WellFormed
  yields : ∀ m, Yields (a.transfer s c p st target x) a.config.limits m () n
  limits : t.limits = a.config.limits
  phase : t.phase = .resting
  memory : t.memory = Memory.committed a.config.limits t.commits before n

theorem Outcome.grow (h : a.Outcome s p c st target view x n before t) (hp : a.program.IsBuilt)
    (hs : s.Tree a) (hs' : s'.Tree a) (hg : s.Grows s') :
    a.Outcome s' p c st target view x n before t where
  site := h.site.grow hp hs hs' hg
  intake := by rw [intake?_grow h.site hp hs hg, h.intake]
  fits := h.fits
  wellFormed := h.wellFormed
  yields := by
    rw [transfer_grow h.site hp hs hg]
    exact h.yields
  limits := h.limits
  phase := h.phase
  memory := h.memory

/-- The outcome of a visit is a frame with every finding of its intake. -/
theorem Outcome.frame (h : a.Outcome s p c st target view x n before t) :
    ∃ level, x.Fits level ∧
      Memory.Frame level (fun f => ∃ m ∈ x.memories, m.Reports f) t.memory := by
  obtain ⟨level, hfits⟩ := h.fits
  obtain ⟨n', hn', hy⟩ := transfer_frame a s c p st target hfits h.wellFormed a.config.limits
  obtain ⟨rfl, -⟩ := (h.yields .initial).unique (hy .initial)
  refine ⟨level, hfits, ?_⟩
  rw [h.memory]
  exact Memory.frame_committed hn' _ _ _

/-- What a visit of `p` starts from. -/
def previous (a : Analysis) (s : AnalysisState) (p : Point) : Snapshot :=
  (s.snapshots[p]?).getD { limits := a.config.limits }

/-- The state after a visit: the snapshot is stored, and the points that depend on it are queued if
it is new or has changed. -/
def recordVisit (s : AnalysisState) (c : Context) (p : Point) (target : Option CallTarget)
    (changed : Bool) (t : Snapshot) : AnalysisState :=
  { s with
    snapshots := s.snapshots.insert p t
    worklist := if changed || (s.snapshots[p]?).isNone then
      s.worklist.pushAll (successors s c p target) else s.worklist }

/-- The state after the visit of `p` that made `t`. -/
def visited (a : Analysis) (s : AnalysisState) (c : Context) (p : Point)
    (target : Option CallTarget) (t : Snapshot) : AnalysisState :=
  recordVisit s c p target (decide (t.memory ≠ (a.previous s p).memory)) t

/-- What remains of a step when the input is chosen. -/
def visitWith (a : Analysis) (s : AnalysisState) (c : Context) (p : Point) (statement : Statement)
    (target : Option CallTarget) : Option Input → Except AnalysisError AnalysisState
  | none => .ok s
  | some input => match (a.visit s c p statement target input).run (a.previous s p) with
    | .error e _ => .error (.contract e)
    | .ok changed t => .ok (recordVisit s c p target changed t)

theorem step_eq (hc : s.contexts[p.context]? = some c)
    (hst : c.function.graph.statement? p.node = some st)
    (htarget : a.targetOf s c.function p st = .ok (r, target)) {input : Option Input}
    (hinput : a.input? r c p st target (a.previous r p) = .ok input) :
    a.step s p = a.visitWith r c p st target input := by
  have hinput' : a.input? r c p st target
      ((r.snapshots[p]?).getD { limits := a.config.limits }) = .ok input := hinput
  unfold step
  simp only [hc, hst, htarget, bind, Except.bind, hinput']
  cases input with
  | none => rfl
  | some input =>
    change (match (a.visit r c p st target input).run (a.previous r p) with
      | .error e _ => throw (.contract e)
      | .ok changed t => _ : Except AnalysisError AnalysisState) = _
    unfold visitWith
    dsimp only
    cases (a.visit r c p st target input).run (a.previous r p) with
    | error e t => rfl
    | ok changed t =>
      dsimp only
      unfold recordVisit
      split
      · rfl
      · rfl

theorem previous_eq (h : s.snapshots[p]? = some t) : a.previous s p = t := by
  unfold previous
  rw [h]
  rfl

theorem previous_memory (a : Analysis) (hp : s.view p = none) :
    (a.previous s p).memory = .initial := by
  unfold previous
  rw [Option.map_eq_none_iff.1 hp]
  rfl

/-- What a visit of a point with a snapshot sees is what is in view. -/
theorem viewFrom_previous (h : (s.view p).isSome) (u : Point) :
    s.viewFrom p (a.previous s p) u = s.view u := by
  by_cases hu : u = p
  · obtain ⟨t, ht⟩ := Option.isSome_iff_exists.1 ((Option.isSome_map ..).symm.trans h)
    rw [hu, AnalysisState.viewFrom_self, previous_eq ht, AnalysisState.view_eq_some ht]
  · exact AnalysisState.viewFrom_of_ne _ _ hu

/-- What a visit sees is in view, but for the point itself on its first visit, which is blank. -/
theorem viewFrom_eq_some (hm : s.viewFrom p (a.previous s p) u = some m) :
    s.view u = some m ∨ u = p ∧ s.view p = none ∧ m = .initial := by
  cases hview : s.view p with
  | some old =>
    rw [viewFrom_previous (by rw [hview]; rfl)] at hm
    exact .inl hm
  | none =>
    by_cases hu : u = p
    · rw [hu, AnalysisState.viewFrom_self, previous_memory a hview, Option.some.injEq] at hm
      exact .inr ⟨hu, rfl, hm.symm⟩
    · rw [AnalysisState.viewFrom_of_ne _ _ hu] at hm
      exact .inl hm

/-- Every snapshot of the state has the limits of the analysis, is out of transactions and holds
well-formed memory. -/
def Rests (a : Analysis) (s : AnalysisState) : Prop :=
  ∀ (p : Point) (t : Snapshot), s.snapshots[p]? = some t →
    t.limits = a.config.limits ∧ t.phase = .resting ∧ t.memory.WellFormed

theorem Rests.previous (h : a.Rests s) (p : Point) :
    (a.previous s p).limits = a.config.limits ∧ (a.previous s p).phase = .resting := by
  unfold Analysis.previous
  cases ht : s.snapshots[p]? with
  | none => exact ⟨rfl, rfl⟩
  | some t =>
    obtain ⟨hlimits, hphase, -⟩ := h p t ht
    exact ⟨hlimits, hphase⟩

theorem Rests.viewFrom (h : a.Rests s) (hm : s.viewFrom p (a.previous s p) u = some m) :
    m.WellFormed := by
  rcases viewFrom_eq_some hm with hview | ⟨-, -, rfl⟩
  · obtain ⟨t, ht, rfl⟩ := Option.map_eq_some_iff.1 hview
    exact (h u t ht).2.2
  · exact Memory.wellFormed_initial

/-- What is done at a resolved point: nothing if there is no intake, and otherwise the outcome of a
visit is recorded, unless the intake is refused. -/
theorem visitWith_spec (hp : a.program.IsBuilt) (hs : s.Tree a) (hrests : a.Rests s)
    (hsite : a.Site s p c st target) :
    ∃ input, a.input? s c p st target (a.previous s p) = .ok input ∧
      (intake? s.contexts c p st target (s.viewFrom p (a.previous s p)) = none ∧
          a.visitWith s c p st target input = .ok s ∨
        ∃ x, intake? s.contexts c p st target (s.viewFrom p (a.previous s p)) = some x ∧
          ((∃ n t, a.Outcome s p c st target (s.viewFrom p (a.previous s p)) x n
              (a.previous s p).memory t ∧
              t.commits = (a.previous s p).commits + 1 ∧
              t.changed = decide (t.memory ≠ (a.previous s p).memory) ∧
              a.visitWith s c p st target input = .ok (a.visited s c p target t)) ∨
            (∀ level, ¬x.Fits level) ∧
              ∃ e, a.visitWith s c p st target input = .error (.contract e))) := by
  obtain ⟨input, hinput, hintake⟩ := input?_spec hsite hp hs (a.previous s p)
  refine ⟨input, hinput, ?_⟩
  rw [← hintake]
  cases input with
  | none => exact .inl ⟨rfl, rfl⟩
  | some input =>
    refine .inr ⟨input.intake, rfl, ?_⟩
    obtain ⟨hlimits, hphase⟩ := hrests.previous p
    rw [Option.map_some] at hintake
    -- what fits no level is refused, and everything else goes through
    by_cases hfits : ∃ level, input.intake.Fits level
    · have hwf : ∀ m ∈ input.intake.memories, m.WellFormed := by
        intro m hm
        rcases mem_intake hintake.symm hm with rfl | ⟨u, hu⟩
        · exact Memory.wellFormed_initial
        · exact hrests.viewFrom hu
      obtain ⟨level, hlevel⟩ := hfits
      obtain ⟨n, -, hn⟩ := transfer_frame a s c p st target hlevel hwf a.config.limits
      obtain ⟨t, hrun, htl, htp, hcommits, hchanged, htm⟩ :=
        visit_run input hphase (hlimits ▸ hn)
      rw [hlimits] at htl htm
      refine .inl ⟨n, t, ⟨hsite, hintake.symm, ⟨level, hlevel⟩, hwf, hn, htl, htp, htm⟩, hcommits,
        hchanged, ?_⟩
      simp only [visitWith, hrun, visited]
    · have hfits' : ∀ level, ¬input.intake.Fits level := fun level h => hfits ⟨level, h⟩
      obtain ⟨e, t, hrun⟩ := visit_error a s c p st target hphase hfits'
      refine .inr ⟨hfits', e, ?_⟩
      simp only [visitWith, hrun]

/-- A step at a known point resolves its target and visits it. -/
theorem step_spec (hp : a.program.IsBuilt) (hs : s.Tree a) (hc : s.contexts[p.context]? = some c)
    (hst : c.function.graph.statement? p.node = some st) :
    ∃ r target, r.Tree a ∧ s.Grows r ∧ r.snapshots = s.snapshots ∧ r.worklist = s.worklist ∧
      a.Site r p c st target ∧
      ∀ input, a.input? r c p st target (a.previous r p) = .ok input →
        a.step s p = a.visitWith r c p st target input := by
  obtain ⟨r, target, htarget, htree, hg, hsnapshots, hworklist, hsite⟩ := targetOf_spec hp hs hc hst
  exact ⟨r, target, htree, hg, hsnapshots, hworklist, hsite, fun _ => step_eq hc hst htarget⟩

/-- A successful step has nothing to do at a point of no context, or it resolves the target of its
point and then waits for an intake or records the outcome of a visit. -/
theorem step_ok (hp : a.program.IsBuilt) (hs : s.Tree a) (hrests : a.Rests s)
    (hstep : a.step s p = .ok s') :
    (s.contexts[p.context]? = none ∧ s' = s) ∨
      ∃ r c st target, r.Tree a ∧ s.Grows r ∧ r.snapshots = s.snapshots ∧
        r.worklist = s.worklist ∧ a.Site r p c st target ∧
        ((intake? r.contexts c p st target (r.viewFrom p (a.previous r p)) = none ∧ s' = r) ∨
          ∃ x n t, a.Outcome r p c st target (r.viewFrom p (a.previous r p)) x n
              (a.previous r p).memory t ∧
            s' = a.visited r c p target t) := by
  cases hc : s.contexts[p.context]? with
  | none =>
    left
    unfold step at hstep
    rw [hc] at hstep
    exact ⟨rfl, (Except.ok.inj hstep).symm⟩
  | some c =>
    cases hst : c.function.graph.statement? p.node with
    | none =>
      unfold step at hstep
      rw [hc] at hstep
      dsimp only at hstep
      rw [hst] at hstep
      cases hstep
    | some st =>
      obtain ⟨r, target, hr, hg, hsnapshots, hworklist, hsite, hvisit⟩ := step_spec hp hs hc hst
      refine .inr ⟨r, c, st, target, hr, hg, hsnapshots, hworklist, hsite, ?_⟩
      have hrests' : a.Rests r := by
        unfold Rests
        rw [hsnapshots]
        exact hrests
      -- the point is visited when its target is resolved
      obtain ⟨input, hinput, hcases⟩ := visitWith_spec hp hr hrests' hsite
      rw [hvisit input hinput] at hstep
      rcases hcases with ⟨hnone, hok⟩ | ⟨x, -, ⟨n, t, hout, -, -, hok⟩ | ⟨-, e, herror⟩⟩
      · exact .inl ⟨hnone, Except.ok.inj (hstep.symm.trans hok)⟩
      · exact .inr ⟨x, n, t, hout, Except.ok.inj (hstep.symm.trans hok)⟩
      · rw [herror] at hstep
        cases hstep

end Analysis
end ScriptMemory
