import ScriptMemory.Proofs.Analysis.Visit
import ScriptMemory.Proofs.Analysis.Worklist

/-! The invariant of the driver. Every point with a snapshot that does not wait is settled: its
snapshot was made from what flows to it now. A point becomes unsettled only when something that
flows to it changes, and then it is queued. -/
namespace ScriptMemory
open Std

namespace Analysis
variable {a : Analysis} {s s' r : AnalysisState} {p q u : Point} {c : Context} {st : Statement}
  {target : Option CallTarget} {m n before : Memory} {x : Intake} {t : Snapshot}
  {pending pending' : Point → Prop} {view : Point → Option Memory}

/-- The snapshot of a point is the outcome of a visit in which it saw what flows to it now. -/
def Settled (a : Analysis) (s : AnalysisState) (q : Point) : Prop :=
  ∃ c st target view x n before t, s.snapshots[q]? = some t ∧
    a.Outcome s q c st target view x n before t ∧ ∀ u, Flow s.contexts u q → view u = s.view u

/-- What the driver keeps up while the points `pending` have still to be processed. -/
structure Invariant (a : Analysis) (s : AnalysisState) (pending : Point → Prop) : Prop where
  tree : s.Tree a
  rests : a.Rests s
  known : ∀ p, (s.view p).isSome → ∃ c st target, a.Site s p c st target ∧
    (intake? s.contexts c p st target s.view).isSome
  settled : ∀ q, (s.view q).isSome → pending q ∨ a.Settled s q
  reached : ∀ u q, Flow s.contexts u q → (s.view u).isSome → pending q ∨ (s.view q).isSome
  start : ∀ f, a.program.main = .ok f →
    (f.graph.statement? f.graph.entry).any Statement.isCallReturn = false →
    pending ⟨.main, f.graph.entry⟩ ∨ (s.view ⟨.main, f.graph.entry⟩).isSome

theorem view_congr (h : r.snapshots = s.snapshots) : r.view = s.view := by
  funext p
  unfold AnalysisState.view
  rw [h]

theorem Invariant.mono (h : a.Invariant s pending) (hp : ∀ q, pending q → pending' q) :
    a.Invariant s pending' where
  tree := h.tree
  rests := h.rests
  known := h.known
  settled := fun q hq => (h.settled q hq).imp_left (hp q)
  reached := fun u q hf hu => (h.reached u q hf hu).imp_left (hp q)
  start := fun f hf hst => (h.start f hf hst).imp_left (hp _)

/-- Finding contexts does not disturb the invariant. -/
theorem Invariant.grow (h : a.Invariant s pending) (hp : a.program.IsBuilt) (hr : r.Tree a)
    (hg : s.Grows r) (hsnapshots : r.snapshots = s.snapshots) : a.Invariant r pending where
  tree := hr
  rests := by
    unfold Rests
    rw [hsnapshots]
    exact h.rests
  known := by
    intro p hv
    rw [view_congr hsnapshots] at hv ⊢
    obtain ⟨c, st, target, hsite, hintake⟩ := h.known p hv
    refine ⟨c, st, target, hsite.grow hp h.tree hr hg, ?_⟩
    rw [intake?_grow hsite hp h.tree hg]
    exact hintake
  settled := by
    intro q hv
    rw [view_congr hsnapshots] at hv
    apply (h.settled q hv).imp_right
    rintro ⟨c, st, target, view, x, n, before, t, ht, hout, hflow⟩
    refine ⟨c, st, target, view, x, n, before, t, ?_, hout.grow hp h.tree hr hg, ?_⟩
    · rw [hsnapshots]
      exact ht
    · intro u hf
      rw [view_congr hsnapshots]
      exact hflow u (flow_of_grows hf hout.site hp h.tree hr hg)
  reached := by
    intro u q hf hv
    rw [view_congr hsnapshots] at hv ⊢
    obtain ⟨c, st, target, hsite, -⟩ := h.known u hv
    exact h.reached u q (flow_of_grows_source hf hsite hp h.tree hr hg) hv
  start := by
    rw [view_congr hsnapshots]
    exact h.start

theorem isSome_viewFrom (h : (s.view u).isSome) (p : Point) (previous : Snapshot) :
    (s.viewFrom p previous u).isSome := by
  by_cases hu : u = p
  · rw [hu, AnalysisState.viewFrom_self]
    rfl
  · rw [AnalysisState.viewFrom_of_ne _ _ hu]
    exact h

/-- A point need not be kept pending if it has no snapshot and nothing that has one flows to it. -/
theorem Invariant.drop (h : a.Invariant s fun q => q = p ∨ pending q)
    (hunseen : ¬(s.view p).isSome) (hflow : ∀ u, Flow s.contexts u p → ¬(s.view u).isSome)
    (hstart : ∀ f, a.program.main = .ok f →
      (f.graph.statement? f.graph.entry).any Statement.isCallReturn = false →
      p ≠ ⟨.main, f.graph.entry⟩) :
    a.Invariant s pending := by
  refine ⟨h.tree, h.rests, h.known, ?_, ?_, ?_⟩
  · intro q hv
    rcases h.settled q hv with (rfl | hq) | hq
    · exact absurd hv hunseen
    · exact .inl hq
    · exact .inr hq
  · intro u q hf hv
    rcases h.reached u q hf hv with (rfl | hq) | hq
    · exact absurd hv (hflow u hf)
    · exact .inl hq
    · exact .inr hq
  · intro f hf hentry
    rcases h.start f hf hentry with (hq | hq) | hq
    · exact absurd hq.symm (hstart f hf hentry)
    · exact .inl hq
    · exact .inr hq

/-- A point that cannot be visited yet need not be kept pending. -/
theorem Invariant.wait (h : a.Invariant s fun q => q = p ∨ pending q) (hp : a.program.IsBuilt)
    (hsite : a.Site s p c st target) {previous : Snapshot}
    (hnone : intake? s.contexts c p st target (s.viewFrom p previous) = none) :
    a.Invariant s pending := by
  apply h.drop
  · -- a point with a snapshot found an intake once, and intakes stay
    intro hv
    obtain ⟨c', st', target', hsite', hintake⟩ := h.known p hv
    obtain ⟨rfl, rfl, rfl⟩ := hsite.unique hsite'
    have hsome := intake?_isSome_mono (fun u hu => isSome_viewFrom hu p previous) hintake
    rw [hnone] at hsome
    cases hsome
  · -- whatever flows here would be part of an intake
    intro u hf hv
    obtain ⟨m, hm⟩ := Option.isSome_iff_exists.1 (isSome_viewFrom hv p previous)
    obtain ⟨x, hx, -⟩ := intake?_of_flow hf hsite hp h.tree hm
    rw [hnone] at hx
    cases hx
  · -- the entry of the script takes blank memory in, whatever is in view
    rintro f hf hentry rfl
    obtain ⟨f', hf', hroot⟩ := h.tree.root
    obtain rfl : f = f' := Except.ok.inj (hf.symm.trans hf')
    obtain rfl : c = ⟨f, none, 0⟩ := Option.some.inj (hsite.context.symm.trans hroot)
    have hst : st.isCallReturn = false := by
      have hs := hsite.statement
      dsimp only at hs
      rw [hs] at hentry
      exact hentry
    rw [intake?_join (fun h => h.2 rfl) hst] at hnone
    have hsome : (joinIntake ⟨f, none, 0⟩ ⟨.main, f.graph.entry⟩
        (s.viewFrom ⟨.main, f.graph.entry⟩ previous)).isSome := joinIntake_isSome.2 (.inl rfl)
    rw [hnone] at hsome
    cases hsome

theorem snapshots_visited (a : Analysis) (s : AnalysisState) (c : Context) (p : Point)
    (target : Option CallTarget) (t : Snapshot) (q : Point) :
    (a.visited s c p target t).snapshots[q]? = if q = p then some t else s.snapshots[q]? := by
  unfold visited recordVisit
  dsimp only
  rw [ExtTreeMap.getElem?_insert]
  simp only [LawfulEqCmp.compare_eq_iff_eq]
  by_cases h : q = p
  · rw [if_pos h.symm, if_pos h]
  · rw [if_neg fun hp => h hp.symm, if_neg h]

theorem view_visited (a : Analysis) (s : AnalysisState) (c : Context) (p : Point)
    (target : Option CallTarget) (t : Snapshot) (q : Point) :
    (a.visited s c p target t).view q = if q = p then some t.memory else s.view q := by
  unfold AnalysisState.view
  rw [snapshots_visited]
  split
  · rfl
  · rfl

/-- What is in view stays in view. -/
theorem isSome_view_visited (h : (s.view q).isSome) :
    ((a.visited s c p target t).view q).isSome := by
  rw [view_visited]
  split
  · rfl
  · exact h

theorem waits_visited (hw : s.worklist.Consistent) :
    (a.visited s c p target t).worklist.Waits q ↔ s.worklist.Waits q ∨
      (decide (t.memory ≠ (a.previous s p).memory) || (s.snapshots[p]?).isNone) = true ∧
        q ∈ successors s c p target := by
  unfold visited recordVisit
  dsimp only
  by_cases h : (decide (t.memory ≠ (a.previous s p).memory) || (s.snapshots[p]?).isNone) = true
  · rw [if_pos h, Worklist.waits_pushAll hw, and_iff_right h]
  · rw [if_neg h, or_iff_left fun hq => h hq.1]

theorem consistent_visited (hw : s.worklist.Consistent) :
    (a.visited s c p target t).worklist.Consistent := by
  unfold visited recordVisit
  dsimp only
  split
  · exact hw.pushAll _
  · exact hw

theorem tree_visited (hs : s.Tree a) : (a.visited s c p target t).Tree a :=
  hs.congr rfl rfl

theorem grows_visited : s.Grows (a.visited s c p target t) :=
  AnalysisState.grows_of_eq rfl

/-- Either the memory of the visited point is what it was before, or all that it flows to waits. -/
theorem unchanged_or_waits (hp : a.program.IsBuilt) (hs : s.Tree a) (hw : s.worklist.Consistent)
    (hsite : a.Site s p c st target) (t : Snapshot) :
    (s.view p = some t.memory ∧ (a.previous s p).memory = t.memory) ∨
      ∀ q, Flow s.contexts p q → (a.visited s c p target t).worklist.Waits q := by
  by_cases h : (decide (t.memory ≠ (a.previous s p).memory) || (s.snapshots[p]?).isNone) = true
  · right
    intro q hf
    exact (waits_visited hw).2 (.inr ⟨h, mem_successors_of_flow hf hsite hp hs⟩)
  · left
    rw [Bool.or_eq_true, not_or] at h
    obtain ⟨hchanged, hold⟩ := h
    have hmemory : t.memory = (a.previous s p).memory := by simpa using hchanged
    refine ⟨?_, hmemory.symm⟩
    cases hs : s.snapshots[p]? with
    | none =>
      rw [hs] at hold
      exact absurd rfl hold
    | some old => rw [AnalysisState.view_eq_some hs, hmemory, previous_eq hs]

theorem rests_visited (h : a.Rests s)
    (hout : a.Outcome s p c st target view x n before t) : a.Rests (a.visited s c p target t) := by
  intro q t' ht'
  rw [snapshots_visited] at ht'
  split at ht'
  · cases ht'
    obtain ⟨level, -, hframe⟩ := hout.frame
    exact ⟨hout.limits, hout.phase, hframe.toWellFormed⟩
  · exact h q t' ht'

/-- Every point with a snapshot can take its input, the visited point among them. -/
theorem known_visited (h : a.Invariant s pending) (hp : a.program.IsBuilt)
    (hout : a.Outcome s p c st target (s.viewFrom p (a.previous s p)) x n before t)
    (hv : ((a.visited s c p target t).view q).isSome) :
    ∃ c' st' target', a.Site (a.visited s c p target t) q c' st' target' ∧
      (intake? (a.visited s c p target t).contexts c' q st' target'
        (a.visited s c p target t).view).isSome := by
  have htree : (a.visited s c p target t).Tree a := tree_visited h.tree
  by_cases hq : q = p
  · subst hq
    refine ⟨c, st, target, hout.site.grow hp h.tree htree grows_visited, ?_⟩
    have hseen : ∀ u, (s.viewFrom q (a.previous s q) u).isSome →
        ((a.visited s c q target t).view u).isSome := by
      intro u hu
      by_cases hup : u = q
      · rw [view_visited, if_pos hup]
        rfl
      · rw [AnalysisState.viewFrom_of_ne _ _ hup] at hu
        exact isSome_view_visited hu
    apply intake?_isSome_mono hseen
    rw [intake?_grow hout.site hp h.tree grows_visited, hout.intake]
    rfl
  · rw [view_visited, if_neg hq] at hv
    obtain ⟨c', st', target', hsite, hintake⟩ := h.known q hv
    refine ⟨c', st', target', hsite.grow hp h.tree htree grows_visited, ?_⟩
    rw [intake?_grow hsite hp h.tree grows_visited]
    exact intake?_isSome_mono (fun u => isSome_view_visited) hintake

/-- The visited point is settled, unless it flows to itself and waits again. -/
theorem settled_visited (hp : a.program.IsBuilt) (hs : s.Tree a) (hw : s.worklist.Consistent)
    (hout : a.Outcome s p c st target (s.viewFrom p (a.previous s p)) x n before t) :
    (a.visited s c p target t).worklist.Waits p ∨ a.Settled (a.visited s c p target t) p := by
  have hsettled (hflow : ∀ u, Flow s.contexts u p →
      s.viewFrom p (a.previous s p) u = (a.visited s c p target t).view u) :
      a.Settled (a.visited s c p target t) p := by
    refine ⟨c, st, target, _, x, n, before, t, ?_,
      hout.grow hp hs (tree_visited hs) grows_visited, hflow⟩
    rw [snapshots_visited, if_pos rfl]
  rcases unchanged_or_waits hp hs hw hout.site t with ⟨-, hsame⟩ | hwaits
  · right
    apply hsettled
    intro u _
    rw [view_visited]
    split
    · next hu => rw [hu, AnalysisState.viewFrom_self, hsame]
    · next hu => exact AnalysisState.viewFrom_of_ne _ _ hu
  · -- the memory has changed: a point that flows to itself did not see that yet
    by_cases hself : Flow s.contexts p p
    · exact .inl (hwaits p hself)
    · right
      apply hsettled
      intro u hf
      have hu : u ≠ p := fun hu => hself (by rw [hu] at hf; exact hf)
      rw [view_visited, if_neg hu]
      exact AnalysisState.viewFrom_of_ne _ _ hu

/-- A visit unsettles only what it queues. -/
theorem Settled.visited (h : a.Settled s q) (hq : q ≠ p) (hp : a.program.IsBuilt) (hs : s.Tree a)
    (hw : s.worklist.Consistent) (hsite : a.Site s p c st target) (t : Snapshot) :
    (a.visited s c p target t).worklist.Waits q ∨ a.Settled (a.visited s c p target t) q := by
  obtain ⟨c', st', target', view, x', n', before', t', ht', hout', hflow⟩ := h
  -- only a change that flows to `q` can unsettle it
  by_cases hchanged : Flow s.contexts p q ∧ s.view p ≠ some t.memory
  · rcases unchanged_or_waits hp hs hw hsite t with ⟨hsame, -⟩ | hwaits
    · exact absurd hsame hchanged.2
    · exact .inl (hwaits q hchanged.1)
  · refine .inr ⟨c', st', target', view, x', n', before', t', ?_,
      hout'.grow hp hs (tree_visited hs) grows_visited, ?_⟩
    · rw [snapshots_visited, if_neg hq]
      exact ht'
    · intro u hf
      rw [hflow u hf, view_visited]
      split
      · next hu =>
        subst hu
        exact Classical.not_not.1 fun hne => hchanged ⟨hf, hne⟩
      · rfl

/-- A visit settles its point and queues what it unsettles. -/
theorem Invariant.visit (h : a.Invariant s fun q => q = p ∨ s.worklist.Waits q)
    (hp : a.program.IsBuilt) (hw : s.worklist.Consistent)
    (hout : a.Outcome s p c st target (s.viewFrom p (a.previous s p)) x n
      (a.previous s p).memory t) :
    a.Invariant (a.visited s c p target t) (a.visited s c p target t).worklist.Waits := by
  have hkept {q : Point} (hq : q = p ∨ s.worklist.Waits q) (hne : q ≠ p) :
      (a.visited s c p target t).worklist.Waits q :=
    (waits_visited hw).2 (.inl (hq.resolve_left hne))
  have hseen : ((a.visited s c p target t).view p).isSome := by
    rw [view_visited, if_pos rfl]
    rfl
  refine ⟨tree_visited h.tree, rests_visited h.rests hout, fun q => known_visited h hp hout,
    ?_, ?_, ?_⟩
  · intro q hv
    by_cases hq : q = p
    · subst hq
      exact settled_visited hp h.tree hw hout
    · rw [view_visited, if_neg hq] at hv
      rcases h.settled q hv with hpending | hsettled
      · exact .inl (hkept hpending hq)
      · exact hsettled.visited hq hp h.tree hw hout.site t
  · intro u q hf hv
    by_cases hq : q = p
    · rw [hq]
      exact .inr hseen
    · by_cases hu : u = p
      · -- what the visited point flows to has been reached before, or it is queued now
        subst hu
        rcases unchanged_or_waits hp h.tree hw hout.site t with ⟨hsame, -⟩ | hwaits
        · rcases h.reached u q hf (by rw [hsame]; rfl) with hpending | hv'
          · exact .inl (hkept hpending hq)
          · exact .inr (isSome_view_visited hv')
        · exact .inl (hwaits q hf)
      · rw [view_visited, if_neg hu] at hv
        rcases h.reached u q hf hv with hpending | hv'
        · exact .inl (hkept hpending hq)
        · exact .inr (isSome_view_visited hv')
  · intro f hf hst
    by_cases hq : (⟨.main, f.graph.entry⟩ : Point) = p
    · rw [hq]
      exact .inr hseen
    · rcases h.start f hf hst with hpending | hv
      · exact .inl (hkept hpending hq)
      · exact .inr (isSome_view_visited hv)

/-- A point of no context need not be kept pending. -/
theorem Invariant.skip (h : a.Invariant s fun q => q = p ∨ pending q)
    (hc : s.contexts[p.context]? = none) : a.Invariant s pending := by
  have hunknown {c : Context} (hc' : s.contexts[p.context]? = some c) : False := by
    rw [hc] at hc'
    cases hc'
  apply h.drop
  · intro hv
    obtain ⟨c, st, target, hsite, -⟩ := h.known p hv
    exact hunknown hsite.context
  · intro u hf _
    obtain ⟨c, hc'⟩ := hf.target_known
    exact hunknown hc'
  · rintro f - - rfl
    obtain ⟨f', -, hroot⟩ := h.tree.root
    exact hunknown hroot

/-- A successful step processes its point: what still waits is all that is left to do. -/
theorem Invariant.step (h : a.Invariant s fun q => q = p ∨ s.worklist.Waits q)
    (hp : a.program.IsBuilt) (hw : s.worklist.Consistent) (hstep : a.step s p = .ok s') :
    a.Invariant s' s'.worklist.Waits ∧ s'.worklist.Consistent := by
  rcases step_ok hp h.tree h.rests hstep with
    ⟨hc, rfl⟩ | ⟨r, c, st, target, hr, hg, hsnapshots, hworklist, hsite, hcases⟩
  · exact ⟨h.skip hc, hw⟩
  · have hr' : a.Invariant r fun q => q = p ∨ r.worklist.Waits q := by
      rw [hworklist]
      exact h.grow hp hr hg hsnapshots
    rw [← hworklist] at hw
    rcases hcases with ⟨hnone, rfl⟩ | ⟨x, n, t, hout, rfl⟩
    · exact ⟨hr'.wait hp hsite hnone, hw⟩
    · exact ⟨hr'.visit hp hw hout, consistent_visited hw⟩

/-- Popping a point makes it pending instead of waiting. -/
theorem Invariant.pop (h : a.Invariant s s.worklist.Waits) (hp : a.program.IsBuilt)
    (hw : s.worklist.Consistent) {w : Worklist} (hpop : s.worklist.pop? = some (p, w)) :
    a.Invariant { s with worklist := w } (fun q => q = p ∨ w.Waits q) ∧ w.Consistent := by
  obtain ⟨hw', hwaits⟩ := hw.pop hpop
  exact ⟨(h.mono fun q => (hwaits q).1).grow hp (h.tree.congr rfl rfl)
    (AnalysisState.grows_of_eq rfl) rfl, hw'⟩

theorem drive_of_pop_none (hpop : s.worklist.pop? = none) (remaining steps : Nat) :
    a.drive remaining steps s = .ok (s, steps) := by
  rw [drive.eq_def]
  dsimp only
  rw [hpop]

theorem drive_zero {y : Point × Worklist} (hpop : s.worklist.pop? = some y) (steps : Nat) :
    a.drive 0 steps s = .error (.noFixpoint steps) := by
  rw [drive.eq_def]
  dsimp only
  rw [hpop]

theorem drive_succ {w : Worklist} (hpop : s.worklist.pop? = some (p, w)) (remaining steps : Nat) :
    a.drive (remaining + 1) steps s =
      (a.step { s with worklist := w } p).bind fun r => a.drive remaining (steps + 1) r := by
  rw [drive.eq_def]
  dsimp only
  rw [hpop]
  rfl

/-- What every successful step keeps holds when the driver is done, and then nothing waits. -/
theorem drive_invariant {I : AnalysisState → Prop}
    (hstep : ∀ s p w s', I s → s.worklist.pop? = some (p, w) →
      a.step { s with worklist := w } p = .ok s' → I s')
    {remaining steps k : Nat} (h : I s) (hrun : a.drive remaining steps s = .ok (s', k)) :
    I s' ∧ s'.worklist.pop? = none := by
  -- by induction on the steps that are left
  induction remaining generalizing steps s with
  | zero =>
    cases hpop : s.worklist.pop? with
    | none =>
      rw [drive_of_pop_none hpop] at hrun
      cases hrun
      exact ⟨h, hpop⟩
    | some y =>
      rw [drive_zero hpop] at hrun
      cases hrun
  | succ remaining ih =>
    cases hpop : s.worklist.pop? with
    | none =>
      rw [drive_of_pop_none hpop] at hrun
      cases hrun
      exact ⟨h, hpop⟩
    | some y =>
      rw [drive_succ hpop] at hrun
      obtain ⟨r, hr, hrun⟩ := bind_eq_ok.1 hrun
      exact ih (hstep s y.1 y.2 r h hpop hr) hrun

theorem freeze_ok {t t' : Snapshot} (h : Snapshot.freeze.run t = .ok () t') :
    t' = { t with phase := .frozen } := by
  obtain ⟨limits, memory, phase, commits, changed, statistics⟩ := t
  cases phase
  · cases h
    rfl
  · cases h
  · cases h
    rfl

theorem freeze_fold {l : List (Point × Snapshot)} {acc result : OrdMap Point Snapshot}
    (hdistinct : l.Pairwise fun x y => x.1 ≠ y.1)
    (h : l.foldlM (fun frozen (x : Point × Snapshot) =>
      match Snapshot.freeze.run x.2 with
      | .ok _ s => Except.ok (frozen.insert x.1 s)
      | .error e _ => .error (AnalysisError.contract e)) acc = .ok result) (p : Point) :
    (∀ t, (p, t) ∈ l → result[p]? = some { t with phase := .frozen }) ∧
      ((∀ t, (p, t) ∉ l) → result[p]? = acc[p]?) := by
  -- each point of the list occurs once, so what is inserted for it is not overwritten
  induction l generalizing acc with
  | nil =>
    cases h
    exact ⟨by simp, fun _ => rfl⟩
  | cons x l ih =>
    rw [List.foldlM_cons] at h
    obtain ⟨next, hnext, h⟩ := bind_eq_ok.1 h
    rw [List.pairwise_cons] at hdistinct
    obtain ⟨hin, hout⟩ := ih hdistinct.2 h
    obtain ⟨t', ht', hins⟩ :
        ∃ t', t' = { x.2 with phase := .frozen } ∧ next = acc.insert x.1 t' := by
      split at hnext
      · next t' hrun =>
        cases hnext
        exact ⟨t', freeze_ok hrun, rfl⟩
      · cases hnext
    have hlook : next[p]? = if x.1 = p then some t' else acc[p]? := by
      rw [hins, ExtTreeMap.getElem?_insert]
      simp only [LawfulEqCmp.compare_eq_iff_eq]
    refine ⟨?_, ?_⟩
    · intro t hmem
      rcases List.mem_cons.1 hmem with hx | hmem
      · have hnot : ∀ t, (p, t) ∉ l := by
          intro t' hl
          exact hdistinct.1 (p, t') hl (by rw [← hx])
        rw [hout hnot, hlook, if_pos (by rw [← hx]), ht', ← hx]
      · exact hin t hmem
    · intro hnot
      rw [hout fun t hl => hnot t (List.mem_cons_of_mem x hl), hlook, if_neg]
      intro hx
      exact hnot x.2 (by rw [← hx]; exact List.mem_cons_self)

/-- Freezing keeps everything but the phase. -/
theorem freezeAll_ok {snapshots result : OrdMap Point Snapshot}
    (h : freezeAll snapshots = .ok result) (p : Point) :
    result[p]? = (snapshots[p]?).map fun t => { t with phase := .frozen } := by
  have hdistinct : snapshots.toList.Pairwise fun x y => x.1 ≠ y.1 := by
    apply ExtTreeMap.distinct_keys_toList.imp
    intro x y hxy heq
    exact hxy (LawfulEqCmp.compare_eq_iff_eq.2 heq)
  obtain ⟨hin, hout⟩ := freeze_fold hdistinct h p
  cases hp : snapshots[p]? with
  | none =>
    rw [hout]
    · rfl
    · intro t ht
      rw [ExtTreeMap.mem_toList_iff_getElem?_eq_some, hp] at ht
      cases ht
  | some t => exact hin t (ExtTreeMap.mem_toList_iff_getElem?_eq_some.2 hp)

/-- The state the driver starts in. -/
def initialState (main : Function) (queued : Worklist) : AnalysisState where
  contexts := [{ function := main, caller := none, depth := 0 }]
  worklist := (queued.push ⟨.main, main.graph.entry⟩).1

theorem tree_initialState {main : Function} (hmain : a.program.main = .ok main)
    (queued : Worklist) : (initialState main queued).Tree a := by
  have hlookup : ∀ (id : ContextId) c, (initialState main queued).contexts[id]? = some c →
      id = .main ∧ c = ⟨main, none, 0⟩ := by
    intro id c hc
    cases id with
    | zero =>
      cases hc
      exact ⟨rfl, rfl⟩
    | succ id => cases hc
  -- the only context has no caller
  have hcalled {id : ContextId} {c : Context} {call : Point}
      (hc : (initialState main queued).contexts[id]? = some c) (hcaller : c.caller = some call) :
      False := by
    rw [(hlookup id c hc).2] at hcaller
    cases hcaller
  refine ⟨⟨main, hmain, rfl⟩, fun id c hc _ => (hlookup id c hc).1, ?_,
    fun _ _ _ hc hcaller => (hcalled hc hcaller).elim,
    fun _ _ _ hc hcaller => (hcalled hc hcaller).elim⟩
  intro call id
  have hempty : (initialState main queued).calls[call]? = none := ExtTreeMap.getElem?_empty
  rw [hempty]
  refine iff_of_false (Option.some_ne_none id).symm ?_
  rintro ⟨c, hc, hcaller⟩
  exact hcalled hc hcaller

/-- A run drives the analysis from its first state and freezes what comes of it. -/
theorem run_eq {main : Function} (hmain : a.program.main = .ok main) (queued : Worklist) :
    a.run queued = (a.drive a.config.maxSteps 0 (initialState main queued)).bind fun y =>
      (freezeAll y.1.snapshots).bind fun snapshots =>
        .ok { contexts := y.1.contexts, snapshots, steps := y.2 } := by
  unfold Analysis.run
  rw [hmain]
  rfl

/-- In the beginning no point has a snapshot. -/
theorem view_initialState (main : Function) (queued : Worklist) (p : Point) :
    (initialState main queued).view p = none := by
  have hempty : (initialState main queued).snapshots[p]? = none := ExtTreeMap.getElem?_empty
  unfold AnalysisState.view
  rw [hempty]
  rfl

theorem invariant_initialState {main : Function} (hmain : a.program.main = .ok main)
    {queued : Worklist} (hq : queued.Consistent) :
    a.Invariant (initialState main queued) (initialState main queued).worklist.Waits := by
  have hunseen {p : Point} {P : Prop} (h : ((initialState main queued).view p).isSome) : P := by
    rw [view_initialState] at h
    cases h
  refine ⟨tree_initialState hmain queued, ?_, fun _ h => hunseen h, fun _ h => hunseen h,
    fun _ _ _ h => hunseen h, ?_⟩
  · intro p t ht
    apply hunseen (p := p)
    rw [AnalysisState.view_eq_some ht]
    rfl
  · intro f hf _
    obtain rfl : main = f := Except.ok.inj (hmain.symm.trans hf)
    exact .inl ((Worklist.waits_push hq).2 (.inr rfl))

/-- A run that succeeds ends in a state in which nothing is pending, and which has whatever the
first state has and every step keeps. -/
theorem run_ok_of (hp : a.program.IsBuilt) {queued : Worklist} (hq : queued.Consistent)
    {rep : Report} (h : a.run queued = .ok rep) {K : AnalysisState → Prop}
    (hinit : ∀ main, a.program.main = .ok main → K (initialState main queued))
    (hkeep : ∀ s p s', a.Invariant s (fun q => q = p ∨ s.worklist.Waits q) → K s →
      a.step s p = .ok s' → K s')
    (hpop : ∀ s w, s.Tree a → K s → K { s with worklist := w }) :
    ∃ s, a.Invariant s (fun _ => False) ∧ K s ∧ s.worklist = .empty ∧ rep.contexts = s.contexts ∧
      ∀ p : Point, rep.snapshots[p]? = (s.snapshots[p]?).map fun t =>
        { t with phase := .frozen } := by
  cases hmain : a.program.main with
  | error e =>
    unfold Analysis.run at h
    rw [hmain] at h
    cases h
  | ok main =>
    rw [run_eq hmain] at h
    obtain ⟨⟨s, steps⟩, hdrive, h⟩ := bind_eq_ok.1 h
    obtain ⟨snapshots, hfreeze, h⟩ := bind_eq_ok.1 h
    cases h
    have hstart :
        (a.Invariant (initialState main queued) (initialState main queued).worklist.Waits ∧
        (initialState main queued).worklist.Consistent) ∧ K (initialState main queued) :=
      ⟨⟨invariant_initialState hmain hq, hq.push _⟩, hinit main hmain⟩
    have hstep : ∀ (s : AnalysisState) (p : Point) (w : Worklist) (s' : AnalysisState),
        ((a.Invariant s s.worklist.Waits ∧ s.worklist.Consistent) ∧ K s) →
        s.worklist.pop? = some (p, w) → a.step { s with worklist := w } p = .ok s' →
        (a.Invariant s' s'.worklist.Waits ∧ s'.worklist.Consistent) ∧ K s' := by
      rintro s p w s' ⟨⟨hinv, hw⟩, hK⟩ hpopped hstep
      obtain ⟨hpending, hw'⟩ := hinv.pop hp hw hpopped
      exact ⟨Invariant.step (s := { s with worklist := w }) hpending hp hw' hstep,
        hkeep _ p s' hpending (hpop s w hinv.tree hK) hstep⟩
    obtain ⟨⟨⟨hinv, hw⟩, hK⟩, hdone⟩ := drive_invariant hstep hstart hdrive
    have hempty := hw.eq_empty hdone
    refine ⟨s, hinv.mono ?_, hK, hempty, rfl, freezeAll_ok hfreeze⟩
    intro q hq
    rw [hempty] at hq
    cases hq

/-- A run that succeeds ends in a state in which every point with a snapshot is settled. -/
theorem run_ok (hp : a.program.IsBuilt) {queued : Worklist} (hq : queued.Consistent) {rep : Report}
    (h : a.run queued = .ok rep) :
    ∃ s, a.Invariant s (fun _ => False) ∧ s.worklist = .empty ∧ rep.contexts = s.contexts ∧
      ∀ p : Point, rep.snapshots[p]? = (s.snapshots[p]?).map fun t =>
        { t with phase := .frozen } := by
  obtain ⟨s, hinv, -, hempty, hcontexts, hsnapshots⟩ := run_ok_of hp hq h (K := fun _ => True)
    (fun _ _ => trivial) (fun _ _ _ _ _ _ => trivial) fun _ _ _ _ => trivial
  exact ⟨s, hinv, hempty, hcontexts, hsnapshots⟩

/-- What evaluating a run shows of the snapshot at a point. -/
theorem exists_of_run {α : Type} {w : Worklist} {f : Snapshot → α} {x : α}
    (h : ((a.run w).toOption.bind fun rep => (rep.snapshots[p]?).map f) = some x) :
    ∃ rep t, a.run w = .ok rep ∧ rep.snapshots[p]? = some t ∧ f t = x := by
  obtain ⟨rep, hrun, hf⟩ := Option.bind_eq_some_iff.1 h
  obtain ⟨t, ht, hx⟩ := Option.map_eq_some_iff.1 hf
  refine ⟨rep, t, ?_, ht, hx⟩
  cases hr : a.run w with
  | error e =>
    rw [hr] at hrun
    cases hrun
  | ok rep' =>
    rw [hr] at hrun
    cases hrun
    rfl

end Analysis
end ScriptMemory
