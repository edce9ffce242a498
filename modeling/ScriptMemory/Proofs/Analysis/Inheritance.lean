import ScriptMemory.Proofs.Analysis.Contract

/-! Invariants of memory that pass from point to point. A point takes memory in by a join, by a
call or by the return from one; what the invariant of a level has to survive is said once for each
of these and for statements, and from that it holds of every snapshot of every run. -/
namespace ScriptMemory
open Std

namespace Analysis
open Transact
variable {a : Analysis} {s s' r : AnalysisState} {p q : Point} {c : Context} {st : Statement}
  {target : Option CallTarget} {m n before : Memory} {x : Intake} {t : Snapshot}
  {view : Point → Option Memory} {I : Nat → Memory → Prop} {k level : Nat}

/-- The invariant, which speaks of memory at a level, is handed on by all that happens to memory in
a visit before it is committed. -/
structure Inherited (a : Analysis) (I : Nat → Memory → Prop) : Prop where
  initial : I 0 .initial
  level_eq : ∀ {k m}, I k m → m.level = k
  join : ∀ {k sources}, sources ≠ [] → (∀ m ∈ sources, I k m) →
    I k (Memory.takenOver a.config.limits.simplify sources)
  enter : ∀ {k m}, I k m → I (k + 1) { m with level := k + 1 }
  bind : ∀ {s : AnalysisState} {id : ContextId} {c k}, s.Tree a → s.contexts[id]? = some c →
    Leads a.config.limits (I (k + 1)) (a.bindParameters s c) fun _ => I (k + 1)
  leave : ∀ {k} {d : Draft}, I (k + 1) d.memory → d.limit = a.config.limits.simplify → ∀ result,
    I k ((d.close k).storeResult k result
      (d.memory.readIndex (.returnSlot (k + 1))).returned
      (ArraySource.ofEntry d.memory (d.memory.readIndex (.returnSlot (k + 1))).returned)).memory
  apply : ∀ {s p c st target k}, s.Tree a → a.Site s p c st target →
    Leads a.config.limits (I k) (a.apply s c.function p target st) fun _ => I k

/-- What is taken in by a context has what all its sources have. -/
theorem Inherited.takeIn (hI : a.Inherited I) (hs : s.Tree a) {id : ContextId}
    (hc : s.contexts[id]? = some c) (st : Statement) (hx : x.Fits level)
    (h : ∀ m ∈ x.memories, I m.level m) :
    ∃ n, I level n ∧ ∀ m, Yields (a.takeIn s c st x) a.config.limits m () n := by
  cases x with
  | join sources =>
    obtain ⟨hne, hlevel⟩ := hx
    obtain ⟨d, hd, -, hrun⟩ := Edit.extend_run hne hlevel a.config.limits.simplify
    refine ⟨d.memory, ?_, fun m => Yields.mutate (hrun m)⟩
    rw [hd]
    exact hI.join hne fun m hm => hlevel m hm ▸ h m hm
  | call caller =>
    obtain rfl : caller.level + 1 = level := hx
    -- the frame is entered first, and then the parameters are bound in it
    have hentered := hI.enter (h caller List.mem_cons_self)
    obtain ⟨u, n, hy, hn⟩ := hI.bind hs hc _ hentered
    have hrun (m : Memory) : (Edit.enterCall caller).run
        { memory := m, limit := a.config.limits.simplify } = .ok () {
          memory := { caller with level := caller.level + 1 }
          limit := a.config.limits.simplify } := rfl
    exact ⟨n, hn, fun m => (Yields.mutate (hrun m)).bind hy⟩
  | callReturn exit =>
    have hlevel : exit.level = level + 1 := hx
    have hexit : I (level + 1) exit := hlevel ▸ h exit List.mem_cons_self
    let d : Draft := { memory := exit, limit := a.config.limits.simplify }
    have hextend (m : Memory) : (Edit.extend [exit]).run
        { memory := m, limit := a.config.limits.simplify } = .ok () d := rfl
    exact ⟨_, hI.leave (d := d) hexit rfl _,
      fun m => Yields.mutate (Edit.leaveCall_eq _ (hextend m) hlevel)⟩

/-- The memory that a visit commits has what all that it takes in has. -/
theorem Inherited.outcome (hI : a.Inherited I) (hs : s.Tree a)
    (hout : a.Outcome s p c st target view x n before t) (h : ∀ m ∈ x.memories, I m.level m) :
    I n.level n := by
  obtain ⟨level, hfits⟩ := hout.fits
  obtain ⟨n₀, hn₀, htake⟩ := hI.takeIn hs hout.site.context st hfits h
  obtain ⟨u, n', happly, hn'⟩ := hI.apply hs hout.site n₀ hn₀
  obtain ⟨rfl, -⟩ := (hout.yields .initial).unique ((htake .initial).bind happly)
  rwa [hI.level_eq hn']

theorem Inherited.intake (hI : a.Inherited I) (hv : ∀ q m, s.view q = some m → I m.level m)
    (hx : intake? s.contexts c p st target (s.viewFrom p (a.previous s p)) = some x) :
    ∀ m ∈ x.memories, I m.level m := by
  intro m hm
  rcases mem_intake hx hm with rfl | ⟨u, hu⟩
  · exact hI.initial
  · rcases viewFrom_eq_some hu with hview | ⟨-, -, rfl⟩
    · exact hv u m hview
    · exact hI.initial

/-- A step hands the invariant on, if widening does not break it. -/
theorem Inherited.step (hI : a.Inherited I)
    (hwiden : ∀ {k m} before, I k m → I k (Memory.widen m before)) (hp : a.program.IsBuilt)
    (hs : s.Tree a) (hrests : a.Rests s) (hv : ∀ q m, s.view q = some m → I m.level m)
    (hstep : a.step s p = .ok s') : ∀ q m, s'.view q = some m → I m.level m := by
  rcases step_ok hp hs hrests hstep with
    ⟨-, rfl⟩ | ⟨r, c, st, target, hr, -, hsnapshots, -, -, ⟨-, rfl⟩ | ⟨x, n, t, hout, rfl⟩⟩
  · exact hv
  · rw [view_congr hsnapshots]
    exact hv
  · rw [← view_congr hsnapshots] at hv
    have hn := hI.outcome hr hout (hI.intake hv hout.intake)
    have ht : I t.memory.level t.memory := by
      rw [hout.memory]
      unfold Memory.committed
      split
      · exact hwiden _ hn
      · exact hn
    intro q m hm
    rw [view_visited] at hm
    split at hm
    · cases hm
      exact ht
    · exact hv q m hm

/-- By induction on the steps, every snapshot that the driver makes has the invariant. -/
theorem Inherited.steps (hI : a.Inherited I)
    (hwiden : ∀ {k m} before, I k m → I k (Memory.widen m before)) (hp : a.program.IsBuilt)
    (hsteps : a.Steps k s s') (hinv : a.Invariant s s.worklist.Waits ∧ s.worklist.Consistent)
    (hv : ∀ q m, s.view q = some m → I m.level m) : ∀ q m, s'.view q = some m → I m.level m := by
  induction hsteps with
  | refl s => exact hv
  | @step _ s _ _ p w hpop hstep _ ih =>
    obtain ⟨hpending, hw⟩ := hinv.1.pop hp hinv.2 hpop
    have hnext := Invariant.step (s := { s with worklist := w }) hpending hp hw hstep
    exact ih hnext (hI.step (s := { s with worklist := w }) hwiden hp hpending.tree hpending.rests
      hv hstep)

theorem drive_steps {remaining steps j : Nat} (h : a.drive remaining steps s = .ok (s', j)) :
    ∃ k, a.Steps k s s' ∧ s'.worklist.pop? = none := by
  induction remaining generalizing steps s with
  | zero =>
    cases hpop : s.worklist.pop? with
    | none =>
      rw [drive_of_pop_none hpop] at h
      cases h
      exact ⟨0, .refl _, hpop⟩
    | some y =>
      rw [drive_zero hpop] at h
      cases h
  | succ remaining ih =>
    cases hpop : s.worklist.pop? with
    | none =>
      rw [drive_of_pop_none hpop] at h
      cases h
      exact ⟨0, .refl _, hpop⟩
    | some y =>
      rw [drive_succ hpop] at h
      obtain ⟨r, hr, h⟩ := bind_eq_ok.1 h
      obtain ⟨k, hk, hdone⟩ := ih h
      exact ⟨k + 1, .step hpop hr hk, hdone⟩

/-- A run that succeeds takes steps until nothing waits, and freezes the snapshots. -/
theorem run_steps {queued : Worklist} {rep : Report} (h : a.run queued = .ok rep) :
    ∃ main k s, a.program.main = .ok main ∧ a.Steps k (initialState main queued) s ∧
      s.worklist.pop? = none ∧ rep.contexts = s.contexts ∧
      ∀ p : Point, rep.snapshots[p]? = (s.snapshots[p]?).map fun t =>
        { t with phase := .frozen } := by
  cases hmain : a.program.main with
  | error e =>
    unfold Analysis.run at h
    rw [hmain] at h
    cases h
  | ok main =>
    rw [run_eq hmain] at h
    obtain ⟨⟨s, steps⟩, hdrive, h⟩ := bind_eq_ok.1 h
    obtain ⟨snapshots, hfreeze, h⟩ := bind_eq_ok.1 h
    cases h
    obtain ⟨k, hsteps, hdone⟩ := drive_steps hdrive
    exact ⟨main, k, s, rfl, hsteps, hdone, rfl, freezeAll_ok hfreeze⟩

/-- Every snapshot of a run that succeeds has what is inherited. -/
theorem Inherited.run (hI : a.Inherited I)
    (hwiden : ∀ {k m} before, I k m → I k (Memory.widen m before)) (hp : a.program.IsBuilt)
    {queued : Worklist} (hq : queued.Consistent) {rep : Report} (h : a.run queued = .ok rep)
    (ht : rep.snapshots[p]? = some t) : I t.memory.level t.memory := by
  obtain ⟨main, k, s, hmain, hsteps, -, -, hsnapshots⟩ := run_steps h
  have hv := hI.steps hwiden hp hsteps ⟨invariant_initialState hmain hq, hq.push _⟩ fun q m hm => by
    rw [view_initialState] at hm
    cases hm
  rw [hsnapshots] at ht
  obtain ⟨u, hu, rfl⟩ := Option.map_eq_some_iff.1 ht
  exact hv p u.memory (AnalysisState.view_eq_some hu)

end Analysis
end ScriptMemory
