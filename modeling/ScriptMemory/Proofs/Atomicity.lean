import ScriptMemory.Proofs.Operations

/-! Transactions are atomic: one that fails leaves what was there when it started, nothing happens
outside of one, and a frozen snapshot stays as it is. -/
namespace ScriptMemory
namespace Snapshot
variable {s t u : Snapshot} {b : Memory}

/-- `t` is in the transaction that was started on `s`: it has been open ever since. -/
inductive InTransaction (s : Snapshot) : Snapshot → Prop
  | start {t : Snapshot} (h : start.run s = .ok () t) : InTransaction s t
  | after {t : Snapshot} (o : Operation) (h : InTransaction s t)
      (ho : (t.after o).stateName = "TransactionOpen") : InTransaction s (t.after o)

theorem stateName_open : s.stateName = "TransactionOpen" ↔ ∃ b, s.phase = .open b := by
  unfold stateName
  cases hp : s.phase with
  | «open» b => simp
  | frozen => simp
  | resting => by_cases hc : s.commits = 0 <;> simp [hc]

theorem stateName_resting :
    s.stateName = "Fresh" ∨ s.stateName = "Committed" ↔ s.phase = .resting := by
  unfold stateName
  cases hp : s.phase with
  | «open» b => simp
  | frozen => simp
  | resting => by_cases hc : s.commits = 0 <;> simp [hc]

theorem stateName_frozen : s.stateName = "Frozen" ↔ s.phase = .frozen := by
  unfold stateName
  cases hp : s.phase with
  | «open» b => simp
  | frozen => simp
  | resting => by_cases hc : s.commits = 0 <;> simp [hc]

/-- Only a snapshot at rest lets a transaction start. -/
theorem phase_of_start_run (h : start.run s = .ok () t) : s.phase = .resting := by
  cases hp : s.phase with
  | resting => rfl
  | «open» b => exact nomatch (start_run_open hp).symm.trans h
  | frozen => exact nomatch (start_run_frozen hp).symm.trans h

/-- All that a transaction has to remember of the snapshot it was started on. -/
structure Remembers (t s : Snapshot) : Prop where
  resting : s.phase = .resting
  phase : t.phase = .open s.memory
  commits : t.commits = s.commits
  changed : t.changed = s.changed

theorem InTransaction.remembers (h : InTransaction s t) : t.Remembers s := by
  induction h with
  | start h =>
    have hp := phase_of_start_run h
    cases (start_run hp).symm.trans h
    exact ⟨hp, rfl, rfl, rfl⟩
  | @after t o _ ho ih =>
    -- of all transitions only one leads from an open transaction to an open one
    obtain ⟨b, hb⟩ := stateName_open.1 ho
    cases transition_after t o with
    | stays phase _ commits changed =>
      exact ⟨ih.resting, phase.trans ih.phase, commits.trans ih.commits, changed.trans ih.changed⟩
    | starts _ phase => exact nomatch phase.symm.trans ih.phase
    | commits _ _ rests _ => exact nomatch rests.symm.trans hb
    | rollsBack _ _ rests _ _ _ => exact nomatch rests.symm.trans hb
    | freezes closed _ _ _ _ => exact absurd ih.phase (closed _)

/-- An open transaction was started on some reachable snapshot. -/
theorem Reachable.exists_inTransaction (h : Reachable s) (hb : s.phase = .open b) :
    ∃ s₀, Reachable s₀ ∧ InTransaction s₀ s := by
  induction h generalizing b with
  | blank limits => cases hb
  | @after s o hs _ ih _ =>
    cases transition_after s o with
    | stays phase _ _ _ =>
      obtain ⟨s₀, hs₀, hin⟩ := ih (phase.symm.trans hb)
      exact ⟨s₀, hs₀, hin.after o (stateName_open.2 ⟨b, hb⟩)⟩
    | starts run _ => exact ⟨s, hs, .start run⟩
    | commits _ _ rests _ => exact nomatch rests.symm.trans hb
    | rollsBack _ _ rests _ _ _ => exact nomatch rests.symm.trans hb
    | freezes _ phase _ _ _ => exact nomatch phase.symm.trans hb

/-- The snapshot `t` is left by a failure in a transaction that was started on `s`. -/
structure RolledBack (s t : Snapshot) : Prop where
  memory : t.memory = s.memory
  stateName : t.stateName = s.stateName
  resting : s.stateName = "Fresh" ∨ s.stateName = "Committed"
  commits : t.commits = s.commits
  changed : t.changed = s.changed

theorem InTransaction.rolledBack {m : Mutation} {e : ContractError} (h : InTransaction s t)
    (hm : m.perform.run t = .error e u) : RolledBack s u := by
  have hr := h.remembers
  have hu : t.after (.change m) = u := after_eq (o := .change m) hm
  have hrun := (perform_run m t).trans (Transact.mutate_run m.kind _ hr.phase)
  cases hd : (m.edit t.memory.level).run { memory := t.memory, limit := t.limits.simplify } with
  | ok a d =>
    rw [hd] at hrun
    exact nomatch hrun.symm.trans hm
  | error e' d =>
    rw [hd] at hrun
    cases hrun.symm.trans hm
    refine ⟨rfl, ?_, stateName_resting.2 hr.resting, hr.commits, hr.changed⟩
    simp only [Snapshot.stateName, hr.resting, hr.commits]

/-- What a frozen snapshot keeps whatever is done with it. -/
theorem frozen_foldl_after (ops : List Operation) (h : s.phase = .frozen) :
    (ops.foldl after s).phase = .frozen ∧ (ops.foldl after s).memory = s.memory ∧
      (ops.foldl after s).commits = s.commits ∧ (ops.foldl after s).changed = s.changed := by
  induction ops generalizing s with
  | nil => exact ⟨h, rfl, rfl, rfl⟩
  | cons o ops ih =>
    have hstep : (s.after o).phase = .frozen ∧ (s.after o).memory = s.memory ∧
        (s.after o).commits = s.commits ∧ (s.after o).changed = s.changed := by
      cases transition_after s o with
      | stays phase memory commits changed =>
        exact ⟨phase.trans h, memory (by simp [h]), commits, changed⟩
      | starts _ phase => exact nomatch h.symm.trans phase
      | commits _ phase _ _ => exact nomatch h.symm.trans phase
      | rollsBack _ phase _ _ _ _ => exact nomatch h.symm.trans phase
      | freezes _ phase memory commits changed => exact ⟨phase, memory, commits, changed⟩
    obtain ⟨hp, hm, hc, hch⟩ := ih hstep.1
    exact ⟨hp, hm.trans hstep.2.1, hc.trans hstep.2.2.1, hch.trans hstep.2.2.2⟩

/-- A snapshot without an open transaction tells the error it refuses changes with. -/
theorem refusal_eq (s : Snapshot) : s.refusal =
    if s.stateName = "Frozen" then .frozen else .transactionNotOpen := by
  unfold refusal isFrozen
  simp only [stateName_frozen, decide_eq_true_eq]

/-- What makes the transactions of a snapshot atomic. -/
structure Atomic (s : Snapshot) : Prop where
  /-- A transaction is open exactly while a version is saved. -/
  saved_iff : s.stateName = "TransactionOpen" ↔ ∃ saved, s.phase = .open saved
  /-- The saved version is the memory at the matching start. -/
  matching : ∀ saved, s.phase = .open saved →
    ∃ s₀, Reachable s₀ ∧ InTransaction s₀ s ∧ saved = s₀.memory
  /-- A change that fails brings back what was there at the matching start. -/
  rollback : ∀ s₀ (m : Mutation) e t, InTransaction s₀ s → m.perform.run s = .error e t →
    RolledBack s₀ t
  /-- Without a transaction nothing is changed and nothing committed. -/
  closed : s.stateName ≠ "TransactionOpen" →
    let cause := if s.stateName = "Frozen" then .frozen else .transactionNotOpen
    (∀ m : Mutation, m.perform.run s = .error cause s) ∧ commit.run s = .error cause s
  /-- One transaction at a time, and none is frozen half-way. -/
  nested : s.stateName = "TransactionOpen" →
    start.run s = .error .transactionAlreadyOpen s ∧
      freeze.run s = .error .freezeDuringTransaction s
  frozen : s.stateName = "Frozen" → start.run s = .error .frozen s ∧ ∀ ops : List Operation,
    let t := ops.foldl after s
    t.stateName = "Frozen" ∧ t.memory = s.memory ∧ t.commits = s.commits ∧ t.changed = s.changed

theorem transactions_atomic (hs : Reachable s) : Atomic s where
  saved_iff := stateName_open
  matching := by
    intro saved hp
    obtain ⟨s₀, hs₀, hin⟩ := hs.exists_inTransaction hp
    exact ⟨s₀, hs₀, hin, Phase.open.inj (hp.symm.trans hin.remembers.phase)⟩
  rollback := fun _ _ _ _ hin hm => hin.rolledBack hm
  closed := by
    intro hn
    have hc : ∀ b, s.phase ≠ .open b := fun b hb => hn (stateName_open.2 ⟨b, hb⟩)
    rw [← refusal_eq s]
    exact ⟨fun m => (perform_run m s).trans (mutate_run_closed hc _ _), commit_run_closed hc⟩
  nested := by
    intro ho
    obtain ⟨b, hb⟩ := stateName_open.1 ho
    exact ⟨start_run_open hb, freeze_run_open hb⟩
  frozen := by
    intro hf
    have hp := stateName_frozen.1 hf
    refine ⟨start_run_frozen hp, fun ops => ?_⟩
    obtain ⟨hp', hm, hc, hch⟩ := frozen_foldl_after ops hp
    exact ⟨stateName_frozen.2 hp', hm, hc, hch⟩

/-- An object is made and its first field written before the second one turns out to be no value:
none of it stays, nor does what was assigned before. -/
theorem transactions_atomic_createObject :
    let s := (({} : Snapshot).after .start).after
      (.change (.assign (.ofVariable "x") (.ofValue .any) false))
    let m : Mutation := .createObject "C" "site"
      [("f", .ofValue .any), ("g", .ofValue (.reference .diagnostics))]
    Reachable s ∧ InTransaction {} s ∧ s.memory ≠ .initial ∧
      ∃ t, m.perform.run s = .error .referenceAsData t ∧ RolledBack {} t := by
  intro s m
  have hs : Reachable s := ((Reachable.blank {}).after .start (by simp [Operation.sources])).after _
    (by simp [Operation.sources, Mutation.sources])
  have hin : InTransaction {} s := (InTransaction.start (start_run rfl)).after _ (by decide +kernel)
  have hm : m.perform.run s = .error .referenceAsData (left (m.perform.run s)) :=
    eq_error_of_failure? (by decide +kernel)
  exact ⟨hs, hin, by decide +kernel, _, hm, (transactions_atomic hs).rollback _ m _ _ hin hm⟩

end Snapshot
end ScriptMemory
