import ScriptMemory.Proofs.Transaction

/-! The operations that a snapshot offers and the snapshots that they lead to. Whatever the
operation is and whether it fails or not, it takes one of a few transitions; that transactions are
atomic is read off these. -/
namespace ScriptMemory

/-- A change of memory, which needs an open transaction. -/
inductive Mutation where
  | assign (p : Path) (e : Entry) (force : Bool)
  | assignIndex (i : Index) (e : Entry) (strong : Bool)
  | assignReturn (e : Entry)
  | assignAlias (target source : Path)
  | bindReference (target source : Path)
  | createAlias (i target : Index)
  | createArray (p : Path)
  | createObject (className : String) (site : ObjectId) (fields : List (String × Entry))
  | unset (p : Path)
  | report (f : Finding)
  | extend (sources : List Snapshot)
  | extendAsCall (caller : Snapshot)
  | mergeWithCall (result : Option Path) (outputs : List Snapshot)
  | mergeInto (output : Index) (sources : List (Index × Snapshot))

namespace Mutation

def perform : Mutation → Transact Unit
  | assign p e force => Snapshot.assign p e force
  | assignIndex i e strong => Snapshot.assignIndex i e strong
  | assignReturn e => Snapshot.assignReturn e
  | assignAlias target source => Snapshot.assignAlias target source
  | bindReference target source => Snapshot.bindReference target source
  | createAlias i target => Snapshot.createAlias i target
  | createArray p => Snapshot.createArray p
  | createObject className site fields => discard (Snapshot.createObject className site fields)
  | unset p => Snapshot.unset p
  | report f => Snapshot.report f
  | extend sources => Snapshot.extend sources
  | extendAsCall caller => Snapshot.extendAsCall caller
  | mergeWithCall result outputs => Snapshot.mergeWithCall result outputs
  | mergeInto output sources => Snapshot.mergeInto output sources

/-- The snapshots that are read besides the one that is changed. -/
def sources : Mutation → List Snapshot
  | extend sources => sources
  | extendAsCall caller => [caller]
  | mergeWithCall _ outputs => outputs
  | mergeInto _ sources => sources.map (·.2)
  | _ => []

/-- What is counted. -/
def kind : Mutation → Statistic
  | assign .. | assignIndex .. | assignReturn _ => .assign
  | assignAlias .. | bindReference .. => .assignAlias
  | createAlias .. => .createAlias
  | createArray _ => .createArray
  | createObject .. => .createObject
  | unset _ => .unset
  | report _ => .warning
  | extend _ | extendAsCall _ => .extend
  | mergeWithCall .. => .mergeWithCall
  | mergeInto .. => .merge

/-- The edit of memory at a call level. -/
def edit (level : Nat) : Mutation → Edit Unit
  | assign p e force => Edit.assign p e force
  | assignIndex i e strong => Edit.assignIndex i e strong
  | assignReturn e => Edit.assignIndex (.returnSlot level) e true
  | assignAlias target source => Edit.assignAlias target source
  | bindReference target source => Edit.bindReference target source
  | createAlias i target => Edit.createAlias i target
  | createArray p => Edit.createArray p
  | createObject className site fields => discard (Edit.createObject className site fields)
  | unset p => Edit.unset p
  | report f => Edit.report f
  | extend sources => Edit.extend (sources.map (·.memory))
  | extendAsCall caller => Edit.enterCall caller.memory
  | mergeWithCall result outputs => Edit.leaveCall result (outputs.map (·.memory))
  | mergeInto output sources => Edit.mergeInto output (sources.map fun (i, s) => (i, s.memory))

end Mutation

/-- Dropping the result of a computation changes nothing else of its outcome. -/
theorem run_discard {ε σ α : Type} (x : EStateM ε σ α) (s : σ) : (discard x).run s =
    match x.run s with
    | .ok _ t => .ok PUnit.unit t
    | .error e t => .error e t := by
  change EStateM.run (Functor.map _ x) s = _
  rw [← bind_pure_comp, EStateM.run_bind]
  cases x.run s <;> rfl

/-- Everything that can be done with a snapshot, apart from reading it. -/
inductive Operation where
  | start
  | commit
  | freeze
  | change (m : Mutation)
  | create (v : Value)

namespace Operation

def perform : Operation → Transact Unit
  | start => Snapshot.start
  | commit => discard Snapshot.commit
  | freeze => Snapshot.freeze
  | change m => m.perform
  | create v => discard (Snapshot.create v)

def sources : Operation → List Snapshot
  | change m => m.sources
  | _ => []

end Operation

namespace Snapshot
variable {s t u : Snapshot} {b : Memory} {α : Type}

/-- The snapshot that is left, be it by a failure. -/
def left : EStateM.Result ContractError Snapshot α → Snapshot
  | .ok _ t => t
  | .error _ t => t

/-- Why it failed, if it did. -/
def failure? : EStateM.Result ContractError Snapshot α → Option ContractError
  | .ok .. => none
  | .error e _ => some e

/-- What it gives, if it succeeds. -/
def result? : EStateM.Result ContractError Snapshot α → Option α
  | .ok a _ => some a
  | .error .. => none

theorem eq_error_of_failure? {r : EStateM.Result ContractError Snapshot α} {e : ContractError}
    (h : failure? r = some e) : r = .error e (left r) := by
  cases r with
  | ok a t => cases h
  | error e' t =>
    cases h
    rfl

theorem eq_ok_of_failure? {r : EStateM.Result ContractError Snapshot Unit}
    (h : failure? r = none) : r = .ok () (left r) := by
  cases r with
  | ok a t => rfl
  | error e t => cases h

/-- The snapshot after an operation. -/
def after (s : Snapshot) (o : Operation) : Snapshot :=
  left (o.perform.run s)

/-- The snapshots that operations on blank snapshots lead to, failures included. -/
inductive Reachable : Snapshot → Prop
  | blank (limits : Limits) : Reachable { limits }
  | after {s : Snapshot} (o : Operation) (h : Reachable s) (hs : ∀ t ∈ o.sources, Reachable t) :
      Reachable (s.after o)

theorem Reachable.foldl (h : Reachable s) {ops : List Operation}
    (ho : ∀ o ∈ ops, ∀ t ∈ o.sources, Reachable t) : Reachable (ops.foldl Snapshot.after s) := by
  induction ops generalizing s with
  | nil => exact h
  | cons o ops ih =>
    exact ih (h.after o (ho o List.mem_cons_self)) fun o' ho' => ho o' (List.mem_cons_of_mem o ho')

/-- Why a snapshot without an open transaction refuses to be changed. -/
def refusal (s : Snapshot) : ContractError :=
  if s.isFrozen then .frozen else .transactionNotOpen

theorem checkpoint_run_closed (h : ∀ b, s.phase ≠ .open b) :
    checkpoint.run s = .error s.refusal s := by
  unfold checkpoint refusal isFrozen
  rw [EStateM.run_bind, EStateM.run_get]
  dsimp only
  split
  · next hp => simp only [hp]; rfl
  · next hp => simp only [hp]; rfl
  · next c hp => exact absurd hp (h c)

theorem mutate_run_closed (h : ∀ b, s.phase ≠ .open b) (kind : Statistic) (edit : Edit α) :
    (mutate kind edit).run s = .error s.refusal s := by
  unfold mutate
  rw [EStateM.run_bind, checkpoint_run_closed h]

theorem commit_run_closed (h : ∀ b, s.phase ≠ .open b) : commit.run s = .error s.refusal s := by
  unfold commit
  rw [EStateM.run_bind, checkpoint_run_closed h]

theorem start_run_open (h : s.phase = .open b) :
    start.run s = .error .transactionAlreadyOpen s := by
  unfold start
  rw [EStateM.run_bind, EStateM.run_get]
  dsimp only
  rw [h]
  rfl

theorem start_run_frozen (h : s.phase = .frozen) : start.run s = .error .frozen s := by
  unfold start
  rw [EStateM.run_bind, EStateM.run_get]
  dsimp only
  rw [h]
  rfl

theorem freeze_run_open (h : s.phase = .open b) :
    freeze.run s = .error .freezeDuringTransaction s := by
  unfold freeze
  rw [EStateM.run_bind, EStateM.run_get]
  dsimp only
  rw [h]
  rfl

theorem freeze_run_closed (h : ∀ b, s.phase ≠ .open b) :
    freeze.run s = .ok () { s with phase := .frozen } := by
  unfold freeze
  rw [EStateM.run_bind, EStateM.run_get]
  dsimp only
  split
  · next hp => exact absurd hp (h _)
  · rfl

theorem exists_open_or_closed (s : Snapshot) :
    (∃ b, s.phase = .open b) ∨ ∀ b, s.phase ≠ .open b := by
  by_cases h : ∃ b, s.phase = .open b
  · exact .inl h
  · exact .inr fun b hb => h ⟨b, hb⟩

theorem mutate_discard (kind : Statistic) (edit : Edit α) (s : Snapshot) :
    (discard (mutate kind edit)).run s = (mutate kind (discard edit)).run s := by
  rw [run_discard]
  rcases exists_open_or_closed s with ⟨b, hb⟩ | h
  · rw [Transact.mutate_run kind edit hb, Transact.mutate_run kind _ hb, run_discard]
    cases edit.run { memory := s.memory, limit := s.limits.simplify } <;> rfl
  · rw [mutate_run_closed h, mutate_run_closed h]

/-- Every change of memory is an edit run in the open transaction. -/
theorem perform_run (m : Mutation) (s : Snapshot) :
    m.perform.run s = (mutate m.kind (m.edit s.memory.level)).run s := by
  cases m with
  | createObject className site fields => exact mutate_discard _ _ s
  | _ => rfl

theorem memory_start_run (hrun : start.run s = .ok () t) : t.memory = s.memory := by
  cases hp : s.phase with
  | resting => cases hrun.symm.trans (start_run hp); rfl
  | «open» b => cases hrun.symm.trans (start_run_open hp)
  | frozen => cases hrun.symm.trans (start_run_frozen hp)

/-- A commit widens entries at most. -/
theorem memory_commit_run (hrun : (discard commit).run s = .ok () t) :
    t.memory = s.memory ∨ ∃ before, t.memory = s.memory.widen before := by
  rcases exists_open_or_closed s with ⟨before, hb⟩ | hclosed
  · obtain ⟨u, hu, -, hmemory, -⟩ := commit_run hb
    rw [run_discard, hu] at hrun
    cases hrun
    rw [hmemory]
    unfold Memory.committed
    split
    · exact .inr ⟨before, rfl⟩
    · exact .inl rfl
  · rw [run_discard, commit_run_closed hclosed] at hrun
    cases hrun

/-- A change that succeeds is an edit that succeeds. -/
theorem exists_edit_of_mutate_run {kind : Statistic} {edit : Edit α} {a : α}
    (hrun : (mutate kind edit).run s = .ok a t) :
    ∃ d, edit.run { memory := s.memory, limit := s.limits.simplify } = .ok a d ∧
      d.memory = t.memory := by
  rcases exists_open_or_closed s with ⟨before, hb⟩ | hclosed
  · rw [Transact.mutate_run _ _ hb] at hrun
    cases hx : edit.run { memory := s.memory, limit := s.limits.simplify } with
    | ok a d =>
      rw [hx] at hrun
      cases hrun
      exact ⟨d, rfl, rfl⟩
    | error e d =>
      rw [hx] at hrun
      cases hrun
  · rw [mutate_run_closed hclosed] at hrun
    cases hrun

theorem exists_edit_of_perform_run {m : Mutation} (hrun : m.perform.run s = .ok () t) :
    ∃ d, (m.edit s.memory.level).run { memory := s.memory, limit := s.limits.simplify } = .ok () d ∧
      d.memory = t.memory := by
  rw [perform_run] at hrun
  exact exists_edit_of_mutate_run hrun

/-- What `o` can make of a snapshot, whether it succeeds or fails. Counters are left out. -/
inductive Transition (s : Snapshot) (o : Operation) (t : Snapshot) : Prop
  /-- Memory may have been changed, but only inside a transaction, which is still open. -/
  | stays (phase : t.phase = s.phase) (memory : (∀ b, s.phase ≠ .open b) → t.memory = s.memory)
      (commits : t.commits = s.commits) (changed : t.changed = s.changed)
  | starts (run : start.run s = .ok () t) (phase : s.phase = .resting)
  | commits (before : Memory) (phase : s.phase = .open before) (rests : t.phase = .resting)
      (commits : t.commits = s.commits + 1)
  | rollsBack (before : Memory) (phase : s.phase = .open before) (rests : t.phase = .resting)
      (memory : t.memory = before) (commits : t.commits = s.commits)
      (changed : t.changed = s.changed)
  | freezes (closed : ∀ b, s.phase ≠ .open b) (phase : t.phase = .frozen)
      (memory : t.memory = s.memory) (commits : t.commits = s.commits)
      (changed : t.changed = s.changed)

/-- An operation that is refused leaves the snapshot as it is. -/
theorem Transition.refused {o : Operation} : Transition s o s :=
  .stays rfl (fun _ => rfl) rfl rfl

theorem after_eq {o : Operation} {r : EStateM.Result ContractError Snapshot Unit}
    (h : o.perform.run s = r) : s.after o = left r :=
  congrArg left h

/-- A change fails, and rolls back, or it succeeds; either way it leaves all but memory alone. -/
theorem transition_change (s : Snapshot) (m : Mutation) :
    Transition s (.change m) (s.after (.change m)) := by
  rcases exists_open_or_closed s with ⟨b, hb⟩ | h
  · have hrun := (perform_run m s).trans (Transact.mutate_run m.kind _ hb)
    rw [after_eq (o := .change m) hrun]
    cases (m.edit s.memory.level).run { memory := s.memory, limit := s.limits.simplify } with
    | ok a d => exact .stays rfl (fun hc => absurd hb (hc b)) rfl rfl
    | error e d => exact .rollsBack b hb rfl rfl rfl rfl
  · rw [after_eq (o := .change m) ((perform_run m s).trans (mutate_run_closed h _ _))]
    exact .refused

theorem transition_commit (s : Snapshot) : Transition s .commit (s.after .commit) := by
  have hrun := run_discard commit s
  rcases exists_open_or_closed s with ⟨b, hb⟩ | h
  · obtain ⟨t, ht, -, -, hp, hc, -⟩ := commit_run hb
    rw [ht] at hrun
    rw [after_eq (o := .commit) hrun]
    exact .commits b hb hp hc
  · rw [commit_run_closed h] at hrun
    rw [after_eq (o := .commit) hrun]
    exact .refused

theorem transition_start (s : Snapshot) : Transition s .start (s.after .start) := by
  cases hp : s.phase with
  | resting =>
    rw [after_eq (o := .start) (start_run hp)]
    exact .starts (start_run hp) hp
  | «open» b =>
    rw [after_eq (o := .start) (start_run_open hp)]
    exact .refused
  | frozen =>
    rw [after_eq (o := .start) (start_run_frozen hp)]
    exact .refused

theorem transition_freeze (s : Snapshot) : Transition s .freeze (s.after .freeze) := by
  rcases exists_open_or_closed s with ⟨b, hb⟩ | h
  · rw [after_eq (o := .freeze) (freeze_run_open hb)]
    exact .refused
  · rw [after_eq (o := .freeze) (freeze_run_closed h)]
    exact .freezes h rfl rfl rfl rfl

theorem transition_after (s : Snapshot) (o : Operation) : Transition s o (s.after o) := by
  cases o with
  | start => exact transition_start s
  | commit => exact transition_commit s
  | freeze => exact transition_freeze s
  | change m => exact transition_change s m
  | create v => exact .stays rfl (fun _ => rfl) rfl rfl

end Snapshot
end ScriptMemory
