import ScriptMemory.Proofs.Memory.Durable
import ScriptMemory.Proofs.Operations

/-! What holds of the memory of every reachable snapshot: whatever no use of memory breaks. -/
namespace ScriptMemory

variable {V : Index → Value → Prop} {I : Memory → Prop}

/-- A change maintains what is durable if the memories that it reads have it. -/
theorem Mutation.maintains (hI : Memory.Durable V I) (m : Mutation)
    (hs : ∀ t ∈ m.sources, I t.memory) (level : Nat) :
    Edit.Maintains I (m.edit level) fun _ => True := by
  have hmemories : ∀ {l : List Snapshot}, (∀ t ∈ l, I t.memory) → ∀ n ∈ l.map (·.memory), I n := by
    intro l hl n hn
    obtain ⟨t, ht, rfl⟩ := List.mem_map.1 hn
    exact hl t ht
  cases m with
  | assign p e force => exact Edit.maintains_assign hI p e force
  | assignIndex i e strong => exact Edit.maintains_assignIndex hI i e strong
  | assignReturn e => exact Edit.maintains_assignIndex hI _ e true
  | assignAlias target source =>
    exact (Edit.keeps_assignAlias hI.toSurvives (fun _ _ => Edit.all_true target _)
      fun _ _ => Edit.all_true source _).maintains
  | bindReference target source => exact Edit.maintains_bindReference hI target source
  | createAlias i target => exact Edit.maintains_createAlias hI i target
  | createArray p => exact Edit.maintains_createArray hI p
  | createObject className site fields =>
    have h := (Edit.maintains_createObject hI className site fields).bind (R := fun _ => True)
      (f := fun _ => pure PUnit.unit) fun _ _ => (Edit.Keeps.pure trivial).maintains
    rwa [bind_pure_comp] at h
  | unset p => exact (Edit.keeps_unset hI.toSurvives fun _ _ => Edit.all_true p _).maintains
  | report f => exact Edit.maintains_report hI f
  | extend sources => exact Edit.maintains_extend hI (hmemories hs)
  | extendAsCall caller => exact Edit.maintains_enterCall hI (hs caller List.mem_cons_self)
  | mergeWithCall result outputs => exact Edit.maintains_leaveCall hI result (hmemories hs)
  | mergeInto output sources =>
    apply Edit.maintains_mergeInto hI
    intro x hx
    obtain ⟨⟨i, t⟩, ht, rfl⟩ := List.mem_map.1 hx
    exact hs t (List.mem_map.2 ⟨_, ht, rfl⟩)

namespace Snapshot
variable {s t : Snapshot}

/-- The memory of the snapshot satisfies `I`, and so does the one it would roll back to. -/
structure Upholds (I : Memory → Prop) (s : Snapshot) : Prop where
  memory : I s.memory
  saved : ∀ b, s.phase = .open b → I b

variable (hI : Memory.Durable V I)
include hI

theorem Upholds.committed (h : Upholds I s) (b : Memory) (commits : Nat) :
    I (Memory.committed s.limits commits b s.memory) := by
  unfold Memory.committed
  split
  · exact hI.mapEntries h.memory (Memory.coarsened_widenEntry b)
  · exact h.memory

/-- A change that is carried out leaves durable memory; one that fails has another reason than a
conflict of aliases, and the memory is the saved one again. -/
theorem Upholds.change (h : Upholds I s) (m : Mutation) (hs : ∀ t ∈ m.sources, I t.memory) :
    Upholds I (left (m.perform.run s)) ∧
      ∀ i, failure? (m.perform.run s) ≠ some (.conflictingAlias i) := by
  rw [perform_run]
  rcases exists_open_or_closed s with ⟨b, hb⟩ | hc
  · have hd := Mutation.maintains hI m hs s.memory.level
      { memory := s.memory, limit := s.limits.simplify } h.memory
    rw [Transact.mutate_run _ _ hb]
    cases hrun : (m.edit s.memory.level).run
        { memory := s.memory, limit := s.limits.simplify } with
    | ok a d =>
      rw [hrun] at hd
      exact ⟨⟨hd.1, h.saved⟩, fun i hi => nomatch hi⟩
    | error e d =>
      rw [hrun] at hd
      exact ⟨⟨h.saved b hb, fun _ hp => nomatch hp⟩, fun i hi => hd i (Option.some.inj hi)⟩
  · rw [mutate_run_closed hc]
    refine ⟨h, fun i hi => ?_⟩
    have hr : s.refusal = .conflictingAlias i := Option.some.inj hi
    unfold refusal at hr
    split at hr
    · cases hr
    · cases hr

theorem Upholds.after (h : Upholds I s) (o : Operation) (hs : ∀ t ∈ o.sources, I t.memory) :
    Upholds I (s.after o) := by
  cases o with
  | start =>
    cases hp : s.phase with
    | resting =>
      rw [after_eq (o := .start) (start_run hp)]
      exact ⟨h.memory, fun b hb => Phase.open.inj hb ▸ h.memory⟩
    | «open» b =>
      rw [after_eq (o := .start) (start_run_open hp)]
      exact h
    | frozen =>
      rw [after_eq (o := .start) (start_run_frozen hp)]
      exact h
  | commit =>
    have hrun := run_discard commit s
    rcases exists_open_or_closed s with ⟨b, hb⟩ | hc
    · obtain ⟨t, ht, -, hm, hp, -⟩ := commit_run hb
      rw [ht] at hrun
      rw [after_eq (o := .commit) hrun]
      exact ⟨hm ▸ h.committed hI b _, fun b hb => nomatch hp.symm.trans hb⟩
    · rw [commit_run_closed hc] at hrun
      rw [after_eq (o := .commit) hrun]
      exact h
  | freeze =>
    rcases exists_open_or_closed s with ⟨b, hb⟩ | hc
    · rw [after_eq (o := .freeze) (freeze_run_open hb)]
      exact h
    · rw [after_eq (o := .freeze) (freeze_run_closed hc)]
      exact ⟨h.memory, fun b hb => nomatch hb⟩
  | change m => exact (h.change hI m hs).1
  | create v => exact ⟨h.memory, h.saved⟩

/-- By induction on the operations that lead to the snapshot. -/
theorem Reachable.upholds (h : Reachable s) : Upholds I s := by
  induction h with
  | blank limits => exact ⟨hI.initial, fun b hb => nomatch hb⟩
  | after o _ _ ih ihs => exact ih.after hI o fun t ht => (ihs t ht).memory

/-- No operation on durable memory finds an alias both certain and uncertain. -/
theorem Upholds.failure?_ne (h : Upholds I s) (o : Operation) (hs : ∀ t ∈ o.sources, I t.memory)
    (i : Index) : failure? (o.perform.run s) ≠ some (.conflictingAlias i) := by
  cases o with
  | start =>
    cases hp : s.phase with
    | resting => simp [Operation.perform, start_run hp, failure?]
    | «open» b => simp [Operation.perform, start_run_open hp, failure?]
    | frozen => simp [Operation.perform, start_run_frozen hp, failure?]
  | commit =>
    rcases exists_open_or_closed s with ⟨b, hb⟩ | hc
    · obtain ⟨t, ht, -⟩ := commit_run hb
      simp [Operation.perform, run_discard, ht, failure?]
    · simp only [Operation.perform, run_discard, commit_run_closed hc, failure?, refusal]
      split <;> simp
  | freeze =>
    rcases exists_open_or_closed s with ⟨b, hb⟩ | hc
    · simp [Operation.perform, freeze_run_open hb, failure?]
    · simp [Operation.perform, freeze_run_closed hc, failure?]
  | change m => exact (h.change hI m hs).2 i
  | create v => exact fun hv => nomatch hv

end Snapshot
end ScriptMemory
