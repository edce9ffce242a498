import ScriptMemory.Proofs.Atomicity
import ScriptMemory.Proofs.Consistency
import ScriptMemory.Proofs.ConservativeWidening
import ScriptMemory.Proofs.Lattice
import ScriptMemory.Proofs.Memory.Confinement

/-! What a commit does and what it reports. It tells whether the content of memory has changed since
the transaction was started; what it widens keeps its place, and covers what was written. -/
namespace ScriptMemory
open Std

namespace Memory
variable {m n before : Memory} {i : Index} {e : Entry} {limits : Limits} {commits : Nat}

/-- The two memories have the same structure and the same data. -/
def SameContent (m n : Memory) : Prop :=
  m.sameStructure n = true ∧ m.sameData n = true

/-- Structure and data are all there is to memory. -/
theorem Consistent.sameContent_iff (hm : m.Consistent) (hn : n.Consistent) :
    m.SameContent n ↔ m = n := by
  constructor
  · rintro ⟨hstructure, hdata⟩
    obtain ⟨hshapes, hobjects, hlevel⟩ := sameStructure_iff.1 hstructure
    have hentries : m.entries = n.entries := of_decide_eq_true hdata
    apply hm.books_injective hn
    unfold books
    rw [hshapes, hentries, hobjects, hlevel]
  · rintro rfl
    exact ⟨sameStructure_iff.2 ⟨rfl, rfl, rfl⟩, decide_eq_true rfl⟩

theorem isDefined_committed (limits : Limits) (commits : Nat) (before m : Memory) (i : Index) :
    (committed limits commits before m).isDefined i = m.isDefined i := by
  unfold committed
  split
  · exact isDefined_mapEntries m _ i
  · rfl

theorem sameStructure_committed (limits : Limits) (commits : Nat) (before m : Memory) :
    (committed limits commits before m).sameStructure m = true := by
  rw [sameStructure_iff]
  unfold committed
  split
  · have hbooks : (m.widen before).books = m.books.mapEntries before.widenEntry :=
      books_mapEntries m (coarsened_widenEntry before)
    exact ⟨congrArg Books.shapes hbooks, rfl, rfl⟩
  · exact ⟨rfl, rfl, rfl⟩

/-- Locations without an entry get none. -/
theorem entry?_committed_of_none (h : m.entry? i = none) :
    Memory.entry? (committed limits commits before m) i = none := by
  unfold committed
  split
  · rw [widen, entry?_mapEntries, h]
    rfl
  · exact h

/-- An entry is kept, or the memory has changed beyond the limit and the entry is widened against
another one that the location held before. -/
theorem entry?_committed (h : m.entry? i = some e) :
    Memory.entry? (committed limits commits before m) i = some e ∨
      (∃ limit, limits.widening = some limit ∧ limit < commits) ∧ m ≠ before ∧
        ∃ old, before.entry? i = some old ∧ old ≠ e ∧
          Memory.entry? (committed limits commits before m) i = some (e.widen old) := by
  by_cases hw : m ≠ before ∧ limits.widening.any (· < commits)
  · have hc : committed limits commits before m = m.widen before := if_pos hw
    have hentry : Memory.entry? (m.widen before) i = some (before.widenEntry i e) := by
      rw [widen, entry?_mapEntries, h]
      rfl
    obtain ⟨hne, hany⟩ := hw
    obtain ⟨limit, hlimit, hlt⟩ := (Option.any_eq_true _ _).1 hany
    rw [hc, hentry]
    unfold widenEntry
    split
    · next old hold =>
      split
      · exact .inl rfl
      · next hdiffers =>
        exact .inr ⟨⟨limit, hlimit, of_decide_eq_true hlt⟩, hne, old, hold, hdiffers, rfl⟩
    · exact .inl rfl
  · have hc : committed limits commits before m = m := if_neg hw
    rw [hc]
    exact .inl h

end Memory

namespace Snapshot
variable {s s₀ t : Snapshot} {b : Memory}

/-- The snapshot `t` is what a commit leaves of `s` in the transaction that was started on `s₀`. -/
structure CommittedSince (s₀ s t : Snapshot) : Prop where
  /-- It tells whether the content is another than at the start. -/
  changed_iff : t.changed = true ↔ ¬t.memory.SameContent s₀.memory
  commits : t.commits = s.commits + 1
  structure_eq : t.memory.sameStructure s.memory = true
  isDefined : ∀ i, t.memory.isDefined i = s.memory.isDefined i
  /-- What was written is covered, at the same locations. -/
  covers : ∀ i e, s.memory.entry? i = some e → ∃ f, t.memory.entry? i = some f ∧ e ≤ f
  absent : ∀ i, s.memory.entry? i = none → t.memory.entry? i = none
  /-- An entry is no other than the one written, unless changed memory was widened beyond the limit
  and the location had another entry at the start. -/
  widened : ∀ i e f, s.memory.entry? i = some e → t.memory.entry? i = some f → f ≠ e →
    (∃ limit, s.limits.widening = some limit ∧ limit < t.commits) ∧
      ¬s.memory.SameContent s₀.memory ∧ ∃ old, s₀.memory.entry? i = some old ∧ old ≠ e

/-- A commit succeeds in every open transaction. It reports whether the content has changed since
the start, and it widens no more than it may. -/
theorem commit_reports (hs : Reachable s) (ho : s.stateName = "TransactionOpen") :
    (∃ s₀, Reachable s₀ ∧ InTransaction s₀ s) ∧
      ∃ t, commit.run s = .ok t.changed t ∧ ∀ s₀, InTransaction s₀ s → CommittedSince s₀ s t := by
  obtain ⟨b, hb⟩ := stateName_open.1 ho
  obtain ⟨t, hrun, -, hmemory, -, hcommits, hchanged⟩ := commit_run hb
  refine ⟨hs.exists_inTransaction hb, t, hchanged ▸ hrun, fun s₀ hin => ?_⟩
  obtain rfl : s₀.memory = b := Phase.open.inj (hin.remembers.phase.symm.trans hb)
  -- both the memory and the one at the start are consistent, so content is all that can differ
  have hup := hs.upholds Memory.consistent_durable
  have hstart := hup.saved _ hb
  have hend : t.memory.Consistent := hmemory ▸ hup.committed Memory.consistent_durable _ _
  rw [hmemory] at hend hchanged
  exact {
    changed_iff := by rw [hmemory, hchanged, hend.sameContent_iff hstart, decide_eq_true_eq]
    commits := hcommits
    structure_eq := hmemory ▸ Memory.sameStructure_committed _ _ _ _
    isDefined := fun i => hmemory ▸ Memory.isDefined_committed _ _ _ _ i
    covers := by
      intro i e he
      rw [hmemory]
      rcases Memory.entry?_committed he with hkept | ⟨-, -, old, -, -, hw⟩
      · exact ⟨e, hkept, le_rfl⟩
      · exact ⟨e.widen old, hw, Entry.isSubsumedBy_widen e old⟩
    absent := fun i hnone => hmemory ▸ Memory.entry?_committed_of_none hnone
    widened := by
      intro i e f he hf hne
      rw [hmemory] at hf
      rcases Memory.entry?_committed he with hkept | ⟨hlimit, hdiffers, old, hold, holde, -⟩
      · exact absurd (Option.some.inj (hf.symm.trans hkept)) hne
      · rw [hup.memory.sameContent_iff hstart, hcommits]
        exact ⟨hlimit, hdiffers, old, hold, holde⟩ }

/-- An interval is written that widening takes back: memory has changed when the commit begins, and
is what it was at the start when the commit ends. -/
theorem commit_reports_undone :
    let write (stop : Bound Int64) : Operation :=
      .change (.assign (.ofVariable "x") (.ofValue (.interval (.integer ⟨.finite 0, stop⟩))) false)
    let ops : List Operation := [.start, write .posInf, .commit, .start, write (.finite 5)]
    let s := ops.foldl after { limits := { widening := some 0 } }
    Reachable s ∧ s.stateName = "TransactionOpen" ∧
      ∃ s₀ t, InTransaction s₀ s ∧ commit.run s = .ok false t ∧ CommittedSince s₀ s t ∧
        ¬s.memory.SameContent s₀.memory := by
  intro write ops s
  have hs : Reachable s := (Reachable.blank { widening := some 0 }).foldl
    (by simp [ops, write, Operation.sources, Mutation.sources])
  have ho : s.stateName = "TransactionOpen" := by decide +kernel
  obtain ⟨⟨s₀, -, hin⟩, t, hrun, hcommit⟩ := commit_reports hs ho
  have hsaved : s.phase = .open s₀.memory := hin.remembers.phase
  refine ⟨hs, ho, s₀, t, hin, ?_, hcommit s₀ hin, ?_⟩
  · have hfalse : result? (commit.run s) = some false := by decide +kernel
    rw [hrun] at hfalse
    rw [hrun, Option.some.inj hfalse]
  · have hdiffers : (result? (checkpoint.run s)).map
        (fun b => s.memory.sameStructure b && s.memory.sameData b) = some false := by
      decide +kernel
    rw [Transact.checkpoint_run hsaved] at hdiffers
    have hdiffers := Option.some.inj hdiffers
    exact fun hsame => Bool.false_ne_true (hdiffers.symm.trans (Bool.and_eq_true_iff.2 hsame))

end Snapshot
end ScriptMemory
