import ScriptMemory.Proofs.Consistency
import ScriptMemory.Proofs.Memory.Placement

/-! A weak write next to the strong one, and next to no write at all. It has at every location at
least what is stored there without it, and at least what the strong write stores there. What it may
lose is what a location without an entry is read as: an entry that the weak write makes hides what
the unknown member of the container stood for, and one that the strong write would remove does not
become possibly undefined. -/
namespace ScriptMemory
open Std

namespace Memory
variable {b w s : Memory} {j : Index} {v : Value}

theorem Outcome.below_weak {b' : Memory} (h : Outcome b b' w s j) : b.EntryBelow w j := by
  intro e he
  cases h with
  | written t hw _ =>
    rw [entryOrUndefined_of_some he] at hw
    exact ⟨_, hw, fun v hv => Entry.covers_join.2 (.inl hv)⟩
  | kept hw _ => exact ⟨e, hw.trans he, fun _ => id⟩
  | removed hw _ => exact ⟨e, hw.trans he, fun _ => id⟩

theorem Outcome.strong_below_weak (h : Outcome b b w s j) : s.EntryBelow w j := by
  intro e he
  cases h with
  | written t hw hs =>
    cases hs.symm.trans he
    exact ⟨_, hw, fun v hv => Entry.covers_join.2 (.inr hv)⟩
  | kept hw hs => exact ⟨e, (hw.trans hs.symm).trans he, fun _ => id⟩
  | removed _ hs => cases hs.symm.trans he

theorem Outcome.covers_entryOrUndefined (h : Outcome b b w s j)
    (hv : (b.entryOrUndefined j).Covers v) : (w.entryOrUndefined j).Covers v := by
  cases h with
  | written t hw _ =>
    rw [entryOrUndefined_of_some hw]
    exact Entry.covers_join.2 (.inl hv)
  | kept hw _ => rwa [entryOrUndefined_congr hw]
  | removed hw _ => rwa [entryOrUndefined_congr hw]

/-- Undefinedness that the strong write leaves is kept where the strong write has an entry, and
where it was there before. -/
theorem Outcome.covers_undefined_iff (h : Outcome b b w s j)
    (hv : (s.entryOrUndefined j).Covers .undefined) : (w.entryOrUndefined j).Covers .undefined ↔
      (b.entryOrUndefined j).Covers .undefined ∨ (s.entry? j).isSome = true := by
  cases h with
  | written t hw hs =>
    rw [entryOrUndefined_of_some hs] at hv
    rw [entryOrUndefined_of_some hw, hs]
    exact iff_of_true (Entry.covers_join.2 (.inr hv)) (.inr rfl)
  | kept hw hs =>
    rw [entryOrUndefined_congr hs] at hv
    rw [entryOrUndefined_congr hw]
    exact iff_of_true hv (.inl hv)
  | removed hw hs =>
    rw [entryOrUndefined_congr hw, hs]
    exact (or_iff_left Bool.false_ne_true).symm

theorem EntryBelow.covers_entryOrUndefined {m n : Memory} (h : m.EntryBelow n j)
    (hv : (m.entryOrUndefined j).Covers v) (hne : v ≠ .undefined) :
    (n.entryOrUndefined j).Covers v := by
  cases he : m.entry? j with
  | none =>
    rw [entryOrUndefined_of_none he] at hv
    exact absurd (Entry.covers_undefined.1 hv) hne
  | some e =>
    rw [entryOrUndefined_of_some he] at hv
    obtain ⟨f, hf, hcovers⟩ := h e he
    rw [entryOrUndefined_of_some hf]
    exact hcovers v hv

/-- The value for anything says nothing about undefinedness. -/
theorem covers_undefined_readAbsent {m : Memory} :
    (m.readAbsent j).Covers .undefined ↔ (m.fallback j).Covers .undefined := by
  rw [covers_readAbsent, or_iff_right]
  rintro ⟨-, h | h⟩
  · cases h
  · cases h

section
variable (h : ∀ j, Outcome b b w s j)
include h

/-- What could be read before a weak write can be read after it, but where the write makes an entry
and what was read there is neither undefined nor what is written. -/
theorem covers_readIndex_weak (hv : v ∈ b.readIndex j) : (w.readIndex j).Covers v ↔
    v = .undefined ∨ (b.entry? j).isSome = true ∨ w.entry? j = none ∨
      (s.readIndex j).Covers v := by
  cases hb : b.entry? j with
  | some e =>
    obtain ⟨f, hf, hcovers⟩ := (h j).below_weak e hb
    refine iff_of_true ?_ (.inr (.inl rfl))
    rw [readIndex_of_some hb] at hv
    rw [readIndex_of_some hf]
    exact hcovers v (Entry.covers_of_mem hv)
  | none =>
    rw [readIndex_of_none hb] at hv
    cases hw : w.entry? j with
    | none =>
      -- both reads fall back on the unknown member and the containers, which only gained values
      refine iff_of_true ?_ (.inr (.inr (.inl rfl)))
      rw [readIndex_of_none hw]
      have hread := covers_readAbsent.1 (Entry.covers_of_mem hv)
      refine covers_readAbsent.2 (hread.imp (.imp_left ?_) (covers_fallback_of ?_))
      · exact isBelowOpaque_mono fun p _ _ => (h p).below_weak
      · exact fun k _ => (h k).covers_entryOrUndefined
    | some f =>
      -- the entry is made by the write, where there was none
      have hnot (hkept : w.entry? j = b.entry? j) : False := by
        rw [hw, hb] at hkept
        cases hkept
      cases h j with
      | written t hwt hst =>
        cases hw.symm.trans hwt
        rw [readIndex_of_some hw, readIndex_of_some hst, Entry.covers_join,
          entryOrUndefined_of_none hb,
          Entry.covers_undefined]
        simp
      | kept hw' _ => exact (hnot hw').elim
      | removed hw' _ => exact (hnot hw').elim

/-- What can be read after the strong write can be read after the weak one, but for two things: what
is read in place of an entry that the strong write removes, and undefinedness where the strong write
removes the unknown member that a location falls back on. Both may have been readable before. -/
theorem covers_readIndex_strong (hv : v ∈ s.readIndex j) : (w.readIndex j).Covers v ↔
    (s.entry? j).isSome = true ∨ (b.readIndex j).Covers v ∨
      b.entry? j = none ∧ (v ≠ .undefined ∨ ∃ k ∈ j.standIn?, (s.entry? k).isSome = true) := by
  cases hs : s.entry? j with
  | some e =>
    obtain ⟨f, hf, hcovers⟩ := (h j).strong_below_weak e hs
    refine iff_of_true ?_ (.inl rfl)
    rw [readIndex_of_some hs] at hv
    rw [readIndex_of_some hf]
    exact hcovers v (Entry.covers_of_mem hv)
  | none =>
    have hsame : w.entry? j = b.entry? j := by
      cases h j with
      | written t _ hst => cases hs.symm.trans hst
      | kept hw _ => exact hw
      | removed hw _ => exact hw
    rw [readIndex_of_none hs] at hv
    cases hb : b.entry? j with
    | some e =>
      -- the strong write removed this entry and the weak one left it alone
      rw [readIndex_of_some (hsame.trans hb), readIndex_of_some hb]
      simp
    | none =>
      rw [readIndex_of_none (hsame.trans hb), readIndex_of_none hb]
      have hread := covers_readAbsent.1 (Entry.covers_of_mem hv)
      -- undefinedness apart, what the strong write stores the weak one stores as well
      by_cases hne : v = .undefined
      · subst hne
        have hfallback := covers_undefined_readAbsent.1 (Entry.covers_of_mem hv)
        rw [covers_undefined_readAbsent, covers_undefined_readAbsent]
        unfold fallback at hfallback ⊢
        cases hk : j.standIn? with
        | none => simp [Entry.covers_undefined]
        | some k =>
          rw [hk] at hfallback
          simp [(h k).covers_undefined_iff hfallback]
      · refine iff_of_true ?_ (.inr (.inr ⟨rfl, .inl hne⟩))
        refine covers_readAbsent.2 (hread.imp (.imp_left ?_) (covers_fallback_of ?_))
        · exact isBelowOpaque_mono fun p _ _ => (h p).strong_below_weak
        · exact fun k _ hv => (h k).strong_below_weak.covers_entryOrUndefined hv hne

end

end Memory

namespace Snapshot
variable {b : Memory} {e : Entry} {s : Snapshot}

theorem assignIndex_run (hopen : s.phase = .open b) (he : e.IsData) (i : Index) (strong : Bool) :
    ∃ t, (assignIndex i e strong).run s = .ok () t ∧
      t.memory = (Draft.store { memory := s.memory, limit := s.limits.simplify } i e
        (ArraySource.ofEntry s.memory e) strong).memory :=
  Transact.mutate_ok .assign hopen (Edit.assignIndex_run _ i he strong)

/-- What a weak write to a location leaves readable, of what could be read before and of what could
be read after the strong write instead. Without a simplify limit both writes succeed. Of what was
read before, the weak write loses what a location without an entry was read as, where it makes an
entry that does not hold it; undefinedness is never lost. Of what is read after the strong write, it
lacks only what is read in place of something that the strong write removes, an entry or the unknown
member that a location falls back on. -/
theorem assignIndex_weak_covers (hs : Reachable s) (hopen : s.phase = .open b)
    (hlimit : s.limits.simplify = none) (he : e.IsData) (i : Index) :
    ∃ w t, (assignIndex i e false).run s = .ok () w ∧ (assignIndex i e true).run s = .ok () t ∧
      ∀ j,
        (∀ v ∈ s.memory.readIndex j, (w.memory.readIndex j).Covers v ↔
          v = .undefined ∨ (s.memory.entry? j).isSome = true ∨ w.memory.entry? j = none ∨
            (t.memory.readIndex j).Covers v) ∧
        ∀ v ∈ t.memory.readIndex j, (w.memory.readIndex j).Covers v ↔
          (t.memory.entry? j).isSome = true ∨ (s.memory.readIndex j).Covers v ∨
            s.memory.entry? j = none ∧
              (v ≠ .undefined ∨ ∃ k ∈ j.standIn?, (t.memory.entry? k).isSome = true) := by
  have hconsistent := (hs.upholds Memory.consistent_durable).memory
  have hfree : ({ memory := s.memory, limit := s.limits.simplify } : Draft).Free :=
    ⟨hlimit, hconsistent⟩
  have harrays : ∀ a ∈ ArraySource.ofEntry s.memory e, a.IsData := fun a =>
    ArraySource.isData_of_mem_ofEntry (Memory.consistent_durable.toSurvives.isData hconsistent)
  obtain ⟨w, hw, hweak⟩ := assignIndex_run hopen he i false
  obtain ⟨t, ht, hstrong⟩ := assignIndex_run hopen he i true
  have houtcome := (Draft.parted_store hfree hfree he harrays i).outcome
  rw [← hweak, ← hstrong] at houtcome
  exact ⟨w, t, hw, ht, fun j => ⟨fun _ => Memory.covers_readIndex_weak houtcome,
    fun _ => Memory.covers_readIndex_strong houtcome⟩⟩

set_option maxRecDepth 20000 in
/-- A member of an array that may have a number at any key. After a weak write to the member it has
what is written, and it may still be undefined. -/
theorem assignIndex_weak_covers_member :
    let a : Index := .ofVariable "a" .global
    let one : Segment := .key (.integer 1)
    let ops : List Operation := [.start,
      .change (.assign ((Path.ofVariable "a").member .unknownKey)
        (.ofValue (.scalar (.integer 5))) false)]
    let s := ops.foldl after {}
    let e : Entry := .ofValue (.scalar (.integer 7))
    Reachable s ∧ ∃ w, (assignIndex (a.member one) e false).run s = .ok () w ∧
      (w.memory.readIndex (a.member one)).Covers .undefined ∧
      (w.memory.readIndex (a.member one)).Covers (.scalar (.integer 7)) ∧
      (w.memory.readIndex (a.member (.key (.integer 2)))).Covers (.scalar (.integer 5)) := by
  intro a one ops s e
  have hs : Reachable s := (Reachable.blank {}).foldl
    (by simp [ops, Operation.sources, Mutation.sources])
  have hopen : s.phase = .open .initial := by decide +kernel
  obtain ⟨w, t, hw, ht, hcovers⟩ := assignIndex_weak_covers hs hopen (e := e) (by decide +kernel)
    (Entry.all_ofValue rfl) (a.member one)
  obtain ⟨w', hw', hweak⟩ := assignIndex_run hopen (e := e) (Entry.all_ofValue rfl) (a.member one)
    false
  obtain ⟨t', ht', hstrong⟩ := assignIndex_run hopen (e := e) (Entry.all_ofValue rfl) (a.member one)
    true
  have hww : EStateM.Result.ok () w = EStateM.Result.ok () w' := hw.symm.trans hw'
  have htt : EStateM.Result.ok () t = EStateM.Result.ok () t' := ht.symm.trans ht'
  cases hww
  cases htt
  refine ⟨hs, w, hw, ?_, ?_, ?_⟩
  · apply ((hcovers (a.member one)).1 _ (Entry.contains_eq_true.1 (by decide +kernel))).2
    exact .inl rfl
  · rw [hstrong] at hcovers
    apply ((hcovers (a.member one)).2 _ (Entry.contains_eq_true.1 (by decide +kernel))).2
    exact .inl (by decide +kernel)
  · apply ((hcovers (a.member (.key (.integer 2)))).1 _
      (Entry.contains_eq_true.1 (by decide +kernel))).2
    rw [hweak]
    exact .inr (.inr (.inl (by decide +kernel)))

set_option maxRecDepth 20000 in
/-- A weak write that makes a member hides what any member could have been; one of a number to an
array keeps a member of the array certain that the strong write removes. -/
theorem assignIndex_weak_forgets :
    let a : Index := .ofVariable "a" .global
    let one : Segment := .key (.integer 1)
    let five : Value := .scalar (.integer 5)
    let begun (k : Segment) : Snapshot := List.foldl after {} [.start,
      .change (.assign ((Path.ofVariable "a").member k) (.ofValue five) false)]
    (Reachable (begun .unknownKey) ∧ ∃ w,
      (assignIndex (a.member one) (.ofValue (.scalar (.integer 7))) false).run (begun .unknownKey) =
        .ok () w ∧
      five ∈ (begun .unknownKey).memory.readIndex (a.member one) ∧
      ¬(w.memory.readIndex (a.member one)).Covers five) ∧
    Reachable (begun one) ∧ ∃ w t,
      (assignIndex a (.ofValue (.scalar (.integer 3))) false).run (begun one) = .ok () w ∧
      (assignIndex a (.ofValue (.scalar (.integer 3))) true).run (begun one) = .ok () t ∧
      .undefined ∈ t.memory.readIndex (a.member one) ∧
      ¬(w.memory.readIndex (a.member one)).Covers .undefined := by
  intro a one five begun
  have hs (k : Segment) : Reachable (begun k) := (Reachable.blank {}).foldl
    (by simp [Operation.sources, Mutation.sources])
  have hdata (n : Int64) : (Entry.ofValue (.scalar (.integer n))).IsData := Entry.all_ofValue rfl
  obtain ⟨w, hw, hweak⟩ := assignIndex_run (s := begun .unknownKey) (b := .initial)
    (by decide +kernel) (hdata 7) (a.member one) false
  have hopen : (begun one).phase = .open .initial := by decide +kernel
  obtain ⟨w', hw', hweak'⟩ := assignIndex_run hopen (hdata 3) a false
  obtain ⟨t, ht, hstrong⟩ := assignIndex_run hopen (hdata 3) a true
  refine ⟨⟨hs _, w, hw, Entry.contains_eq_true.1 (by decide +kernel), ?_⟩, hs _, w', t, hw', ht, ?_⟩
  · rw [hweak]
    decide +kernel
  · rw [hweak', hstrong]
    exact ⟨Entry.contains_eq_true.1 (by decide +kernel), by decide +kernel⟩

end Snapshot
end ScriptMemory
