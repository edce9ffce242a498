import ScriptMemory.Proofs.Analysis.Transfer
import ScriptMemory.Proofs.Execution
import ScriptMemory.Proofs.Memory.Plain

/-! Memory that covers stores: every variable may hold there what it holds in any of them. Taking
over, a scalar statement and a commit lead from memory that covers some stores to memory that covers
what execution makes of them. -/
namespace ScriptMemory
open Std

namespace Memory
variable {m n : Memory} {S T : Store → Prop} {e : Entry} {p : Path}

/-- Plain memory in which every variable may hold what it holds in any of the stores. -/
structure Covers (m : Memory) (S : Store → Prop) : Prop extends m.Plain where
  describes : ∀ σ, S σ → ∀ name, (m.entryOrUndefined (.global name)).Describes (σ name)

theorem Plain.covers_none (h : m.Plain) : m.Covers fun _ => False :=
  ⟨h, fun _ hσ => hσ.elim⟩

theorem Covers.mono (h : m.Covers S) (hT : ∀ σ, T σ → S σ) : m.Covers T :=
  ⟨h.toPlain, fun σ hσ => h.describes σ (hT σ hσ)⟩

theorem covers_initial : initial.Covers (· = .blank) := by
  refine ⟨plain_initial, ?_⟩
  rintro _ rfl name
  unfold entryOrUndefined
  rw [entry?_initial, if_neg (by simp [Index.global, Index.ofVariable, Index.diagnostics])]
  exact Entry.describes_undefined

/-- Cells of other locations may change. -/
theorem Covers.of_cell (h : m.Covers S) (hn : n.Plain)
    (hc : ∀ name, n.cell (.global name) = m.cell (.global name)) : n.Covers S := by
  refine ⟨hn, ?_⟩
  intro σ hσ name
  unfold entryOrUndefined entry?
  rw [hc]
  exact h.describes σ hσ name

/-- Giving one variable another entry covers the stores in which it holds something else. -/
theorem Covers.set (h : m.Covers S) (hn : n.Plain) {name : String}
    (hc : ∀ other, other ≠ name → n.cell (.global other) = m.cell (.global other))
    (hT : ∀ σ', T σ' → ∃ σ x, S σ ∧ (n.entryOrUndefined (.global name)).Describes x ∧
      σ' = σ.set name x) : n.Covers T := by
  refine ⟨hn, ?_⟩
  intro σ' hσ' other
  obtain ⟨σ, x, hσ, hx, rfl⟩ := hT σ' hσ'
  unfold Store.set
  by_cases ho : other = name
  · rw [if_pos ho, ho]
    exact hx
  · rw [if_neg ho]
    unfold entryOrUndefined entry?
    rw [hc other ho]
    exact h.describes σ hσ other

/-- What is in the slot for findings when one is added. -/
theorem Plain.isFlat_reported (h : m.Plain) (f : Finding) :
    (((m.entry? .diagnostics).getD ∅).insert (.info f)).IsFlat := by
  cases he : m.entry? .diagnostics with
  | none => exact Entry.All.insert Entry.all_empty ⟨rfl, rfl⟩
  | some e => exact Entry.All.insert (h.flat _ e he) ⟨rfl, rfl⟩

/-- Writing elsewhere does not touch variables. -/
theorem Covers.write (h : m.Covers S) (he : e.IsFlat) {i : Index} (hi : ∀ name, .global name ≠ i) :
    (m.write i e).Covers S := by
  apply h.of_cell (h.toPlain.write he i)
  intro name
  rw [h.toPlain.toFlat.cell_write he, if_neg (hi name)]

/-- An object is made without a change to cells other than its fields. -/
theorem keeps_createObject_of_plain {I : Memory → Prop} (hplain : ∀ m, I m → m.Plain)
    (hI : ∀ m n, I m → n.Plain →
      (∀ i, (∀ (o : ObjectValue) field, i ≠ o.index.member (.field field)) → n.cell i = m.cell i) →
      I n) (className : String) (site : ObjectId) {fields : List (String × Entry)}
    (hf : ∀ x ∈ fields, ∃ s, x.2 = .ofValue (.scalar s)) :
    Edit.Keeps I (Edit.createObject className site fields) fun _ => True := by
  have hdeclare : ∀ d : Draft, I d.memory → I (d.memory.declareObject ⟨site, className⟩) :=
    fun d h => hI _ _ h ((hplain _ h).declareObject _) fun i _ => cell_declareObject ..
  unfold Edit.createObject
  apply Edit.Keeps.get.bind
  intro d _
  apply (Edit.Keeps.modify hdeclare).bind
  intro _ _
  refine Edit.Keeps.bind (Q := fun _ => True) ?_ fun _ _ => Edit.Keeps.pure trivial
  apply Edit.Keeps.forM
  rintro ⟨field, e⟩ hx
  obtain ⟨s, rfl⟩ : ∃ s, e = .ofValue (.scalar s) := hf _ hx
  have hflat : (Entry.ofValue (.scalar s)).IsFlat := Entry.all_ofValue ⟨rfl, rfl⟩
  dsimp only
  unfold Edit.assignIndex
  rw [Edit.rejectReferences_eq hflat.isData, pure_bind]
  apply Edit.Keeps.modify
  intro d h
  rw [Draft.ofEntry_flat d.memory hflat]
  obtain ⟨f, -, -, -, hcell⟩ := Draft.store_plain (hplain _ h) hflat _ _
  refine hI _ _ h (Draft.plain_store (hplain _ h) hflat _ _) fun i hi => ?_
  rw [hcell, if_neg (hi _ field)]

/-- So findings and objects can be made. -/
theorem covers_persistent (S : Store → Prop) : Persistent (·.Covers S) where
  wellFormed := fun h => h.toPlain.wellFormed
  report := by
    intro f
    apply Edit.Keeps.modify
    intro d h
    have hflat := h.toPlain.isFlat_reported f
    obtain ⟨e, he, hwritten⟩ := Draft.write_eq d .diagnostics
      (((d.memory.entry? .diagnostics).getD ∅).insert (.info f))
    rw [he]
    apply h.write (hflat.writtenAs hwritten)
    simp [Index.global, Index.ofVariable, Index.diagnostics]
  createObject := fun className site _ hf => keeps_createObject_of_plain (fun _ h => h.toPlain)
    (fun _ _ h hn hc => h.of_cell hn fun name => hc _ fun _ _ => global_ne_member) className site hf

theorem Covers.mapEntries (h : m.Covers S) {f : Index → Entry → Entry}
    (hflat : ∀ i e, e.IsFlat → (f i e).IsFlat)
    (hf : ∀ i e x, e.Describes x → (f i e).Describes x) : (m.mapEntries f).Covers S := by
  refine ⟨h.toPlain.mapEntries hflat, ?_⟩
  intro σ hσ name
  have hx := h.describes σ hσ name
  unfold entryOrUndefined at hx ⊢
  rw [entry?_mapEntries]
  cases he : m.entry? (.global name) with
  | none =>
    rw [he] at hx
    exact hx
  | some e =>
    rw [he] at hx
    exact hf _ e _ hx

/-- A join covers what any of its sources covers. -/
theorem covers_join {sources : List Memory} (hplain : ∀ m ∈ sources, m.Plain) (hm : m ∈ sources)
    (h : m.Covers S) : (join sources 0).Covers S := by
  refine ⟨plain_join hplain, ?_⟩
  intro σ hσ name
  have hx := h.describes σ hσ name
  have hjoined : ((sources.map (·.entryOrUndefined (.global name))).foldl Entry.join ∅).Describes
      (σ name) := Entry.describes_foldl_join (List.mem_map.2 ⟨m, hm, rfl⟩) hx
  unfold entryOrUndefined
  rw [entry?_join]
  split
  · exact hjoined
  · next hnone =>
    -- a variable that no source defines is undefined in `m` as well
    unfold entryOrUndefined at hx
    cases he : m.entry? (.global name) with
    | none =>
      rw [he] at hx
      exact hx
    | some e => exact absurd ⟨m, hm, isDefined_of_entry? he⟩ hnone

theorem covers_takenOver {sources : List Memory} (hplain : ∀ m ∈ sources, m.Plain)
    (hm : m ∈ sources) (h : m.Covers S) (limit : Option Nat) :
    (takenOver limit sources).Covers S := by
  unfold takenOver
  split
  · rwa [← List.mem_singleton.1 hm]
  · have hlevel : (sources.head?.map (·.level)).getD 0 = 0 := by
      cases sources with
      | nil => cases hm
      | cons first rest => exact (hplain first List.mem_cons_self).level_eq
    rw [hlevel]
    exact (covers_join hplain hm h).mapEntries
      (fun _ e he => he.writtenAs (Entry.writtenAs_getD limit e))
      fun _ e x hx => (Entry.writtenAs_getD limit e).describes hx

theorem Covers.committed (h : m.Covers S) (limits : Limits) (commits : Nat) (before : Memory) :
    (committed limits commits before m).Covers S := by
  unfold Memory.committed
  split
  · apply h.mapEntries
    · intro i e he
      rcases widenEntry_cases before i e with heq | ⟨old, heq⟩
      · rwa [heq]
      · rw [heq]
        exact he.widen old
    · intro i e x hx
      rcases widenEntry_cases before i e with heq | ⟨old, heq⟩
      · rwa [heq]
      · rw [heq]
        exact hx.widen old
  · exact h

end Memory

namespace Evaluator
open Transact

/-- What a variable is read as describes what it holds, whether reading it is reported or not. -/
theorem keeps_read_variable {ev : Evaluator} (hlevel : ev.level = 0) (S : Store → Prop) {p : Path}
    (hp : p.isVariable = true) : Keeps (·.Covers S) (ev.read p) fun e =>
      e.IsFlat ∧ ∀ σ, S σ → e.Describes (σ p.name) := by
  unfold read
  apply Keeps.get_bind
  · intro s t h
    simp only [h]
  · intro s hcovers
    have hread : (s.memory.readAt p ev.level).IsFlat ∧
        ∀ σ, S σ → (s.memory.readAt p ev.level).Describes (σ p.name) := by
      rw [hlevel, hcovers.toPlain.readAt hp]
      refine ⟨Entry.All.join Entry.all_empty (hcovers.toPlain.toFlat.isFlat_entryOrUndefined _), ?_⟩
      intro σ hσ
      exact (hcovers.describes σ hσ p.name).join_right ∅
    dsimp only
    apply Keeps.ite
    · exact (keeps_warn (Memory.covers_persistent S) ev _ _).bind fun _ _ => Keeps.pure hread
    · exact Keeps.pure hread

/-- The result of a scalar expression describes everything that it may be at run time. -/
theorem keeps_evaluate_scalar {ev : Evaluator} (hlevel : ev.level = 0) (S : Store → Prop)
    {value : Expression} (hs : value.isScalar = true) :
    Keeps (·.Covers S) (ev.evaluate value) fun e =>
      e.IsFlat ∧ ∀ σ, S σ → ∀ x, value.Evaluates σ x → e.Describes x := by
  -- all but variables are single values made on the spot
  have hcreate (v : Value) (hflat : v.isReference = false ∧ v.arrayOwner? = none)
      (hv : ∀ σ x, value.Evaluates σ x → v.describes x = true) :
      Keeps (·.Covers S) (do return Entry.ofValue (← Snapshot.create v)) fun e =>
        e.IsFlat ∧ ∀ σ, S σ → ∀ x, value.Evaluates σ x → e.Describes x := by
    apply (Keeps.create v).bind
    rintro _ rfl
    exact Keeps.pure ⟨Entry.all_ofValue hflat, fun σ _ x hx => Entry.describes_ofValue (hv σ x hx)⟩
  cases value with
  | literal s =>
    apply hcreate _ ⟨rfl, rfl⟩
    rintro σ _ ⟨⟩
    exact Value.describes_scalar_iff.2 rfl
  | any =>
    apply hcreate _ ⟨rfl, rfl⟩
    rintro σ _ ⟨⟩
    rfl
  | anyOf k =>
    apply hcreate _ ⟨rfl, rfl⟩
    rintro σ _ ⟨⟩
    exact decide_eq_true rfl
  | interval first last =>
    apply hcreate _ ⟨rfl, rfl⟩
    intro σ x hx
    cases hx with
    | @interval _ _ n hfirst hlast =>
      refine Value.describes_interval_iff.2 ⟨.integer n, rfl, Interval.containsScalar_iff.2
        ⟨.integer (.point n), rfl, Range.contains_iff.2 ⟨?_, ?_⟩⟩⟩
      · change (compare first n).isLE
        exact isLE_compare.2 hfirst
      · change (compare n last).isLE
        exact isLE_compare.2 hlast
  | read p =>
    apply (keeps_read_variable hlevel S hs).mono
    rintro e ⟨he, hx⟩
    refine ⟨he, ?_⟩
    rintro σ hσ _ ⟨⟩
    exact hx σ hσ
  | newArray => cases hs
  | newObject className => cases hs
  | classConstant target name => cases hs

end Evaluator

/-- The stores that the statement may lead to from some of the given ones. -/
def Statement.after (st : Statement) (S : Store → Prop) (σ' : Store) : Prop :=
  ∃ σ, S σ ∧ st.Runs σ σ'

namespace Analysis
open Transact
variable {m : Memory} {S : Store → Prop}

theorem yields_unset (h : m.Covers S) {p : Path} (hp : p.isVariable = true) (limits : Limits) :
    ∃ n, Yields (Snapshot.unset p) limits m () n ∧ n.Covers ((Statement.unset p).after S) := by
  let d : Draft := { memory := m, limit := limits.simplify }
  have hrun : (Edit.unset p).run d = .ok () (d.unset p) := rfl
  refine ⟨_, Yields.mutate hrun, ?_⟩
  rw [Draft.unset_plain h.toPlain hp]
  apply h.set (h.toPlain.remove _)
  · intro other ho
    rw [h.toPlain.cell_remove, if_neg (Memory.global_ne ho)]
  · rintro _ ⟨σ, hσ, ⟨⟩⟩
    refine ⟨σ, none, hσ, ?_, rfl⟩
    unfold Memory.entryOrUndefined Memory.entry?
    rw [h.toPlain.cell_remove, if_pos rfl]
    exact Entry.describes_undefined

theorem yields_assign (h : m.Covers S) {p : Path} (hp : p.isVariable = true) {value : Expression}
    {e : Entry} (he : e.IsFlat) (hx : ∀ σ, S σ → ∀ x, value.Evaluates σ x → e.Describes x)
    (limits : Limits) : ∃ n, Yields (Snapshot.assign p e false) limits m () n ∧
      n.Covers ((Statement.assign p value).after S) := by
  let d : Draft := { memory := m, limit := limits.simplify }
  refine ⟨_, Yields.mutate (Edit.assign_run d p he.isData false), ?_⟩
  have hlevel : d.memory.level = 0 := h.level_eq
  rw [hlevel, Draft.assign_plain (d := d) h.toPlain he hp]
  obtain ⟨f, -, hwritten, -, hcell⟩ := Draft.store_plain (d := d) h.toPlain he (.global p.name) true
  apply h.set (Draft.plain_store (d := d) h.toPlain he _ _)
  · -- the other variables stay, and this one gets the entry as it is written
    intro other ho
    rw [hcell, if_neg (Memory.global_ne ho)]
  · rintro _ ⟨σ, hσ, hruns⟩
    cases hruns with
    | @assign _ _ x _ hval =>
      refine ⟨σ, x, hσ, ?_, rfl⟩
      unfold Memory.entryOrUndefined Memory.entry?
      rw [hcell, if_pos rfl]
      exact (hwritten rfl).describes (hx σ hσ x hval)

/-- A scalar statement leads from memory that covers some stores to memory that covers what it may
make of them. -/
theorem yields_apply (h : m.Covers S) {st : Statement} (hst : st.isScalar = true) (a : Analysis)
    (s : AnalysisState) (f : Function) (p : Point) (target : Option CallTarget) (limits : Limits) :
    ∃ n, Yields (a.apply s f p target st) limits m () n ∧ n.Covers (st.after S) := by
  -- the statement reads the level of the memory before anything else
  have hget (k : Snapshot → Transact Unit)
      (hk : ∀ s t : Snapshot, s.memory = t.memory → k s = k t)
      (hn : ∃ n, Yields (k { memory := m }) limits m () n ∧ n.Covers (st.after S)) :
      ∃ n, Yields ((get : Transact Snapshot) >>= k) limits m () n ∧ n.Covers (st.after S) := by
    obtain ⟨n, hy, hn⟩ := hn
    exact ⟨n, hy.get_bind hk, hn⟩
  have hsame (hruns : ∀ σ σ', st.Runs σ σ' → σ' = σ) : m.Covers (st.after S) := by
    apply h.mono
    rintro σ' ⟨σ, hσ, hrun⟩
    rwa [hruns σ σ' hrun]
  unfold apply
  apply hget
  · intro s t h
    simp only [h]
  have hlevel : m.level = 0 := h.level_eq
  dsimp only
  rw [hlevel]
  generalize hev : Evaluator.mk a.program (f.location p.node) 0 false = ev
  have hev0 : ev.level = 0 := by rw [← hev]
  -- what is evaluated for its findings leaves the variables alone
  have hdiscard (value : Expression) (hruns : ∀ σ σ', st.Runs σ σ' → σ' = σ) :
      ∃ n, Yields (discard (ev.evaluate value)) limits m () n ∧ n.Covers (st.after S) := by
    obtain ⟨e, n, hy, hn, -⟩ := Evaluator.keeps_evaluate (Memory.covers_persistent (st.after S)) ev
      value limits m (hsame hruns)
    exact ⟨n, hy.bind (Yields.pure limits n ()), hn⟩
  cases st with
  | nop => exact ⟨m, Yields.pure limits m (), hsame (by rintro σ _ ⟨⟩; rfl)⟩
  | enter => exact ⟨m, Yields.pure limits m (), hsame (by rintro σ _ ⟨⟩; rfl)⟩
  | exit => exact ⟨m, Yields.pure limits m (), hsame (by rintro σ _ ⟨⟩; rfl)⟩
  | echo value => exact hdiscard value (by rintro σ _ ⟨⟩; rfl)
  | branch condition => exact hdiscard condition (by rintro σ _ ⟨⟩; rfl)
  | unset path => exact yields_unset h hst limits
  | assign path value =>
    rw [Statement.isScalar, Bool.and_eq_true] at hst
    obtain ⟨e, n, hy, hn, he, hx⟩ :=
      Evaluator.keeps_evaluate_scalar hev0 S hst.2 limits m h
    obtain ⟨k, hy', hk⟩ := yields_assign hn hst.1 he hx limits
    exact ⟨k, hy.bind hy', hk⟩
  | _ => cases hst

end Analysis
end ScriptMemory
