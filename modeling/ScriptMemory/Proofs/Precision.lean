import ScriptMemory.Proofs.Covering

/-! Memory that is precise about stores: a variable may hold there only what it holds in one of
them. Determinate scripts store nothing but literals and other variables; without limits, joins and
statements of such scripts lead from precise memory to precise memory. -/
namespace ScriptMemory
open Std

/-- The value says exactly what a variable holds at run time. -/
inductive Value.Denotes : Value → Option RuntimeValue → Prop
  | undefined : Denotes .undefined none
  | scalar (s : Scalar) : Denotes (.scalar s) (some (.scalar s))

namespace Value
variable {v w : Value} {x y : Option RuntimeValue}

theorem Denotes.unique (h : v.Denotes x) (h' : w.Denotes x) : v = w := by
  cases h <;> cases h' <;> rfl

/-- A value that says exactly one thing describes nothing else. -/
theorem Denotes.of_describes (h : v.Denotes y) (hx : v.describes x = true) : v.Denotes x := by
  cases h with
  | undefined =>
    cases x with
    | none => exact .undefined
    | some z => cases hx
  | scalar s =>
    rw [describes_scalar_iff.1 hx]
    exact .scalar s

end Value

/-- The expression is a literal or reads a plain variable. -/
def Expression.isDeterminate : Expression → Bool
  | literal _ => true
  | read p => p.isVariable
  | _ => false

namespace Statement

/-- The statement makes one store of every store. -/
def isDeterminate : Statement → Bool
  | nop | enter | exit | echo _ | branch _ => true
  | unset p => p.isVariable
  | assign p value => p.isVariable && value.isDeterminate
  | _ => false

end Statement

/-- Every statement of the function is determinate. -/
def Function.IsDeterminate (f : Function) : Prop :=
  ∀ node ∈ f.graph.nodes, node.statement.isDeterminate = true

theorem Expression.isScalar_of_isDeterminate {value : Expression} (h : value.isDeterminate = true) :
    value.isScalar = true := by
  cases value with
  | literal s => rfl
  | read p => exact h
  | _ => cases h

theorem Store.set_set (σ : Store) (name : String) (x y : Option RuntimeValue) :
    (σ.set name x).set name y = σ.set name y := by
  funext n
  unfold Store.set
  split <;> rfl

namespace Statement
variable {st : Statement} {σ σ' : Store}

theorem isScalar_of_isDeterminate (h : st.isDeterminate = true) : st.isScalar = true := by
  cases st with
  | assign p value =>
    obtain ⟨hp, hvalue⟩ := Bool.and_eq_true_iff.1 h
    exact Bool.and_eq_true_iff.2 ⟨hp, Expression.isScalar_of_isDeterminate hvalue⟩
  | _ => exact h

/-- Running a determinate statement once more changes nothing. -/
theorem Runs.again (h : st.isDeterminate = true) (hrun : st.Runs σ σ') : st.Runs σ' σ' := by
  cases hrun with
  | nop => exact .nop
  | enter => exact .enter
  | exit => exact .exit
  | echo value => exact .echo value
  | branch condition => exact .branch condition
  | @unset p hp =>
    have hrun : (Statement.unset p).Runs (σ.set p.name none)
        ((σ.set p.name none).set p.name none) := .unset hp
    rwa [Store.set_set] at hrun
  | @assign p value x hp hx =>
    have hagain : value.Evaluates (σ.set p.name x) x := by
      obtain ⟨-, hvalue⟩ := Bool.and_eq_true_iff.1 h
      cases hx with
      | literal s => exact .literal s
      | @read q hq =>
        have hsame : (σ.set p.name (σ q.name)) q.name = σ q.name := by
          unfold Store.set
          split <;> rfl
        have hread : (Expression.read q).Evaluates (σ.set p.name (σ q.name)) _ := .read hq
        rwa [hsame] at hread
      | _ => cases hvalue
    have hrun : (Statement.assign p value).Runs (σ.set p.name x) ((σ.set p.name x).set p.name x) :=
      .assign hp hagain
    rwa [Store.set_set] at hrun

end Statement

namespace Memory
variable {m n : Memory} {S T : Store → Prop} {F G : Finding → Prop} {e : Entry} {p : Path}

/-- Plain memory in which a variable may hold only what it holds in one of the stores. The findings
there are in `F`. -/
structure Precise (m : Memory) (S : Store → Prop) (F : Finding → Prop) : Prop extends m.Plain where
  inhabited : ∃ σ, S σ
  denotes : ∀ name, ∀ v ∈ m.entryOrUndefined (.global name), ∃ σ, S σ ∧ v.Denotes (σ name)
  reports : ∀ f, m.Reports f → F f

theorem Precise.mono (h : m.Precise S F) (hT : ∀ σ, S σ → T σ) (hG : ∀ f, F f → G f) :
    m.Precise T G where
  toPlain := h.toPlain
  inhabited := h.inhabited.imp hT
  denotes := fun name v hv => (h.denotes name v hv).imp fun σ hσ => ⟨hT σ hσ.1, hσ.2⟩
  reports := fun f hf => hG f (h.reports f hf)

theorem precise_initial (F : Finding → Prop) : initial.Precise (· = .blank) F where
  toPlain := plain_initial
  inhabited := ⟨.blank, rfl⟩
  denotes := by
    intro name v hv
    unfold entryOrUndefined at hv
    rw [entry?_initial, if_neg (by simp [Index.global, Index.ofVariable, Index.diagnostics])] at hv
    rw [Entry.mem_ofValue.1 hv]
    exact ⟨.blank, rfl, .undefined⟩
  reports := by
    rintro f ⟨e, he, hf⟩
    rw [entry?_initial, if_pos rfl] at he
    cases he
    exact absurd hf Entry.not_mem_empty

/-- Cells of other locations may change. -/
theorem Precise.of_cell (h : m.Precise S F) (hn : n.Plain)
    (hc : ∀ name, n.cell (.global name) = m.cell (.global name))
    (hd : n.cell .diagnostics = m.cell .diagnostics) : n.Precise S F where
  toPlain := hn
  inhabited := h.inhabited
  denotes := by
    intro name v hv
    unfold entryOrUndefined entry? at hv
    rw [hc] at hv
    exact h.denotes name v hv
  reports := by
    intro f hf
    unfold Reports entry? at hf
    rw [hd] at hf
    exact h.reports f hf

/-- Giving one variable a value that it has in the stores it leads to. -/
theorem Precise.set (h : m.Precise S F) (hn : n.Plain) {name : String} {st : Statement}
    {x : Store → Option RuntimeValue} (hc : ∀ i, i ≠ .global name → n.cell i = m.cell i)
    (hT : ∀ σ, st.Runs σ (σ.set name (x σ)))
    (hx : ∀ v ∈ n.entryOrUndefined (.global name), ∃ σ, S σ ∧ v.Denotes (x σ)) :
    n.Precise (st.after S) F where
  toPlain := hn
  inhabited := h.inhabited.elim fun σ hσ => ⟨_, σ, hσ, hT σ⟩
  denotes := by
    intro other v hv
    by_cases ho : other = name
    · subst ho
      obtain ⟨σ, hσ, hdenotes⟩ := hx v hv
      exact ⟨_, ⟨σ, hσ, hT σ⟩, by rwa [Store.set, if_pos rfl]⟩
    · unfold entryOrUndefined entry? at hv
      rw [hc _ (global_ne ho)] at hv
      obtain ⟨σ, hσ, hdenotes⟩ := h.denotes other v hv
      exact ⟨_, ⟨σ, hσ, hT σ⟩, by rwa [Store.set, if_neg ho]⟩
  reports := by
    intro f hf
    unfold Reports entry? at hf
    rw [hc _ (by simp [Index.global, Index.ofVariable, Index.diagnostics])] at hf
    exact h.reports f hf

theorem Precise.report (h : m.Precise S F) {f : Finding} (hf : F f)
    (he : Entry.WrittenAs (((m.entry? .diagnostics).getD ∅).insert (.info f)) e) :
    (m.write .diagnostics e).Precise S F := by
  have hflat : e.IsFlat := (h.toPlain.isFlat_reported f).writtenAs he
  have hinfo : e.All fun v => ∀ g, v = .info g → F g := by
    refine Entry.All.writtenAs (fun _ _ heq => nomatch heq) (Entry.All.insert ?_ ?_) he
    · intro v hv g hg
      cases hd : m.entry? .diagnostics with
      | none =>
        rw [hd] at hv
        exact absurd hv Entry.not_mem_empty
      | some old =>
        rw [hd] at hv
        exact h.reports g ⟨old, hd, hg ▸ hv⟩
    · intro g hg
      cases hg
      exact hf
  refine ⟨h.toPlain.write hflat _, h.inhabited, ?_, ?_⟩
  · intro name v hv
    unfold entryOrUndefined entry? at hv
    rw [h.toPlain.toFlat.cell_write hflat,
      if_neg (by simp [Index.global, Index.ofVariable, Index.diagnostics])] at hv
    exact h.denotes name v hv
  · rintro g ⟨e', he', hg⟩
    unfold entry? at he'
    rw [h.toPlain.toFlat.cell_write hflat, if_pos rfl] at he'
    cases he'
    exact hinfo _ hg g rfl

/-- Evaluation that reports findings of `F` leaves precise memory. -/
theorem precise_withstands (S : Store → Prop) (F : Finding → Prop) (limits : Limits) :
    Withstands limits F (fun _ _ => True) (·.Precise S F) where
  fresh := fun _ _ => trivial
  read := fun _ _ _ => trivial
  report := by
    rintro e f hf
    apply Transact.Leads.mutate
    rintro d - ⟨h, -⟩
    obtain ⟨e', hwrite, hwritten⟩ := Draft.write_eq d .diagnostics
      (((d.memory.entry? .diagnostics).getD ∅).insert (.info f))
    refine ⟨(), _, rfl, ?_, trivial⟩
    rw [hwrite]
    exact h.report hf hwritten
  createObject := by
    intro className site fields hf m hm
    obtain ⟨o, n, hy, hn, -⟩ := Transact.Keeps.mutate (keeps_createObject_of_plain
      (I := (·.Precise S F)) (fun _ h => h.toPlain)
      (fun _ _ h hn hc => h.of_cell hn (fun name => hc _ fun _ _ => global_ne_member)
        (hc _ fun _ _ => by simp [Index.diagnostics])) className site hf) .createObject limits m hm
    exact ⟨o, n, hy, hn, trivial⟩

/-- Without a limit memory is taken over as the join has it. -/
theorem entry?_takenOver {sources : List Memory} (hne : sources ≠ []) (i : Index) :
    Memory.entry? (takenOver none sources) i = none ∧ (∀ m ∈ sources, m.entry? i = none) ∨
      ∃ e, Memory.entry? (takenOver none sources) i = some e ∧
        ∀ v ∈ e, ∃ m ∈ sources, v ∈ m.entryOrUndefined i := by
  unfold takenOver
  split
  · next m =>
    cases he : m.entry? i with
    | none => exact .inl ⟨rfl, by simpa using he⟩
    | some e =>
      refine .inr ⟨e, rfl, fun v hv => ⟨m, List.mem_singleton_self m, ?_⟩⟩
      rw [entryOrUndefined, he]
      exact hv
  · have hsame (level : Nat) : Memory.entry? ((join sources level).simplified none) i =
        Memory.entry? (join sources level) i := by
      rw [simplified, entry?_mapEntries]
      cases Memory.entry? (join sources level) i <;> rfl
    rw [hsame, entry?_join]
    split
    · refine .inr ⟨_, rfl, fun v hv => ?_⟩
      rcases Entry.exists_mem_of_mem_foldl_join hv with hv | ⟨e, he, hv⟩
      · exact absurd hv Entry.not_mem_empty
      · obtain ⟨m, hm, rfl⟩ := List.mem_map.1 he
        exact ⟨m, hm, hv⟩
    · next hnone =>
      refine .inl ⟨rfl, fun m hm => ?_⟩
      cases he : m.entry? i with
      | none => rfl
      | some e => exact absurd ⟨m, hm, isDefined_of_entry? he⟩ hnone

theorem precise_takenOver {sources : List Memory} (hne : sources ≠ [])
    (h : ∀ m ∈ sources, m.Precise S F) : (takenOver none sources).Precise S F := by
  obtain ⟨m₀, hm₀⟩ := List.exists_mem_of_ne_nil sources hne
  have hplain : (takenOver none sources).Plain :=
    (covers_takenOver (fun m hm => (h m hm).toPlain) hm₀
      (h m₀ hm₀).toPlain.covers_none none).toPlain
  refine ⟨hplain, (h m₀ hm₀).inhabited, ?_, ?_⟩
  · intro name v hv
    unfold entryOrUndefined at hv
    rcases entry?_takenOver hne (.global name) with ⟨hnone, hall⟩ | ⟨e, he, hall⟩
    · -- a variable that no source has is unset in each of them
      apply (h m₀ hm₀).denotes name v
      rw [entryOrUndefined, hall m₀ hm₀]
      rwa [hnone] at hv
    · rw [he] at hv
      obtain ⟨m, hm, hv⟩ := hall v hv
      exact (h m hm).denotes name v hv
  · rintro f ⟨e, he, hf⟩
    rcases entry?_takenOver hne .diagnostics with ⟨hnone, -⟩ | ⟨e', he', hall⟩
    · rw [hnone] at he
      cases he
    · cases he.symm.trans he'
      obtain ⟨m, hm, hf⟩ := hall _ hf
      unfold entryOrUndefined at hf
      cases hd : m.entry? .diagnostics with
      | none =>
        rw [hd] at hf
        cases Entry.mem_ofValue.1 hf
      | some e =>
        rw [hd] at hf
        exact (h m hm).reports f ⟨e, hd, hf⟩

end Memory

namespace Analysis
open Transact
variable {m : Memory} {S : Store → Prop} {F : Finding → Prop} {limits : Limits} {ev : Evaluator}
  {value : Expression}

theorem yields_unset_precise (h : m.Precise S F) {p : Path} (hp : p.isVariable = true) :
    ∃ n, Yields (Snapshot.unset p) limits m () n ∧ n.Precise ((Statement.unset p).after S) F := by
  let d : Draft := { memory := m, limit := limits.simplify }
  have hrun : (Edit.unset p).run d = .ok () (d.unset p) := rfl
  refine ⟨_, Yields.mutate hrun, ?_⟩
  rw [Draft.unset_plain h.toPlain hp]
  refine h.set (h.toPlain.remove _) (fun i hi => ?_) (fun σ => .unset hp) fun v hv => ?_
  · rw [h.toPlain.cell_remove, if_neg hi]
  · unfold Memory.entryOrUndefined Memory.entry? at hv
    rw [h.toPlain.cell_remove, if_pos rfl] at hv
    rw [Entry.mem_ofValue.1 hv]
    exact h.inhabited.imp fun σ hσ => ⟨hσ, .undefined⟩

theorem yields_assign_precise (hlimits : limits.simplify = none) (h : m.Precise S F) {p : Path}
    (hp : p.isVariable = true) {value : Expression} {x : Store → Option RuntimeValue}
    (hvalue : ∀ σ, value.Evaluates σ (x σ)) {e : Entry} (he : e.IsFlat)
    (hx : ∀ v ∈ e, ∃ σ, S σ ∧ v.Denotes (x σ)) :
    ∃ n, Yields (Snapshot.assign p e false) limits m () n ∧
      n.Precise ((Statement.assign p value).after S) F := by
  let d : Draft := { memory := m, limit := limits.simplify }
  refine ⟨_, Yields.mutate (Edit.assign_run d p he.isData false), ?_⟩
  have hmemory : (d.assign p d.memory.level e false).memory = m.write (.global p.name) e := by
    have hlevel : d.memory.level = 0 := h.level_eq
    rw [hlevel]
    exact Draft.assign_unlimited (d := d) h.toPlain hlimits he hp false
  rw [hmemory]
  have hcell := h.toPlain.toFlat.cell_write he (.global p.name)
  refine h.set (h.toPlain.write he _) (fun i hi => ?_) (fun σ => .assign hp (hvalue σ))
    fun v hv => ?_
  · rw [hcell, if_neg hi]
  · unfold Memory.entryOrUndefined Memory.entry? at hv
    rw [hcell, if_pos rfl] at hv
    exact hx v hv

/-- What a determinate expression evaluates to holds exactly what it is at run time. -/
theorem leads_evaluate_determinate (limits : Limits) (hF : ev.Confines (·.Precise S F) F value)
    (hlevel : ev.level = 0) (hvalue : value.isDeterminate = true) :
    ∃ x : Store → Option RuntimeValue, (∀ σ, value.Evaluates σ (x σ)) ∧
      Leads limits (·.Precise S F) (ev.evaluate value)
        fun e m => m.Precise S F ∧ e.IsFlat ∧ ∀ v ∈ e, ∃ σ, S σ ∧ v.Denotes (x σ) := by
  cases value with
  | literal s =>
    refine ⟨fun _ => some (.scalar s), fun _ => .literal s, ?_⟩
    refine ((Keeps.create (.scalar s)).leads limits).bind fun v => Leads.pure ?_
    rintro m ⟨hm, rfl⟩
    refine ⟨hm, Entry.all_ofValue ⟨rfl, rfl⟩, fun v hv => ?_⟩
    rw [Entry.mem_ofValue.1 hv]
    exact hm.inhabited.imp fun σ hσ => ⟨hσ, .scalar s⟩
  | read p =>
    refine ⟨fun σ => σ p.name, fun _ => .read hvalue, ?_⟩
    refine Evaluator.leads_read_of (E := fun _ e => e.IsFlat ∧ ∀ v ∈ e, ∃ σ, S σ ∧
      v.Denotes (σ p.name)) (fun m hm => ?_) fun m hm hundefined e => ?_
    · rw [hlevel, hm.toPlain.readAt hvalue]
      refine ⟨Entry.All.join Entry.all_empty (hm.toPlain.toFlat.isFlat_entryOrUndefined _),
        fun v hv => ?_⟩
      exact hm.denotes p.name v
        ((Entry.mem_or_mem_of_mem_join hv).resolve_left Entry.not_mem_empty)
    · -- a finding leaves alone what has been read
      have hreport := (Memory.precise_withstands S F limits).report e _
        (hF.read p m rfl hm hundefined)
      rintro n ⟨hn, he⟩
      obtain ⟨u, k, hy, hk, -⟩ := hreport n ⟨hn, trivial⟩
      exact ⟨u, k, hy, hk, he⟩
  | _ => cases hvalue

/-- A variable that may be undefined is reported only where it is unset in one of the stores. -/
theorem confines_precise (hlevel : ev.level = 0)
    (hunset : ∀ p, value.readPath? = some p → p.isVariable = true →
      (∃ σ, S σ ∧ σ p.name = none) → F (ev.undefinedFinding p))
    (hother : ∀ f, f.cause ≠ .undefinedVariable → F f) : ev.Confines (·.Precise S F) F value where
  read := by
    intro p m hread hm hundefined
    cases hp : p.isVariable with
    | true =>
      apply hunset p hread hp
      rw [hlevel, hm.toPlain.readAt hp] at hundefined
      obtain ⟨σ, hσ, hdenotes⟩ := hm.denotes p.name .undefined
        ((Entry.mem_or_mem_of_mem_join (Entry.contains_eq_true.1 hundefined)).resolve_left
          Entry.not_mem_empty)
      refine ⟨σ, hσ, ?_⟩
      generalize σ p.name = y at hdenotes
      cases hdenotes
      rfl
    | false =>
      apply hother
      unfold Evaluator.undefinedFinding
      rw [hp]
      exact fun h => nomatch h
  constant := by
    intro f hf
    apply hother
    intro hcause
    rw [hcause] at hf
    exact hf.elim (nomatch ·) (nomatch ·)

/-- A determinate statement leads from precise memory to memory that is precise about what it makes
of the stores. -/
theorem yields_apply_precise (hlimits : limits.simplify = none) (h : m.Precise S F)
    {st : Statement} (hst : st.isDeterminate = true) (a : Analysis) (s : AnalysisState)
    (f : Function) (p : Point) (target : Option CallTarget)
    (hunset : ∀ x ∈ st.expressions, ∀ path, x.readPath? = some path → path.isVariable = true →
      (∃ σ, S σ ∧ σ path.name = none) →
      F ⟨.undefinedVariable, f.location p.node, path.text ++ " may be undefined"⟩)
    (hother : ∀ f : Finding, f.cause ≠ .undefinedVariable → F f) :
    ∃ n, Yields (a.apply s f p target st) limits m () n ∧ n.Precise (st.after S) F := by
  -- the statement reads the level of the memory before anything else
  have hget (k : Snapshot → Transact Unit)
      (hk : ∀ s t : Snapshot, s.memory = t.memory → k s = k t)
      (hn : ∃ n, Yields (k { memory := m }) limits m () n ∧ n.Precise (st.after S) F) :
      ∃ n, Yields ((get : Transact Snapshot) >>= k) limits m () n ∧ n.Precise (st.after S) F := by
    obtain ⟨n, hy, hn⟩ := hn
    exact ⟨n, hy.get_bind hk, hn⟩
  have hsame {n : Memory} (hn : n.Precise S F) (hruns : ∀ σ, st.Runs σ σ) :
      n.Precise (st.after S) F :=
    hn.mono (fun σ hσ => ⟨σ, hσ, hruns σ⟩) fun _ h => h
  unfold apply
  apply hget
  · intro s t h
    simp only [h]
  have hlevel : m.level = 0 := h.level_eq
  dsimp only
  rw [hlevel]
  generalize hev : Evaluator.mk a.program (f.location p.node) 0 false = ev
  have hev0 : ev.level = 0 := by rw [← hev]
  have hconfines {value : Expression} (hx : value ∈ st.expressions) :
      ev.Confines (·.Precise S F) F value := by
    refine confines_precise hev0 (fun path hread hp hσ => ?_) hother
    have hfinding := hunset value hx path hread hp hσ
    unfold Evaluator.undefinedFinding
    rw [hp, ← hev]
    exact hfinding
  -- what is evaluated for its findings leaves the variables alone
  have hdiscard (value : Expression) (hx : value ∈ st.expressions) (hruns : ∀ σ, st.Runs σ σ) :
      ∃ n, Yields (discard (ev.evaluate value)) limits m () n ∧ n.Precise (st.after S) F := by
    obtain ⟨e, n, hy, hn, -⟩ := Evaluator.leads_evaluate_of (Memory.precise_withstands S F limits)
      (hconfines hx) m h
    exact ⟨n, hy.bind (Yields.pure limits n ()), hsame hn hruns⟩
  cases st with
  | nop => exact ⟨m, Yields.pure limits m (), hsame h fun _ => .nop⟩
  | enter => exact ⟨m, Yields.pure limits m (), hsame h fun _ => .enter⟩
  | exit => exact ⟨m, Yields.pure limits m (), hsame h fun _ => .exit⟩
  | echo value => exact hdiscard value List.mem_cons_self fun _ => .echo value
  | branch condition => exact hdiscard condition List.mem_cons_self fun _ => .branch condition
  | unset path => exact yields_unset_precise h hst
  | assign path value =>
    obtain ⟨hp, hvalue⟩ := Bool.and_eq_true_iff.1 hst
    obtain ⟨x, hx, hleads⟩ := leads_evaluate_determinate limits (hconfines List.mem_cons_self)
      hev0 hvalue
    obtain ⟨e, n, hy, hn, he, hdenotes⟩ := hleads m h
    obtain ⟨k, hy', hk⟩ := yields_assign_precise hlimits hn hp hx he hdenotes
    exact ⟨k, hy.bind hy', hk⟩
  | _ => cases hst

end Analysis
end ScriptMemory
