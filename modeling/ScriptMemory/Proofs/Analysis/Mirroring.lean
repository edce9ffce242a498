import ScriptMemory.Proofs.Analysis.Transfer
import ScriptMemory.Proofs.Passing

/-! Visits of straight-line programs. What a point takes in mirrors an environment, and its
statement makes it mirror what the interpreter makes of that environment. -/
namespace ScriptMemory.Analysis
open Transact Memory
variable {a : Analysis} {s : AnalysisState} {f : Function} {c caller : Context} {p call : Point}
  {st : Statement} {target : Option CallTarget} {x : Intake} {σ : Environment} {level : Nat}
  {returned : Option Scalar} {limits : Limits} {m : Memory} {args : List Expression}

theorem leads_apply_idle (h : st = .nop ∨ st = .enter ∨ st = .exit) :
    Leads limits (Mirrors σ level returned) (a.apply s f p target st) fun _ =>
      Mirrors σ level returned := by
  refine Keeps.leads_same (Q := fun _ => True) ?_ limits
  unfold apply
  refine Keeps.get_bind (fun _ _ h => by simp only [h]) fun t _ => ?_
  rcases h with rfl | rfl | rfl
  · exact Keeps.pure trivial
  · exact Keeps.pure trivial
  · exact Keeps.pure trivial

/-- A call evaluates its arguments for what they may report. -/
theorem leads_apply_call {name : String} (hargs : args.all Expression.isPlain = true) :
    Leads limits (Mirrors σ level returned) (a.apply s f p target (.call name args)) fun _ =>
      Mirrors σ level returned := by
  refine Keeps.leads_same (Q := fun _ => True) ?_ limits
  unfold apply
  refine Keeps.get_bind (fun _ _ h => by simp only [h]) fun t _ => ?_
  apply Keeps.forM
  rintro ⟨arg, i⟩ harg
  have hplain : arg.isPlain = true :=
    List.all_eq_true.1 hargs arg (List.fst_mem_of_mem_zipIdx harg)
  apply Keeps.ite
  · exact (keeps_evaluate hplain _).bind fun _ _ => Keeps.pure trivial
  · exact Keeps.pure trivial

theorem leads_apply_callReturn {result : Option Path} (id : ContextId) :
    Leads limits (Mirrors σ level returned)
      (a.apply s f p (some (.context id)) (.callReturn result)) fun _ =>
        Mirrors σ level returned := by
  unfold apply
  exact Leads.get_bind (fun _ _ _ => rfl) fun _ _ => Leads.pure fun _ h => h

theorem leads_apply_assign (hlimits : limits.Admits) {path : Path} {value : Expression}
    (hpath : path.isVariable = true) (hvalue : value.isPlain = true) :
    Leads limits (Mirrors σ level returned) (a.apply s f p target (.assign path value)) fun _ =>
      Mirrors (σ.write (path.indexAt level) (value.value σ level)) level returned := by
  unfold apply
  refine Leads.get_bind (fun _ _ h => by simp only [h]) fun t ht => ?_
  have hsame : value.value σ t.memory.level = value.value σ level := by rw [ht.level_eq]
  rw [← hsame]
  exact leads_assign_evaluate hlimits hpath hvalue _ false

theorem leads_apply_returnValue (hlimits : limits.Admits) {value : Option Expression}
    (hvalue : value.all Expression.isPlain = true) :
    Leads limits (Mirrors σ level none) (a.apply s f p target (.returnValue value)) fun _ =>
      Mirrors σ level (Expression.returned σ level value) := by
  unfold apply
  refine Leads.get_bind (fun _ _ h => by simp only [h]) fun t ht => ?_
  cases value with
  | some e =>
    have hsame : e.value σ t.memory.level = Expression.returned σ level (some e) := by
      rw [ht.level_eq]
      rfl
    dsimp only
    rw [← hsame]
    refine ((keeps_evaluate hvalue _).leads limits).bind fun entry => ?_
    intro m hm
    obtain ⟨hm, rfl⟩ := hm
    exact leads_assignReturn hlimits _ m hm
  | none =>
    refine ((Keeps.create (.scalar .null)).leads limits).bind fun v => ?_
    intro m hm
    obtain ⟨hm, rfl⟩ := hm
    exact leads_assignReturn hlimits (some .null) m hm

/-- Some of the first elements are paired, in order. -/
theorem map_fst_zip_sublist {α β : Type} (l : List α) (k : List β) :
    ((l.zip k).map Prod.fst).Sublist l := by
  induction l generalizing k with
  | nil => exact List.Sublist.refl []
  | cons y l ih =>
    cases k with
    | nil => exact List.nil_sublist _
    | cons z k => exact (ih k).cons_cons y

/-- The parameters of a function are bound in its frame. -/
theorem leads_bindParameters (hlimits : limits.Admits) {name : String}
    (hcall : c.caller = some call) (hctx : s.contexts[call.context]? = some caller)
    (hst : caller.function.graph.statement? call.node = some (.call name args))
    (hparams : (c.function.params.map (·.name)).Nodup) (hargs : args.all Expression.isPlain = true)
    (hframes : ∀ i, σ.isBound i = true → i.frame ≤ level) :
    Leads limits (Mirrors σ (level + 1) none) (a.bindParameters s c) fun _ =>
      Mirrors (σ.enter level c.function.params args) (level + 1) none := by
  unfold bindParameters
  rw [hcall]
  dsimp only
  rw [hctx]
  dsimp only
  rw [hst]
  refine Leads.get_bind (fun _ _ h => by simp only [h]) fun t ht => ?_
  have hnames : ((c.function.params.zip args).map (·.1.name)).Nodup := by
    have hsub := (map_fst_zip_sublist c.function.params args).map (·.name)
    rw [List.map_map] at hsub
    exact hparams.sublist hsub
  refine leads_passAll hlimits ?_ hnames ?_ ?_
  · change t.memory.level - 1 = level
    rw [ht.level_eq]
    rfl
  · intro y hy
    exact List.all_eq_true.1 hargs y.2 (List.of_mem_zip hy).2
  · intro y _ hb
    have hframe : ((Path.ofVariable y.1.name).indexAt (level + 1)).frame = level + 1 := rfl
    have hle := hframes _ hb
    omega

theorem yields_takeIn_join (m before : Memory) :
    Yields (a.takeIn s c st (.join [m])) limits before () m := by
  have hrun : (Edit.extend [m]).run { memory := before, limit := limits.simplify } =
      .ok () { memory := m, limit := limits.simplify } := rfl
  exact Yields.mutate hrun

theorem yields_takeIn_call (hlimits : limits.Admits) {name : String} (hm : Mirrors σ level none m)
    (hcall : c.caller = some call) (hctx : s.contexts[call.context]? = some caller)
    (hst : caller.function.graph.statement? call.node = some (.call name args))
    (hparams : (c.function.params.map (·.name)).Nodup)
    (hargs : args.all Expression.isPlain = true) :
    ∃ n, Mirrors (σ.enter level c.function.params args) (level + 1) none n ∧
      ∀ st before, Yields (a.takeIn s c st (.call m)) limits before () n := by
  obtain ⟨u, n, hy, hn⟩ := leads_bindParameters (a := a) hlimits hcall hctx hst hparams hargs
    (fun i hi => (hm.framed i hi).2) _ hm.enter
  refine ⟨n, hn, fun _ before => ?_⟩
  have hrun : (Edit.enterCall m).run { memory := before, limit := limits.simplify } =
      .ok () { memory := { m with level := m.level + 1 }, limit := limits.simplify } := rfl
  rw [hm.level_eq] at hrun
  exact (Yields.mutate hrun).bind hy

theorem yields_takeIn_callReturn (hlimits : limits.Admits) (hm : Mirrors σ (level + 1) returned m)
    {result : Option Path} (hresult : result.all Path.isVariable = true) :
    ∃ n, Mirrors (σ.leave level result returned) level none n ∧
      ∀ before, Yields (a.takeIn s c (.callReturn result) (.callReturn m)) limits before () n := by
  obtain ⟨n, hy, hn⟩ := yields_leaveCall hlimits hm hresult
  exact ⟨n, hn, hy⟩

/-- What is taken in, and then the statement. -/
theorem yields_transfer {I Q : Memory → Prop} {n : Memory} (hn : I n)
    (hin : ∀ before, Yields (a.takeIn s c st x) limits before () n)
    (happly : Leads limits I (a.apply s c.function p target st) fun _ => Q) :
    ∃ k, Q k ∧ ∀ before, Yields (a.transfer s c p st target x) limits before () k := by
  obtain ⟨u, k, hy, hk⟩ := happly n hn
  exact ⟨k, hk, fun before => (hin before).bind hy⟩

end ScriptMemory.Analysis
