import ScriptMemory.Analysis
import ScriptMemory.Proofs.Evaluation

/-! One visit of a point. Its effect is a function of the memories the point takes its input from:
the memory left by an earlier visit matters to the commit only. -/
namespace ScriptMemory
open Std

/-- What the memory of a point is made from, by memories. -/
inductive Intake where
  | join (sources : List Memory)
  | call (caller : Memory)
  | callReturn (exit : Memory)

namespace Intake

def memories : Intake → List Memory
  | join sources => sources
  | call caller => [caller]
  | callReturn exit => [exit]

/-- The intake makes up a frame at `level`. -/
def Fits (level : Nat) : Intake → Prop
  | join sources => sources ≠ [] ∧ ∀ m ∈ sources, m.level = level
  | call caller => caller.level + 1 = level
  | callReturn exit => exit.level = level + 1

end Intake

def Input.intake : Input → Intake
  | .join sources => .join (sources.map (·.memory))
  | .call caller => .call caller.memory
  | .callReturn exit => .callReturn exit.memory

namespace Memory
open Transact

/-- The invariant `I` withstands statements: an entry that `E` admits may be assigned to any path,
`R` says which path may be made a reference to which, and `U` which path may be unset. -/
structure Upkeep (limits : Limits) (E : Memory → Entry → Prop) (R : Path → Path → Prop)
    (U : Path → Prop) (I : Memory → Prop) : Prop extends Withstands limits (fun _ => True) E I where
  assign : ∀ p e force, Leads limits (fun m => I m ∧ E m e) (Snapshot.assign p e force) fun _ => I
  assignReturn : ∀ e, Leads limits (fun m => I m ∧ E m e) (Snapshot.assignReturn e) fun _ => I
  assignAlias : ∀ target source, R target source →
    Leads limits I (Snapshot.assignAlias target source) fun _ => I
  unset : ∀ p, U p → Leads limits I (Snapshot.unset p) fun _ => I

variable {P : Index → Prop} {V : Index → Value → Prop} {I : Memory → Prop}

/-- What survives all edits that start from the variables in reach withstands statements. -/
theorem Survives.upkeep (hI : Survives P V I) {limits : Limits}
    (hvariable : ∀ m p, I m → (Locations.ofVariable p m.level).All P)
    (hreturn : ∀ m, I m → P (.returnSlot m.level))
    (h : Withstands limits (fun _ => True) (fun _ => Entry.IsData) I) :
    Upkeep limits (fun _ => Entry.IsData) (fun _ _ => True) (fun _ => True) I where
  toWithstands := h
  assign := by
    rintro p e force m ⟨hm, he⟩
    exact (Keeps.mutate (Edit.keeps_assign hI he (fun m => hvariable m p) force) _).leads_same
      limits m hm
  assignReturn := by
    rintro e m ⟨hm, he⟩
    have hstore : Leads limits I (Snapshot.assignIndex (.returnSlot m.level) e true) fun _ => I :=
      (Keeps.mutate (Edit.keeps_assignIndex hI (hreturn m hm) he true) _).leads_same limits
    obtain ⟨a, n, hy, hn⟩ := hstore m hm
    exact ⟨a, n, Yields.get_bind (fun s t h => by simp only [h]) hy, hn⟩
  assignAlias := fun target source _ => (Keeps.mutate (Edit.keeps_assignAlias hI
    (fun m => hvariable m target) fun m => hvariable m source) _).leads_same limits
  unset := fun p _ =>
    (Keeps.mutate (Edit.keeps_unset hI fun m => hvariable m p) _).leads_same limits

theorem Stable.upkeep (hI : Stable I) (limits : Limits) :
    Upkeep limits (fun _ => Entry.IsData) (fun _ _ => True) (fun _ => True) I :=
  hI.survives.upkeep (fun _ p _ => Locations.all_ofVariable Index.isOrdinary_ofVariable p _)
    (fun _ _ => Index.isOrdinary_returnSlot _) (hI.persistent.withstands limits)

end Memory

namespace Analysis
open Transact
variable {limits : Limits} {E : Memory → Entry → Prop} {R : Path → Path → Prop} {U : Path → Prop}
  {I : Memory → Prop}

theorem leads_approximate (hI : Memory.Upkeep limits E R U I) (result : Option Path)
    (callee : Option Function) (args : List Expression) :
    Leads limits I (approximate result callee args) fun _ => I := by
  have hany : (Entry.ofValue .any).All Value.IsFresh := Entry.all_ofValue trivial
  have hassign (p : Path) : Leads limits I (Snapshot.assign p (.ofValue .any) false) fun _ => I :=
    (hI.assign p (.ofValue .any) false).mono (fun _ hm => ⟨hm, hI.fresh hm hany⟩) fun _ _ h => h
  unfold approximate
  refine ((Keeps.create .any).leads limits).bind fun v => ?_
  rintro m ⟨hm, rfl⟩
  revert m
  change Leads limits I _ _
  cases result
  case' some p => refine (hassign p).bind fun _ => ?_
  -- with or without a result, what remains are the arguments taken by reference
  all_goals
    cases callee with
    | none => exact Leads.pure fun _ h => h
    | some f =>
      apply Leads.forM
      intro x _
      dsimp only
      split
      · exact hassign _
      · exact Leads.pure fun _ h => h

/-- Statements never fail, and an invariant withstands them. -/
theorem leads_apply (hI : Memory.Upkeep limits E R U I) (a : Analysis) (s : AnalysisState)
    (f : Function) (p : Point) (target : Option CallTarget) (statement : Statement)
    (hR : ∀ path source, statement = .assignAlias path source → R path source)
    (hU : ∀ path, statement = .unset path → U path) :
    Leads limits I (a.apply s f p target statement) fun _ => I := by
  have hevaluate (ev : Evaluator) (x : Expression) :
      Leads limits I (discard (ev.evaluate x)) fun _ => I :=
    (Evaluator.leads_evaluate hI.toWithstands ev x).bind fun _ => Leads.pure fun _ h => h.1
  unfold apply
  apply Leads.get_bind
  · intro s t h
    simp only [h]
  intro t _
  generalize Evaluator.mk a.program (f.location p.node) t.memory.level false = ev
  dsimp only
  cases statement with
  | nop => exact Leads.pure fun _ h => h
  | enter => exact Leads.pure fun _ h => h
  | exit => exact Leads.pure fun _ h => h
  | assign path value =>
    exact (Evaluator.leads_evaluate hI.toWithstands ev value).bind fun e => hI.assign path e false
  | assignAlias path source => exact hI.assignAlias path source (hR path source rfl)
  | unset path => exact hI.unset path (hU path rfl)
  | echo value => exact hevaluate ev value
  | branch value => exact hevaluate ev value
  | call name args =>
    apply Leads.forM
    intro x _
    apply Leads.ite
    · exact hevaluate ev _
    · exact Leads.pure fun _ h => h
  | callReturn result =>
    cases target with
    | none => exact Leads.pure fun _ h => h
    | some target =>
      cases target with
      | context id => exact Leads.pure fun _ h => h
      | approximated cause message callee =>
        have hwarn : Leads limits I (ev.warn cause message) fun _ => I :=
          (Evaluator.leads_warn hI.toWithstands ev trivial ∅).mono
            (fun _ hm => ⟨hm, hI.fresh hm Entry.all_empty⟩) fun _ _ h => h.1
        exact hwarn.bind fun _ => leads_approximate hI result callee _
  | returnValue value =>
    cases value with
    | some value =>
      exact (Evaluator.leads_evaluate hI.toWithstands ev value).bind fun e => hI.assignReturn e
    | none =>
      refine ((Keeps.create _).leads limits).bind fun v => ?_
      rintro m ⟨hm, rfl⟩
      have hnull : Value.IsFresh (.scalar .null) := trivial
      exact hI.assignReturn _ m ⟨hm, hI.fresh hm (Entry.all_ofValue hnull)⟩

/-- Every stable property survives every statement. -/
theorem keeps_apply (hI : Memory.Stable I) (a : Analysis) (s : AnalysisState) (f : Function)
    (p : Point) (target : Option CallTarget) (statement : Statement) :
    Keeps I (a.apply s f p target statement) fun _ => True :=
  fun limits => (leads_apply (hI.upkeep limits) a s f p target statement (fun _ _ _ => trivial)
    fun _ _ => trivial).mono (fun _ h => h) fun _ _ h => ⟨h, trivial⟩

/-- The parameters of the function entered in a context that take an argument of the call, each with
its argument. -/
def bindings (s : AnalysisState) (c : Context) : List (Parameter × Expression) :=
  match c.caller.bind fun call => (s.contexts[call.context]?).bind fun caller =>
      caller.function.graph.statement? call.node with
  | some (.call _ args) => c.function.params.zip args
  | _ => []

/-- Binds one parameter to its argument. -/
def bindArgument (ev : Evaluator) (x : Parameter × Expression) : Transact Unit :=
  match x.1.byReference, x.2 with
  | true, .read source => Snapshot.bindReference (.ofVariable x.1.name) source
  | _, _ => do Snapshot.assign (.ofVariable x.1.name) (← ev.evaluate x.2) true

/-- The arguments are evaluated in the frame of the caller. -/
theorem bindParameters_eq (a : Analysis) (s : AnalysisState) (c : Context) :
    ∃ ev : Nat → Evaluator, a.bindParameters s c = (get : Transact Snapshot) >>=
      fun t => (bindings s c).forM (bindArgument (ev t.memory.level)) := by
  -- where nothing is bound, any evaluator will do
  let idle (level : Nat) : Evaluator := ⟨a.program, "", level, true⟩
  unfold bindParameters bindings
  cases c.caller with
  | none => exact ⟨idle, rfl⟩
  | some call =>
    rw [Option.bind_some]
    dsimp only
    cases s.contexts[call.context]? with
    | none => exact ⟨idle, rfl⟩
    | some caller =>
      rw [Option.bind_some]
      dsimp only
      cases caller.function.graph.statement? call.node with
      | none => exact ⟨idle, rfl⟩
      | some st =>
        cases st with
        | call name args =>
          exact ⟨fun level => ⟨a.program, caller.function.location call.node, level - 1, true⟩, rfl⟩
        | _ => exact ⟨idle, rfl⟩

/-- Binding the parameters leads through one assignment or reference for each of them. -/
theorem leads_bindAll (hI : Memory.Withstands limits (fun _ => True) E I) (a : Analysis)
    (s : AnalysisState) (c : Context)
    (hassign : ∀ x ∈ bindings s c, ∀ e, Leads limits (fun m => I m ∧ E m e)
      (Snapshot.assign (.ofVariable x.1.name) e true) fun _ => I)
    (hrefer : ∀ x ∈ bindings s c, ∀ source, x.1.byReference = true → x.2 = .read source →
      Leads limits I (Snapshot.bindReference (.ofVariable x.1.name) source) fun _ => I) :
    Leads limits I (a.bindParameters s c) fun _ => I := by
  obtain ⟨ev, heq⟩ := bindParameters_eq a s c
  rw [heq]
  apply Leads.get_bind
  · intro s t h
    simp only [h]
  · intro t _
    apply Leads.forM
    intro x hx
    unfold bindArgument
    split
    · next source hby hread => exact hrefer x hx source hby hread
    · exact (Evaluator.leads_evaluate hI _ _).bind fun e => hassign x hx e

theorem keeps_bindParameters (hI : Memory.Stable I) (hlevel : ∀ m, I m → m.level ≠ 0)
    (a : Analysis) (s : AnalysisState) (c : Context) :
    Keeps I (a.bindParameters s c) fun _ => True := by
  intro limits
  have hvariable (p : Path) (level : Nat) :=
    Locations.all_ofVariable Index.isOrdinary_ofVariable p level
  refine (leads_bindAll (hI.persistent.withstands limits) a s c
    (fun x _ e => (hI.upkeep limits).assign _ e true) fun x _ source _ _ => ?_).mono
    (fun _ h => h) fun _ _ h => ⟨h, trivial⟩
  exact (Keeps.mutate (Edit.keeps_bindReference hI.survives hlevel (fun _ _ => hvariable _ _)
    fun _ _ => hvariable source _) _).leads_same limits

/-- Takes the memory of a point over. -/
def takeIn (a : Analysis) (s : AnalysisState) (c : Context) (statement : Statement) :
    Intake → Transact Unit
  | .join sources => Snapshot.mutate .extend (Edit.extend sources)
  | .call caller => do
    Snapshot.mutate .extend (Edit.enterCall caller)
    a.bindParameters s c
  | .callReturn exit =>
    let result := match statement with
      | .callReturn result => result
      | _ => none
    Snapshot.mutate .mergeWithCall (Edit.leaveCall result [exit])

theorem take_eq (a : Analysis) (s : AnalysisState) (c : Context) (statement : Statement)
    (input : Input) : a.take s c statement input = a.takeIn s c statement input.intake := by
  cases input <;> rfl

/-- What happens to the memory in a visit before it is committed. -/
def transfer (a : Analysis) (s : AnalysisState) (c : Context) (p : Point) (statement : Statement)
    (target : Option CallTarget) (intake : Intake) : Transact Unit := do
  a.takeIn s c statement intake
  a.apply s c.function p target statement

theorem visit_eq (a : Analysis) (s : AnalysisState) (c : Context) (p : Point)
    (statement : Statement) (target : Option CallTarget) (input : Input) :
    a.visit s c p statement target input = (do
      Snapshot.start
      a.transfer s c p statement target input.intake
      Snapshot.commit) := by
  unfold visit transfer
  simp only [take_eq, bind_assoc]

variable {a : Analysis} {s : AnalysisState} {c : Context} {p : Point} {statement : Statement}
  {target : Option CallTarget} {x : Intake} {level : Nat}

/-- An intake that fits makes up a frame with the findings of all it is made from, whatever memory
it replaces. -/
theorem takeIn_frame (a : Analysis) (s : AnalysisState) (c : Context) (statement : Statement)
    (hx : x.Fits level) (hwf : ∀ m ∈ x.memories, m.WellFormed) (limits : Limits) :
    ∃ n, Memory.Frame level (fun f => ∃ m ∈ x.memories, m.Reports f) n ∧
      ∀ m, Yields (a.takeIn s c statement x) limits m () n := by
  cases x with
  | join sources =>
    obtain ⟨hne, hlevel⟩ := hx
    obtain ⟨d, hd, -, hrun⟩ := Edit.extend_run hne hlevel limits.simplify
    refine ⟨d.memory, ?_, fun m => Yields.mutate (hrun m)⟩
    rw [hd]
    exact Memory.frame_takenOver hne (fun m hm => ⟨hwf m hm, hlevel m hm⟩) _
  | call caller =>
    -- the frame is there as soon as it is entered; the parameters are bound in it
    have hentered : Memory.Frame (caller.level + 1) (fun f => ∃ m ∈ [caller], m.Reports f)
        { caller with level := caller.level + 1 } := by
      have hframe : Memory.Frame caller.level (fun f => ∃ m ∈ [caller], m.Reports f) caller := by
        refine ⟨hwf caller List.mem_cons_self, rfl, ?_⟩
        rintro f ⟨m, hm, hf⟩
        rwa [← List.mem_singleton.1 hm]
      exact Memory.frame_withLevel hframe _
    have hI := Memory.frame_stable (caller.level + 1) fun f => ∃ m ∈ [caller], m.Reports f
    have hlevel : ∀ m, Memory.Frame (caller.level + 1) (fun f => ∃ m ∈ [caller], m.Reports f) m →
        m.level ≠ 0 := fun m hm => by
      rw [hm.level_eq]
      omega
    obtain ⟨u, n, hy, hn, -⟩ := keeps_bindParameters hI hlevel a s c limits _ hentered
    have hl : caller.level + 1 = level := hx
    subst hl
    have hrun (m : Memory) : (Edit.enterCall caller).run { memory := m, limit := limits.simplify } =
        .ok () {
          memory := { caller with level := caller.level + 1 }
          limit := limits.simplify } := rfl
    exact ⟨n, hn, fun m => (Yields.mutate (hrun m)).bind hy⟩
  | callReturn exit =>
    have hsources : ∀ m ∈ [exit], m.WellFormed ∧ m.level = level + 1 := by
      intro m hm
      obtain rfl := List.mem_singleton.1 hm
      exact ⟨hwf m hm, hx⟩
    obtain ⟨d, hd, hrun⟩ := Edit.leaveCall_run (match statement with
      | .callReturn result => result
      | _ => none) (List.cons_ne_nil exit []) hsources limits.simplify
    exact ⟨d.memory, hd, fun m => Yields.mutate (hrun m)⟩

/-- An intake that makes up no frame is refused: it joins nothing or memory of several levels, or
there is no frame to close. -/
theorem takeIn_error (a : Analysis) (s : AnalysisState) (c : Context) (statement : Statement)
    (hx : ∀ level, ¬x.Fits level) {t : Snapshot} {b : Memory} (hb : t.phase = .open b) :
    ∃ e t', (a.takeIn s c statement x).run t = .error e t' := by
  have hrefuse {kind : Statistic} {edit : Edit Unit} {e : ContractError} {d : Draft}
      (h : edit.run { memory := t.memory, limit := t.limits.simplify } = .error e d) :
      ∃ e t', (Snapshot.mutate kind edit).run t = .error e t' := by
    obtain ⟨t', ht'⟩ := mutate_error kind hb h
    exact ⟨e, t', ht'⟩
  cases x with
  | join sources =>
    cases sources with
    | nil => exact hrefuse rfl
    | cons first rest =>
      -- the first memory sets the level that the others are checked against
      by_cases hsame : ∃ m ∈ rest, m.level ≠ first.level
      · obtain ⟨found, hrun⟩ := Edit.extend_run_mismatch hsame
          { memory := t.memory, limit := t.limits.simplify }
        exact hrefuse hrun
      · refine absurd ⟨List.cons_ne_nil first rest, ?_⟩ (hx first.level)
        intro m hm
        rcases List.mem_cons.1 hm with rfl | hm
        · rfl
        · exact Classical.not_not.1 fun h => hsame ⟨m, hm, h⟩
  | call caller => exact absurd rfl (hx (caller.level + 1))
  | callReturn exit =>
    cases hlevel : exit.level with
    | zero => exact hrefuse (Edit.leaveCall_run_noCallFrame _ hlevel _ _)
    | succ level => exact absurd hlevel (hx level)

/-- A statement keeps the frame that an intake makes up. -/
theorem transfer_frame (a : Analysis) (s : AnalysisState) (c : Context) (p : Point)
    (statement : Statement) (target : Option CallTarget) (hx : x.Fits level)
    (hwf : ∀ m ∈ x.memories, m.WellFormed) (limits : Limits) :
    ∃ n, Memory.Frame level (fun f => ∃ m ∈ x.memories, m.Reports f) n ∧
      ∀ m, Yields (a.transfer s c p statement target x) limits m () n := by
  obtain ⟨n, hn, hy⟩ := takeIn_frame a s c statement hx hwf limits
  obtain ⟨u, k, hy', hk, -⟩ := keeps_apply (Memory.frame_stable level fun f =>
    ∃ m ∈ x.memories, m.Reports f) a s c.function p target statement limits n hn
  exact ⟨k, hk, fun m => (hy m).bind hy'⟩

/-- A visit commits what the transfer yields. -/
theorem visit_run (input : Input) {previous : Snapshot} {n : Memory}
    (hphase : previous.phase = .resting)
    (hn : ∀ m, Yields (a.transfer s c p statement target input.intake) previous.limits m () n) :
    ∃ t, (a.visit s c p statement target input).run previous =
        .ok (decide (t.memory ≠ previous.memory)) t ∧
      t.limits = previous.limits ∧ t.phase = .resting ∧ t.commits = previous.commits + 1 ∧
      t.changed = decide (t.memory ≠ previous.memory) ∧
      t.memory = Memory.committed previous.limits t.commits previous.memory n := by
  rw [visit_eq]
  exact Snapshot.transaction_run hphase (hn previous.memory)

/-- A visit fails when its intake is refused. -/
theorem visit_error (a : Analysis) (s : AnalysisState) (c : Context) (p : Point)
    (statement : Statement) (target : Option CallTarget) {input : Input} {previous : Snapshot}
    (hphase : previous.phase = .resting)
    (hx : ∀ level, ¬input.intake.Fits level) :
    ∃ e t, (a.visit s c p statement target input).run previous = .error e t := by
  obtain ⟨e, t, hrun⟩ := takeIn_error a s c statement hx (b := previous.memory)
    (t := { previous with
    phase := .open previous.memory
    statistics := previous.statistics.record .startTransaction }) rfl
  refine ⟨e, t, ?_⟩
  rw [visit_eq, EStateM.run_bind, Snapshot.start_run hphase]
  dsimp only
  unfold transfer
  rw [EStateM.run_bind, EStateM.run_bind, hrun]

end Analysis
end ScriptMemory
