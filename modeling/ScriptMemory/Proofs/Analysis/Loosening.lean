import ScriptMemory.Proofs.Analysis.Completeness
import ScriptMemory.Proofs.Memory.Loosening

/-! Aliases become looser. What a visit does to the aliases depends on nothing but the aliases that
it takes in, and it keeps their order: from looser memory it makes looser memory. So where a point
is visited again, and all that it sees has become looser since, it becomes looser itself. -/
namespace ScriptMemory
open Std Transact

namespace Memory
variable {limits : Limits} {m n m' n' o : Memory} {st : Statement} {k : Nat}
  {y : Parameter × Expression} {l : List (Parameter × Expression)}

/-- The aliases of `n` are those of `m` after a statement. -/
def Relinks (st : Statement) (m n : Memory) : Prop :=
  match st with
  | .assignAlias target source =>
    m.Relinked (target.indexAt m.level) (source.indexAt m.level) n
  | .unset p =>
    if p.isVariable then ∀ i, n.aliases i = (m.discard fun j => j = p.indexAt m.level).aliases i
    else ∀ i, n.aliases i = m.aliases i
  | _ => ∀ i, n.aliases i = m.aliases i

theorem Relinks.looser (hb : Relinks st m n) (hb' : Relinks st m' n') (hl : m'.level = m.level)
    (h : n.LooserUpTo m m') : n.Looser n' := by
  unfold Relinks at hb hb'
  cases st with
  | assignAlias target source =>
    dsimp only at hb hb'
    rw [hl] at hb'
    exact hb.looser hb' h
  | unset p =>
    dsimp only at hb hb'
    rw [hl] at hb'
    split at hb
    · next hp =>
      rw [if_pos hp] at hb'
      exact h.discard hb hb'
    · next hp =>
      rw [if_neg hp] at hb'
      exact h.of_aliases hb hb'
  | _ => exact h.of_aliases hb hb'

/-- Whatever makes no reference and unsets no variable keeps all aliases. -/
theorem steady_aliases (limits : Limits) (m : Memory) : Steady limits (fun _ _ => False)
    (fun p => p.isVariable = false) fun n => ∀ i, n.aliases i = m.aliases i where
  renewed := fun _ h hr _ i => (hr.aliases_eq i).trans (h i)
  store := by
    intro d p level e arrays force hd _ h he i
    obtain ⟨hresolved, k, hready⟩ := Draft.ready_resolve hd.toNeat p level
    have hstored := Draft.renewed_storeAll hresolved.neat hready he force
    exact (hstored.aliases_eq i).trans ((hresolved.aliases_eq i).trans (h i))
  refers := False.elim
  bound := False.elim
  unset := by
    intro m p hp hv
    rw [hp] at hv
    cases hv

/-- The aliases of `n` are those of `m` after a parameter of a frame was bound to its argument in
the frame below, at level `k`. -/
def Binds (k : Nat) (y : Parameter × Expression) (m n : Memory) : Prop :=
  match y.1.byReference, y.2 with
  | true, .read source =>
    m.Relinked ((Path.ofVariable y.1.name).indexAt (k + 1)) (source.indexAt k) n
  | _, _ => ∀ i, n.aliases i = m.aliases i

theorem binds_iff_of_reference {source : Path} (hby : y.1.byReference = true)
    (hread : y.2 = .read source) : Binds k y m n ↔
      m.Relinked ((Path.ofVariable y.1.name).indexAt (k + 1)) (source.indexAt k) n := by
  unfold Binds
  rw [hby, hread]

theorem binds_iff_of_value (h : ∀ source, y.1.byReference = true → y.2 = .read source → False) :
    Binds k y m n ↔ ∀ i, n.aliases i = m.aliases i := by
  unfold Binds
  split
  · next source hby hread => exact (h source hby hread).elim
  · exact Iff.rfl

theorem Binds.looser (hb : Binds k y m n) (hb' : Binds k y m' n') (h : m.Looser m') :
    n.Looser n' := by
  by_cases href : ∃ source, y.1.byReference = true ∧ y.2 = .read source
  · obtain ⟨source, hby, hread⟩ := href
    rw [binds_iff_of_reference hby hread] at hb hb'
    exact hb.looser hb' (h.upTo n)
  · rw [binds_iff_of_value fun source hby hread => href ⟨source, hby, hread⟩] at hb hb'
    exact (h.upTo n).of_aliases hb hb'

/-- The aliases of `n` are those of `m` after all the parameters were bound, one after another. -/
inductive BindsAll (k : Nat) : List (Parameter × Expression) → Memory → Memory → Prop
  | nil (m : Memory) : BindsAll k [] m m
  | cons {y : Parameter × Expression} {l : List (Parameter × Expression)} {m n o : Memory}
      (hy : Binds k y m o) (hl : BindsAll k l o n) : BindsAll k (y :: l) m n

theorem BindsAll.looser (hb : BindsAll k l m n) (hb' : BindsAll k l m' n') (h : m.Looser m') :
    n.Looser n' := by
  induction hb generalizing m' with
  | nil m =>
    cases hb'
    exact h
  | cons hy _ ih =>
    cases hb' with
    | cons hy' hl' => exact ih hl' (hy.looser hy' h)

end Memory

namespace Analysis
open Memory
variable {a : Analysis} {s : AnalysisState} {p : Point} {c : Context} {st : Statement}
  {target : Option CallTarget} {m n n' k k' before before' : Memory} {x x' : Intake}
  {view view' : Point → Option Memory} {t t' : Snapshot} {level : Nat} {limits : Limits}

theorem exists_relinks_of_steady (h : m.Complete) (f : Function)
    (hR : ∀ path source, st ≠ .assignAlias path source)
    (hU : ∀ path, st = .unset path → path.isVariable = false) :
    ∃ n, Yields (a.apply s f p target st) limits m () n ∧ n.level = m.level ∧
      ∀ i, n.aliases i = m.aliases i := by
  obtain ⟨u, n, hy, hn⟩ := leads_apply ((steady_aliases limits m).upkeep m.level) a s f p target st
    hR hU m ⟨h, rfl, fun _ => rfl⟩
  exact ⟨n, hy, hn.level_eq, hn.kept⟩

/-- A statement that refers to variables only changes the aliases as it should. -/
theorem exists_relinks (h : m.Complete) (f : Function)
    (hR : ∀ path source, st = .assignAlias path source →
      path.isVariable = true ∧ source.isVariable = true) :
    ∃ n, Yields (a.apply s f p target st) limits m () n ∧ n.level = m.level ∧ Relinks st m n := by
  let d : Draft := { memory := m, limit := limits.simplify }
  cases st with
  | assignAlias path source =>
    obtain ⟨hpath, hsource⟩ := hR path source rfl
    have hreferring := Draft.renewed_referring (d := d) h.toNeat
      (Index.isVariable_indexAt source m.level)
    obtain ⟨d', hrun, hbound⟩ := Draft.exists_bound (d := d) h hpath hsource m.level m.level
    refine ⟨d'.memory, ?_, hbound.level_eq.trans hreferring.level_eq, ?_⟩
    · have halias := (Edit.assignAlias_run d path source).trans hrun
      exact Yields.get_bind (fun _ _ _ => rfl) (Yields.mutate halias)
    · exact hbound.relinked.congr (fun i => (hreferring.aliases_eq i).symm) fun _ => rfl
  | unset path =>
    cases hpath : path.isVariable with
    | true =>
      refine ⟨(d.unset path).memory, ?_, ?_, ?_⟩
      · exact Yields.get_bind (fun _ _ _ => rfl) (Yields.mutate rfl)
      · rw [unset_variable d hpath]
        rfl
      · rw [Relinks, if_pos hpath, unset_variable d hpath]
        exact h.aliases_remove _
    | false =>
      have hreference : ∀ target source, Statement.unset path ≠ .assignAlias target source :=
        fun _ _ => (nomatch ·)
      obtain ⟨n, hy, hlevel, hn⟩ := exists_relinks_of_steady h f hreference fun q hq =>
        Statement.unset.inj hq ▸ hpath
      refine ⟨n, hy, hlevel, ?_⟩
      rw [Relinks, if_neg (by rw [hpath]; exact Bool.false_ne_true)]
      exact hn
  | _ => exact exists_relinks_of_steady h f (fun _ _ => (nomatch ·)) fun _ => (nomatch ·)

theorem exists_binds (limits : Limits) (ev : Evaluator) {y : Parameter × Expression}
    (hy : ∀ source, y.1.byReference = true → y.2 = .read source → source.isVariable = true)
    (h : m.Complete) {level : Nat} (hlevel : m.level = level + 1) :
    ∃ n, Yields (bindArgument ev y) limits m () n ∧ n.Complete ∧ n.level = level + 1 ∧
      Binds level y m n := by
  have htarget : (Path.ofVariable y.1.name).isVariable = true := rfl
  unfold bindArgument
  split
  · next source hby hread =>
    let d : Draft := { memory := m, limit := limits.simplify }
    have hsource := hy source hby hread
    have hreferring := Draft.renewed_referring (d := d) h.toNeat
      (Index.isVariable_indexAt source level)
    obtain ⟨d', hrun, hbound⟩ := Draft.exists_bound (d := d) h htarget hsource (level + 1) level
    refine ⟨d'.memory, ?_, hbound.complete, ?_, ?_⟩
    · exact Yields.mutate ((Edit.bindReference_run hlevel _ source).trans hrun)
    · exact (hbound.level_eq.trans hreferring.level_eq).trans hlevel
    · rw [binds_iff_of_reference hby hread]
      exact hbound.relinked.congr (fun i => (hreferring.aliases_eq i).symm) fun _ => rfl
  · next hvalue =>
    have hJ := steady_aliases limits m
    have hassign := (Evaluator.leads_evaluate (hJ.withstands (level + 1)) ev y.2).bind
      fun e => hJ.leads_assign (level + 1) (.ofVariable y.1.name) e true
    obtain ⟨u, n, hyields, hn⟩ := hassign m ⟨h, hlevel, fun _ => rfl⟩
    exact ⟨n, hyields, hn.toComplete, hn.level_eq, (binds_iff_of_value hvalue).2 hn.kept⟩

/-- Parameters are bound one after another. -/
theorem exists_bindsAll (limits : Limits) (ev : Evaluator) {l : List (Parameter × Expression)}
    (hl : ∀ y ∈ l, ∀ source, y.1.byReference = true → y.2 = .read source →
      source.isVariable = true) (h : m.Complete) {level : Nat} (hlevel : m.level = level + 1) :
    ∃ n, Yields (l.forM (bindArgument ev)) limits m () n ∧ n.Complete ∧ n.level = level + 1 ∧
      BindsAll level l m n := by
  induction l generalizing m with
  | nil => exact ⟨m, Yields.pure limits m (), h, hlevel, .nil m⟩
  | cons y l ih =>
    obtain ⟨o, hyields, ho, holevel, hbinds⟩ :=
      exists_binds limits ev (hl y List.mem_cons_self) h hlevel
    obtain ⟨n, hrest, hn, hnlevel, hall⟩ :=
      ih (fun z hz => hl z (List.mem_cons_of_mem y hz)) ho holevel
    exact ⟨n, hyields.bind hrest, hn, hnlevel, .cons hbinds hall⟩

/-- The aliases of `n` are those that a context takes in. -/
def TakenIn (a : Analysis) (s : AnalysisState) (c : Context) (x : Intake) (n : Memory) : Prop :=
  match x with
  | .join sources => n = takenOver a.config.limits.simplify sources
  | .call caller =>
    BindsAll caller.level (bindings s c) { caller with level := caller.level + 1 } n
  | .callReturn exit => ∀ i, n.aliases i = (exit.discard (·.isRootedAtLevel exit.level)).aliases i

theorem exists_takenIn (hR : a.program.Refers fun target source =>
      target.isVariable = true ∧ source.isVariable = true) (hs : s.Tree a) {id : ContextId}
    (hc : s.contexts[id]? = some c) (st : Statement) (hx : x.Fits level)
    (h : ∀ m ∈ x.memories, m.Complete) :
    ∃ n, (∀ m, Yields (a.takeIn s c st x) a.config.limits m () n) ∧ n.Complete ∧
      n.level = level ∧ a.TakenIn s c x n := by
  cases x with
  | join sources =>
    obtain ⟨hne, hlevel⟩ := hx
    obtain ⟨d, hd, -, hrun⟩ := Edit.extend_run hne hlevel a.config.limits.simplify
    refine ⟨d.memory, fun m => Yields.mutate (hrun m), ?_, ?_, hd⟩
    · rw [hd]
      exact complete_takenOver hne h _
    · rw [hd]
      exact level_takenOver hne hlevel _
  | call caller =>
    obtain rfl : caller.level + 1 = level := hx
    obtain ⟨ev, heq⟩ := bindParameters_eq a s c
    have hcaller : ({ caller with level := caller.level + 1 } : Memory).Complete :=
      (h caller List.mem_cons_self).withLevel _
    obtain ⟨n, hbind, hn, hlevel, hall⟩ := exists_bindsAll a.config.limits
      (ev (caller.level + 1)) (l := bindings s c)
      (fun y hy source hby hread => (refers_bindings hR hs hc y hy source hby hread).2) hcaller rfl
    have hrun (m : Memory) : (Edit.enterCall caller).run
        { memory := m, limit := a.config.limits.simplify } = .ok () {
          memory := { caller with level := caller.level + 1 }
          limit := a.config.limits.simplify } := rfl
    refine ⟨n, fun m => (Yields.mutate (hrun m)).bind ?_, hn, hlevel, hall⟩
    rw [heq]
    exact Yields.get_bind (fun s t h => by simp only [h]) hbind
  | callReturn exit =>
    have hlevel : exit.level = level + 1 := hx
    have hexit := h exit List.mem_cons_self
    let d : Draft := { memory := exit, limit := a.config.limits.simplify }
    have hextend (m : Memory) : (Edit.extend [exit]).run
        { memory := m, limit := a.config.limits.simplify } = .ok () d := rfl
    have hclosed := Complete.close (d := d) hexit level
    have hstored := Draft.renewed_storeResult hclosed.toNeat
      (storable_returned (d := d) hexit.toTidy level) level
    refine ⟨_, fun m => Yields.mutate (Edit.leaveCall_eq _ (hextend m) hlevel),
      (hstored _).complete hclosed, (hstored _).level_eq, ?_⟩
    intro i
    rw [(hstored _).aliases_eq]
    change (exit.discard (·.isRootedAtLevel (level + 1))).aliases i = _
    rw [← hlevel]

end Analysis
end ScriptMemory
