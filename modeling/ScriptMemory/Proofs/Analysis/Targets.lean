import ScriptMemory.Proofs.Analysis.Contexts

/-! The targets of calls. Once it is resolved, a call keeps its target, and the call-return node
paired with it sees the same one. -/
namespace ScriptMemory
open Std

namespace Program

theorem function?_of_main {p : Program} {f : Function} (h : p.main = .ok f) :
    p.function? mainName = some f := by
  unfold Program.main at h
  split at h
  · next f' hf' =>
    cases h
    exact hf'
  · cases h

end Program

/-- No statement both calls and returns. -/
theorem Statement.isCall_eq_false {st : Statement} (h : st.isCallReturn = true) :
    st.isCall = false := by
  cases st with
  | call name args => cases h
  | _ => rfl

namespace AnalysisState
variable {a : Analysis} {s s' r : AnalysisState} {call p : Point} {name : String} {c : Context}
  {target : CallTarget} {st : Statement} {id : ContextId}

/-- Every context runs a function of the program. -/
theorem Tree.function (hs : s.Tree a) (hc : s.contexts[id]? = some c) :
    ∃ name, a.program.function? name = some c.function := by
  cases hcaller : c.caller with
  | none =>
    obtain ⟨f, hf, hroot⟩ := hs.root
    have hid := hs.orphan id c hc hcaller
    rw [hid, hroot, Option.some.injEq] at hc
    subst hc
    exact ⟨_, Program.function?_of_main hf⟩
  | some call =>
    obtain ⟨_, name, _, -, -, hv⟩ := hs.entered id c call hc hcaller
    exact ⟨name, (Analysis.verdict_ok hv).1⟩

theorem Tree.isBuilt (hs : s.Tree a) (hp : a.program.IsBuilt) (hc : s.contexts[id]? = some c) :
    c.function.graph.IsBuilt := by
  obtain ⟨name, hname⟩ := hs.function hc
  exact hp name _ hname

/-- A context that is known calls the function `name` at `call`. -/
def HasCall (s : AnalysisState) (call : Point) (name : String) : Prop :=
  ∃ caller args, s.contexts[call.context]? = some caller ∧
    caller.function.graph.statement? call.node = some (.call name args)

theorem enter_ne (s : AnalysisState) (call : Point) (c : Context) :
    Analysis.enter s call c ≠ s := by
  intro h
  have hlength := congrArg (fun t : AnalysisState => t.contexts.length) h
  simp [Analysis.enter] at hlength

/-- A call that leaves the state as it is leads to the context entered from it, or to none. -/
theorem resolveCall_fixed (h : a.resolveCall s call name = (s, target)) :
    (∃ id, s.calls[call]? = some id ∧ target = .context id) ∨
      s.calls[call]? = none ∧ a.verdict s call name = .error target := by
  rw [Analysis.resolveCall_eq] at h
  cases hcall : s.calls[call]? with
  | some id =>
    rw [hcall] at h
    cases h
    exact .inl ⟨id, rfl, rfl⟩
  | none =>
    rw [hcall] at h
    cases hv : a.verdict s call name with
    | error t =>
      rw [hv] at h
      cases h
      exact .inr ⟨rfl, rfl⟩
    | ok c =>
      rw [hv] at h
      -- a call that may be entered is entered, and then the state is another one
      exact absurd (congrArg Prod.fst h) (enter_ne s call c)

/-- Resolving a call keeps the tree, and resolving it again changes nothing. -/
theorem resolveCall_spec (hs : s.Tree a) (hc : s.HasCall call name) :
    ∃ r target, a.resolveCall s call name = (r, target) ∧ r.Tree a ∧ s.Grows r ∧
      r.snapshots = s.snapshots ∧ r.worklist = s.worklist ∧
      a.resolveCall r call name = (r, target) := by
  rw [Analysis.resolveCall_eq]
  cases hcall : s.calls[call]? with
  | some id =>
    refine ⟨s, .context id, rfl, hs, .refl s, rfl, rfl, ?_⟩
    rw [Analysis.resolveCall_eq, hcall]
  | none =>
    cases hv : a.verdict s call name with
    | error target =>
      refine ⟨s, target, rfl, hs, .refl s, rfl, rfl, ?_⟩
      rw [Analysis.resolveCall_eq, hcall, hv]
    | ok c =>
      obtain ⟨caller, args, hctx, hst⟩ := hc
      refine ⟨Analysis.enter s call c, .context s.contexts.length, rfl,
        tree_enter hs hctx hst hcall hv, grows_enter s call c, rfl, rfl, ?_⟩
      have hentered : (Analysis.enter s call c).calls[call]? = some s.contexts.length :=
        ExtTreeMap.getElem?_insert_self
      rw [Analysis.resolveCall_eq, hentered]

/-- A resolved call keeps its target while contexts are found. -/
theorem resolveCall_grow (hs : s.Tree a) (hs' : s'.Tree a) (hg : s.Grows s')
    (hc : s.HasCall call name) (h : a.resolveCall s call name = (s, target)) :
    a.resolveCall s' call name = (s', target) := by
  rw [Analysis.resolveCall_eq]
  rcases resolveCall_fixed h with ⟨id, hid, rfl⟩ | ⟨hnone, hv⟩
  · obtain ⟨c, hctx, hcaller⟩ := (hs.calls call id).1 hid
    rw [(hs'.calls call id).2 ⟨c, hg _ _ hctx, hcaller⟩]
  · obtain ⟨caller, args, hctx, hst⟩ := hc
    have hv' : a.verdict s' call name = .error target := (verdict_eq hs hg hctx name).trans hv
    have hnone' : s'.calls[call]? = none := by
      -- a context entered from the call would have been allowed to
      cases hcall : s'.calls[call]? with
      | none => rfl
      | some id =>
        obtain ⟨c, hctx', hcaller⟩ := (hs'.calls call id).1 hcall
        obtain ⟨caller', name', args', hctx'', hst', hv''⟩ := hs'.entered id c call hctx' hcaller
        rw [hg _ _ hctx, Option.some.injEq] at hctx''
        subst hctx''
        rw [hst, Option.some.injEq] at hst'
        cases hst'
        rw [hv'] at hv''
        cases hv''
    rw [hnone', hv']

/-- The statement at `p` is the call `call`, or returns from it. -/
def IsAbout (f : Function) (p : Point) (st : Statement) (call : Point) : Prop :=
  call = p ∧ st.isCall = true ∨ st.isCallReturn = true ∧
    f.graph.callOf? p.node = some call.node ∧ call.context = p.context

theorem IsAbout.unique {f : Function} {call call' : Point} (h : IsAbout f p st call)
    (h' : IsAbout f p st call') : call = call' := by
  rcases h with ⟨rfl, hst⟩ | ⟨hst, hnode, hctx⟩
  · rcases h' with ⟨rfl, -⟩ | ⟨hst', -⟩
    · rfl
    · rw [Statement.isCall_eq_false hst'] at hst
      cases hst
  · rcases h' with ⟨-, hst'⟩ | ⟨-, hnode', hctx'⟩
    · rw [Statement.isCall_eq_false hst] at hst'
      cases hst'
    · have hn : call.node = call'.node := Option.some.inj (hnode.symm.trans hnode')
      have hx : call.context = call'.context := hctx.trans hctx'.symm
      cases call
      cases call'
      rw [Point.mk.injEq]
      exact ⟨hx, hn⟩

/-- Every statement of a built graph is about one call, or none. -/
theorem targetOf_cases {f : Function} (hf : f.graph.IsBuilt)
    (hst : f.graph.statement? p.node = some st) :
    (st.isCall = false ∧ st.isCallReturn = false ∧ ∀ s, a.targetOf s f p st = .ok (s, none)) ∨
      ∃ call name args, IsAbout f p st call ∧
        f.graph.statement? call.node = some (.call name args) ∧ call.context = p.context ∧
        ∀ s, a.targetOf s f p st =
          .ok ((a.resolveCall s call name).1, some (a.resolveCall s call name).2) := by
  cases st with
  | call name args =>
    exact .inr ⟨p, name, args, .inl ⟨rfl, rfl⟩, hst, rfl, fun s => rfl⟩
  | callReturn result =>
    obtain ⟨i, name, args, hi, hcall⟩ := hf.callOf?_isSome hst
    refine .inr ⟨⟨p.context, i⟩, name, args, .inr ⟨rfl, hi, rfl⟩, hcall, rfl, ?_⟩
    intro s
    have hpoint : callPoint f p = .ok ⟨p.context, i⟩ := by
      unfold callPoint
      rw [hi]
    unfold Analysis.targetOf
    rw [hpoint]
    dsimp only [bind, Except.bind]
    rw [hcall]
    rfl
  | _ => exact .inl ⟨rfl, rfl, fun s => rfl⟩

/-- Where looking for the target leaves the state as it is, so does resolving the call. -/
theorem resolveCall_of_targetOf {f : Function} {target : Option CallTarget}
    (htarget : ∀ s, a.targetOf s f p st =
      .ok ((a.resolveCall s call name).1, some (a.resolveCall s call name).2))
    (h : a.targetOf s f p st = .ok (s, target)) :
    ∃ t, target = some t ∧ a.resolveCall s call name = (s, t) := by
  have hfixed := Prod.mk.inj (Except.ok.inj ((htarget s).symm.trans h))
  exact ⟨_, hfixed.2.symm, Prod.ext hfixed.1 rfl⟩

end AnalysisState

namespace Analysis
variable {a : Analysis} {s s' : AnalysisState} {p : Point} {c : Context} {st : Statement}
  {target : Option CallTarget}

/-- A point with what the state knows of it; its target is resolved. -/
structure Site (a : Analysis) (s : AnalysisState) (p : Point) (c : Context) (st : Statement)
    (target : Option CallTarget) : Prop where
  context : s.contexts[p.context]? = some c
  statement : c.function.graph.statement? p.node = some st
  target : a.targetOf s c.function p st = .ok (s, target)

/-- The target of a known point can be resolved, once and for all. -/
theorem targetOf_spec (hp : a.program.IsBuilt) (hs : s.Tree a)
    (hc : s.contexts[p.context]? = some c)
    (hst : c.function.graph.statement? p.node = some st) :
    ∃ r target, a.targetOf s c.function p st = .ok (r, target) ∧ r.Tree a ∧ s.Grows r ∧
      r.snapshots = s.snapshots ∧ r.worklist = s.worklist ∧ a.Site r p c st target := by
  rcases AnalysisState.targetOf_cases (hs.isBuilt hp hc) hst with
    ⟨-, -, hnone⟩ | ⟨call, name, args, -, hcall, hctx, htarget⟩
  · exact ⟨s, none, hnone s, hs, .refl s, rfl, rfl, hc, hst, hnone s⟩
  · obtain ⟨r, target, hr, htree, hg, hsnap, hwork, hagain⟩ :=
      AnalysisState.resolveCall_spec hs ⟨c, args, by rw [hctx, hc], hcall⟩
    refine ⟨r, some target, ?_, htree, hg, hsnap, hwork, hg _ _ hc, hst, ?_⟩
    · rw [htarget, hr]
    · rw [htarget, hagain]

theorem Site.grow (h : a.Site s p c st target) (hp : a.program.IsBuilt) (hs : s.Tree a)
    (hs' : s'.Tree a) (hg : s.Grows s') : a.Site s' p c st target := by
  refine ⟨hg _ _ h.context, h.statement, ?_⟩
  rcases AnalysisState.targetOf_cases (a := a) (hs.isBuilt hp h.context) h.statement with
    ⟨-, -, hnone⟩ | ⟨call, name, args, -, hcall, hctx, htarget⟩
  · have ht : target = none :=
      (Prod.mk.inj (Except.ok.inj (h.target.symm.trans (hnone s)))).2
    rw [hnone, ht]
  · obtain ⟨t, rfl, hresolved⟩ := AnalysisState.resolveCall_of_targetOf htarget h.target
    rw [htarget, AnalysisState.resolveCall_grow hs hs' hg
      ⟨c, args, by rw [hctx, h.context], hcall⟩ hresolved]

/-- Two views of one point agree. -/
theorem Site.unique {c' : Context} {st' : Statement} {target' : Option CallTarget}
    (h : a.Site s p c st target) (h' : a.Site s p c' st' target') :
    c = c' ∧ st = st' ∧ target = target' := by
  have hc : c = c' := Option.some.inj (h.context.symm.trans h'.context)
  subst hc
  have hst : st = st' := Option.some.inj (h.statement.symm.trans h'.statement)
  subst hst
  exact ⟨rfl, rfl, (Prod.mk.inj (Except.ok.inj (h.target.symm.trans h'.target))).2⟩

/-- The target of a call or call-return node tells whether a context was entered from the call. -/
theorem Site.target_cases (h : a.Site s p c st target) (hp : a.program.IsBuilt) (hs : s.Tree a) :
    (st.isCall = false ∧ st.isCallReturn = false ∧ target = none) ∨
      ∃ call, AnalysisState.IsAbout c.function p st call ∧
        ((∃ id, target = some (.context id) ∧ s.calls[call]? = some id) ∨
          ∃ cause message callee, target = some (.approximated cause message callee) ∧
            s.calls[call]? = none) := by
  rcases AnalysisState.targetOf_cases (a := a) (hs.isBuilt hp h.context) h.statement with
    ⟨hcall, hreturn, hnone⟩ | ⟨call, name, args, habout, -, -, htarget⟩
  · exact .inl ⟨hcall, hreturn,
      (Prod.mk.inj (Except.ok.inj (h.target.symm.trans (hnone s)))).2⟩
  · obtain ⟨t, rfl, hresolved⟩ := AnalysisState.resolveCall_of_targetOf htarget h.target
    refine .inr ⟨call, habout, ?_⟩
    rcases AnalysisState.resolveCall_fixed hresolved with ⟨id, hid, rfl⟩ | ⟨hnone, hv⟩
    · exact .inl ⟨id, rfl, hid⟩
    · obtain ⟨cause, message, callee, rfl⟩ := verdict_error hv
      exact .inr ⟨cause, message, callee, rfl, hnone⟩

/-- What a call node leads to. -/
theorem Site.target_of_isCall (h : a.Site s p c st target) (hp : a.program.IsBuilt)
    (hs : s.Tree a) (hst : st.isCall = true) :
    (∃ id, target = some (.context id) ∧ s.calls[p]? = some id) ∨
      ∃ cause message callee, target = some (.approximated cause message callee) ∧
        s.calls[p]? = none := by
  rcases h.target_cases hp hs with ⟨hcall, -, -⟩ | ⟨call, habout, htarget⟩
  · rw [hst] at hcall
    cases hcall
  · rcases habout with ⟨rfl, -⟩ | ⟨hreturn, -⟩
    · exact htarget
    · rw [Statement.isCall_eq_false hreturn] at hst
      cases hst

/-- What the call leads to that a call-return node is paired with. -/
theorem Site.target_of_isCallReturn (h : a.Site s p c st target) (hp : a.program.IsBuilt)
    (hs : s.Tree a) (hst : st.isCallReturn = true) :
    ∃ node, c.function.graph.callOf? p.node = some node ∧
      ((∃ id, target = some (.context id) ∧ s.calls[Point.mk p.context node]? = some id) ∨
        ∃ cause message callee, target = some (.approximated cause message callee) ∧
          s.calls[Point.mk p.context node]? = none) := by
  rcases h.target_cases hp hs with ⟨-, hreturn, -⟩ | ⟨call, habout, htarget⟩
  · rw [hst] at hreturn
    cases hreturn
  · rcases habout with ⟨-, hcall⟩ | ⟨-, hcallOf, hctx⟩
    · rw [Statement.isCall_eq_false hst] at hcall
      cases hcall
    · refine ⟨call.node, hcallOf, ?_⟩
      rw [← hctx]
      exact htarget

/-- A context found later was not entered from a call that was resolved before. -/
theorem Site.callee_of_grows (h : a.Site s p c st target) (hp : a.program.IsBuilt) (hs : s.Tree a)
    (hs' : s'.Tree a) (hg : s.Grows s') {call : Point}
    (habout : AnalysisState.IsAbout c.function p st call) {id : ContextId} {callee : Context}
    (hc : s'.contexts[id]? = some callee) (hcaller : callee.caller = some call) :
    s.contexts[id]? = some callee := by
  have hid : s'.calls[call]? = some id := (hs'.calls call id).2 ⟨callee, hc, hcaller⟩
  have hnot : ¬(st.isCall = false ∧ st.isCallReturn = false) := by
    rintro ⟨hcall, hreturn⟩
    rcases habout with ⟨-, hst⟩ | ⟨hst, -⟩
    · rw [hcall] at hst
      cases hst
    · rw [hreturn] at hst
      cases hst
  rcases h.target_cases hp hs with ⟨hcall, hreturn, -⟩ | ⟨call', habout', htarget⟩
  · exact absurd ⟨hcall, hreturn⟩ hnot
  obtain rfl := habout.unique habout'
  rcases htarget with ⟨id', -, hid'⟩ | ⟨cause, message, f, rfl, -⟩
  · -- the call was entered before, and it is entered only once
    obtain ⟨callee', hc', hcaller'⟩ := (hs.calls call id').1 hid'
    have hid'' : s'.calls[call]? = some id' :=
      (hs'.calls call id').2 ⟨callee', hg _ _ hc', hcaller'⟩
    obtain rfl : id = id' := Option.some.inj (hid.symm.trans hid'')
    rw [hg _ _ hc'] at hc
    cases hc
    exact hc'
  · -- the call is approximated now as it was before
    rcases (h.grow hp hs hs' hg).target_cases hp hs' with ⟨hcall, hreturn, -⟩ | ⟨call', habout', ht⟩
    · exact absurd ⟨hcall, hreturn⟩ hnot
    obtain rfl := habout.unique habout'
    rcases ht with ⟨_, ht, -⟩ | ⟨_, _, _, -, hnone⟩
    · cases ht
    · rw [hid] at hnone
      cases hnone

end Analysis
end ScriptMemory
