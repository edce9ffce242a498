import ScriptMemory.Proofs.Analysis.Fixpoint
import ScriptMemory.Proofs.Analysis.Contract

/-! The tree of contexts, in whatever state the driver gets to. A context was entered from one call
of an older context, and its function is none of those that are running already; a call is
approximated exactly when it could not be entered so. -/
namespace ScriptMemory
open Std

/-- The call is not analysed. -/
def CallTarget.IsApproximated : CallTarget → Prop
  | context _ => False
  | approximated .. => True

namespace AnalysisState
variable {a : Analysis} {s : AnalysisState} {call : Point} {name : String} {c caller : Context}
  {id : ContextId} {args : List Expression}

/-- The contexts that are running where `id` is: that one and its callers, innermost first. -/
def running (s : AnalysisState) (id : ContextId) : List Context :=
  s.chain s.contexts.length id

/-- The call cannot be entered: its function is not defined, or running already, or it would be
nested too deep. -/
def Barred (a : Analysis) (s : AnalysisState) (call : Point) (depth : Nat) (name : String) : Prop :=
  a.program.function? name = none ∨ (∃ c ∈ s.running call.context, c.function.name = name) ∨
    a.config.maxCallDepth < depth + 1

/-- A new context can be entered from a call exactly if nothing bars it. -/
theorem verdict_isOk_iff (hctx : s.contexts[call.context]? = some caller) :
    (∃ c, a.verdict s call name = .ok c) ↔ ¬Barred a s call caller.depth name := by
  obtain ⟨rest, hchain⟩ := chain_eq_cons hctx
  have hany :
      (s.chain s.contexts.length call.context).any (fun c => c.function.name = name) = true ↔
      ∃ c ∈ s.running call.context, c.function.name = name := by
    simp only [List.any_eq_true, decide_eq_true_eq, running]
  unfold Analysis.verdict Barred
  cases hf : a.program.function? name with
  | none => simp
  | some f =>
    dsimp only
    rw [← hany]
    split
    · next hrunning => simp [hrunning]
    · next hfree =>
      rw [hchain] at hfree ⊢
      simp only [List.head?_cons, Option.map_some, Option.getD_some]
      by_cases hdeep : a.config.maxCallDepth < caller.depth + 1
      · simp [hdeep]
      · simp [hdeep, Bool.eq_false_iff.2 hfree]

theorem running_eq_cons (hs : s.Tree a) (hc : s.contexts[id]? = some c)
    (hcaller : c.caller = some call) : s.running id = c :: s.running call.context := by
  obtain ⟨caller, _, _, hctx, -⟩ := hs.entered id c call hc hcaller
  have holder := hs.older id c call hc hcaller
  obtain ⟨n, hn⟩ := Nat.exists_eq_succ_of_ne_zero
    (Nat.ne_of_gt (Nat.zero_lt_of_lt (lt_length hc)))
  have hid : id < n + 1 := by
    rw [← Nat.succ_eq_add_one, ← hn]
    exact lt_length hc
  have hrest : s.chain n call.context = s.running call.context :=
    chain_eq hs (.refl s) hctx (Nat.lt_of_lt_of_le holder (Nat.le_of_lt_succ hid)) (lt_length hctx)
  have hunfold : s.running id = c :: ((c.caller.map fun p => s.chain n p.context).getD []) := by
    unfold running
    rw [hn, chain, hc]
  rw [hunfold, hcaller, Option.map_some, Option.getD_some, hrest]

theorem running_script (hs : s.Tree a) {main : Function} (hmain : a.program.main = .ok main) :
    s.running .main = [⟨main, none, 0⟩] := by
  obtain ⟨f, hf, hroot⟩ := hs.root
  obtain rfl : f = main := Except.ok.inj (hf.symm.trans hmain)
  obtain ⟨n, hn⟩ := Nat.exists_eq_succ_of_ne_zero
    (Nat.ne_of_gt (Nat.zero_lt_of_lt (lt_length hroot)))
  unfold running
  rw [hn, chain, hroot]
  rfl

/-- The callers of a context end with the script, and no function runs twice among them. -/
theorem running_spec (hs : s.Tree a) (hn : a.program.IsNamed) {main : Function}
    (hmain : a.program.main = .ok main) (hc : s.contexts[id]? = some c) :
    (s.running id).length = c.depth + 1 ∧ (s.running id).getLast? = some ⟨main, none, 0⟩ ∧
      ((s.running id).map (·.function.name)).Nodup := by
  -- by induction on the age of the context; its caller is older
  induction id using Nat.strongRecOn generalizing c with
  | ind id ih =>
    cases hcaller : c.caller with
    | none =>
      obtain rfl := hs.orphan id c hc hcaller
      obtain ⟨f, hf, hroot⟩ := hs.root
      obtain rfl : c = ⟨f, none, 0⟩ := Option.some.inj (hc.symm.trans hroot)
      rw [running_script hs hmain]
      exact ⟨rfl, rfl, by simp⟩
    | some call =>
      obtain ⟨caller, name, args, hctx, -, hv⟩ := hs.entered id c call hc hcaller
      obtain ⟨hlength, hlast, hnodup⟩ := ih call.context (hs.older id c call hc hcaller) hctx
      have hname : c.function.name = name := hn _ _ (Analysis.verdict_ok hv).1
      have hdepth := depth_of_verdict hctx hv
      have hfree : ∀ x ∈ s.running call.context, x.function.name ≠ name := fun x hx heq =>
        (verdict_isOk_iff hctx).1 ⟨c, hv⟩ (.inr (.inl ⟨x, hx, heq⟩))
      rw [running_eq_cons hs hc hcaller]
      refine ⟨by rw [List.length_cons, hlength, hdepth], ?_, ?_⟩
      · rw [List.getLast?_cons, hlast]
        rfl
      · rw [List.map_cons, List.nodup_cons, hname]
        refine ⟨fun hmem => ?_, hnodup⟩
        obtain ⟨x, hx, heq⟩ := List.mem_map.1 hmem
        exact hfree x hx heq

/-- Of the calls that are known those are approximated that are barred, and no others, whether a
context was entered from the call before or not. -/
theorem isApproximated_resolveCall_iff (hs : s.Tree a)
    (hctx : s.contexts[call.context]? = some caller)
    (hst : caller.function.graph.statement? call.node = some (.call name args)) :
    (a.resolveCall s call name).2.IsApproximated ↔ Barred a s call caller.depth name := by
  rw [Analysis.resolveCall_eq]
  cases hcall : s.calls[call]? with
  | some id =>
    -- the context was allowed when it was entered, and its callers are the same since then
    obtain ⟨c, hc, hcaller⟩ := (hs.calls call id).1 hcall
    obtain ⟨caller', name', args', hctx', hst', hv⟩ := hs.entered id c call hc hcaller
    obtain rfl : caller = caller' := Option.some.inj (hctx.symm.trans hctx')
    cases Option.some.inj (hst.symm.trans hst')
    exact iff_of_false False.elim ((verdict_isOk_iff hctx).1 ⟨c, hv⟩)
  | none =>
    have hok : (∃ c, a.verdict s call name = .ok c) ↔ ¬Barred a s call caller.depth name :=
      verdict_isOk_iff hctx
    cases hv : a.verdict s call name with
    | ok c => exact iff_of_false False.elim (hok.1 ⟨c, hv⟩)
    | error target =>
      obtain ⟨cause, message, callee, rfl⟩ := Analysis.verdict_error hv
      refine iff_of_true trivial (Classical.not_not.1 fun hfree => ?_)
      obtain ⟨c, hc⟩ := hok.2 hfree
      rw [hv] at hc
      cases hc

end AnalysisState

namespace Analysis
open AnalysisState
variable {a : Analysis} {s s' : AnalysisState} {p : Point} {main : Function}

/-- A step adds what the tree allows. -/
theorem tree_step (hp : a.program.IsBuilt) (hs : s.Tree a) (h : a.step s p = .ok s') :
    s'.Tree a := by
  unfold step at h
  split at h
  · next c hc =>
    split at h
    · next st hst =>
      obtain ⟨r, target, htarget, hr, -⟩ := targetOf_spec hp hs hc hst
      rw [htarget] at h
      dsimp only [bind, Except.bind] at h
      split at h
      · cases h
      · split at h
        · cases h
          exact hr
        · split at h
          · cases h
          · split at h
            · cases h
              exact hr.congr rfl rfl
            · cases h
              exact hr.congr rfl rfl
    · cases h
  · cases h
    exact hs

theorem Steps.tree {k : Nat} (h : a.Steps k s s') (hp : a.program.IsBuilt) (hs : s.Tree a) :
    s'.Tree a := by
  induction h with
  | refl s => exact hs
  | @step _ s _ _ p w hpop hstep _ ih =>
    exact ih (tree_step (s := { s with worklist := w }) hp (hs.congr rfl rfl) hstep)

/-- What the contexts of a state are like. -/
structure CallTree (a : Analysis) (main : Function) (s : AnalysisState) : Prop where
  script : s.contexts[ContextId.main]? = some ⟨main, none, 0⟩
  /-- Any other context was entered from a call of its function in an older context. -/
  entered : ∀ (id : ContextId) c, s.contexts[id]? = some c → id ≠ .main →
    ∃ call caller args, c.caller = some call ∧ call.context < id ∧
      s.contexts[call.context]? = some caller ∧
      caller.function.graph.statement? call.node = some (.call c.function.name args) ∧
      a.program.function? c.function.name = some c.function ∧
      c.depth = caller.depth + 1 ∧ c.depth ≤ a.config.maxCallDepth
  distinct : ∀ (i j : ContextId) c d call, s.contexts[i]? = some c → s.contexts[j]? = some d →
    c.caller = some call → d.caller = some call → i = j
  /-- The walk from caller to caller ends, at the script, after as many calls as the context is
  deep. -/
  walk : ∀ (id : ContextId) c, s.contexts[id]? = some c →
    (s.running id).length = c.depth + 1 ∧ (s.running id).getLast? = some ⟨main, none, 0⟩
  nodup : ∀ (id : ContextId) c, s.contexts[id]? = some c →
    ((s.running id).map (·.function.name)).Nodup
  /-- The call of a call or call-return node is approximated exactly if it cannot be entered. -/
  approximated_iff : ∀ p c st call, s.contexts[p.context]? = some c →
    c.function.graph.statement? p.node = some st → IsAbout c.function p st call →
    ∃ name args r target, c.function.graph.statement? call.node = some (.call name args) ∧
      a.targetOf s c.function p st = .ok (r, some target) ∧
      (target.IsApproximated ↔ Barred a s call c.depth name)

/-- In every state that the driver gets to the contexts form a tree of calls. -/
theorem callTree_of_steps (hp : a.program.IsBuilt) (hn : a.program.IsNamed)
    (hmain : a.program.main = .ok main) {queued : Worklist} {k : Nat}
    (h : a.Steps k (initialState main queued) s) : a.CallTree main s := by
  have hs := h.tree hp (tree_initialState hmain queued)
  obtain ⟨f, hf, hroot⟩ := hs.root
  obtain rfl : f = main := Except.ok.inj (hf.symm.trans hmain)
  refine ⟨hroot, ?_, ?_, ?_, ?_, ?_⟩
  · intro id c hc hne
    obtain ⟨call, hcaller⟩ := Option.ne_none_iff_exists'.1 fun hnone =>
      hne (hs.orphan id c hc hnone)
    obtain ⟨caller, name, args, hctx, hst, hv⟩ := hs.entered id c call hc hcaller
    have hfunction := (verdict_ok hv).1
    have hname : c.function.name = name := hn _ _ hfunction
    subst hname
    have hdepth := depth_of_verdict hctx hv
    refine ⟨call, caller, args, hcaller, hs.older id c call hc hcaller, hctx, hst, hfunction,
      hdepth, ?_⟩
    have hfree := (verdict_isOk_iff hctx).1 ⟨c, hv⟩
    rw [hdepth]
    exact Nat.le_of_not_lt fun hlt => hfree (.inr (.inr hlt))
  · intro i j c d call hc hd hcaller hcaller'
    have hi := (hs.calls call i).2 ⟨c, hc, hcaller⟩
    have hj := (hs.calls call j).2 ⟨d, hd, hcaller'⟩
    exact Option.some.inj (hi.symm.trans hj)
  · intro id c hc
    obtain ⟨hlength, hlast, -⟩ := running_spec hs hn hmain hc
    exact ⟨hlength, hlast⟩
  · intro id c hc
    exact (running_spec hs hn hmain hc).2.2
  · intro p c st call hc hst habout
    rcases targetOf_cases (a := a) (hs.isBuilt hp hc) hst with
      ⟨hcall, hreturn, -⟩ | ⟨call', name, args, habout', hst', hctx, htarget⟩
    · rcases habout with ⟨-, hyes⟩ | ⟨hyes, -⟩
      · rw [hcall] at hyes
        cases hyes
      · rw [hreturn] at hyes
        cases hyes
    · obtain rfl := habout.unique habout'
      have hc' : s.contexts[call.context]? = some c := by rw [hctx, hc]
      exact ⟨name, args, _, _, hst', htarget s, isApproximated_resolveCall_iff hs hc' hst'⟩

set_option maxRecDepth 20000 in
/-- The first step of a script that calls a function adds the context of the call. -/
theorem callTree_of_steps_call : ∃ main s, Sample.loop.program.main = .ok main ∧
    Sample.loop.Steps 1 (initialState main .empty) s ∧ s.contexts.length = 2 ∧
    Sample.loop.CallTree main s := by
  let main : Function := ⟨"main", [], Sample.calling "copy" .any⟩
  have hmain : Sample.loop.program.main = .ok main := Program.main_withFunction _ rfl
  let start := initialState main .empty
  let rest : Worklist := ⟨[], start.worklist.waiting.erase ⟨.main, 0⟩⟩
  have hpop : start.worklist.pop? = some (⟨.main, 0⟩, rest) := rfl
  have hlength : ((Sample.loop.step { start with worklist := rest } ⟨.main, 0⟩).toOption.map
      fun s => s.contexts.length) = some 2 := by
    decide +kernel
  have hnamed : Sample.loop.program.IsNamed :=
    (Program.isNamed_empty.withFunction _).withFunction _
  cases hstep : Sample.loop.step { start with worklist := rest } ⟨.main, 0⟩ with
  | error e =>
    rw [hstep] at hlength
    cases hlength
  | ok s =>
    rw [hstep] at hlength
    have hsteps : Sample.loop.Steps 1 start s := .step hpop hstep (.refl s)
    exact ⟨main, s, hmain, hsteps, Option.some.inj hlength,
      callTree_of_steps Sample.isBuilt_loop hnamed hmain hsteps⟩

end Analysis
end ScriptMemory
