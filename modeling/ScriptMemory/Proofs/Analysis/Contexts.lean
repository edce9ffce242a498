import ScriptMemory.Analysis
import ScriptMemory.Proofs.Graph

/-! The contexts of an analysis form a tree: every context but that of the script was entered from
one call of an older context. What a call leads to depends on its callers only, so it stays the
same while more contexts are found. -/
namespace ScriptMemory
open Std

namespace Analysis

/-- What a call leads to that no context was entered from yet: a context that can be added, or the
approximation of the call. -/
def verdict (a : Analysis) (s : AnalysisState) (call : Point) (name : String) :
    Except CallTarget Context :=
  match a.program.function? name with
  | none => .error (.approximated .unknownFunction ("call to undefined function " ++ name) none)
  | some f =>
    let chain := s.chain s.contexts.length call.context
    let depth := ((chain.head?.map (·.depth)).getD 0) + 1
    if chain.any (·.function.name = name) then
      .error (.approximated .recursiveCall ("recursive call to " ++ name) (some f))
    else if depth > a.config.maxCallDepth then
      .error (.approximated .callDepthExceeded
        ("call to " ++ name ++ " nested deeper than " ++ toString a.config.maxCallDepth)
        (some f))
    else .ok { function := f, caller := some call, depth }

/-- The state with one more context, which was entered from `call`. -/
def enter (s : AnalysisState) (call : Point) (c : Context) : AnalysisState :=
  { s with
    contexts := s.contexts ++ [c]
    calls := s.calls.insert call s.contexts.length }

theorem resolveCall_eq (a : Analysis) (s : AnalysisState) (call : Point) (name : String) :
    a.resolveCall s call name = match s.calls[call]? with
      | some id => (s, .context id)
      | none => match a.verdict s call name with
        | .error target => (s, target)
        | .ok c => (enter s call c, .context s.contexts.length) := by
  unfold resolveCall verdict
  cases s.calls[call]? with
  | some id => rfl
  | none =>
    cases a.program.function? name with
    | none => rfl
    | some f =>
      dsimp only
      split
      · rfl
      · split <;> rfl

/-- What is known of a context that a call may add. -/
theorem verdict_ok {a : Analysis} {s : AnalysisState} {call : Point} {name : String} {c : Context}
    (h : a.verdict s call name = .ok c) :
    a.program.function? name = some c.function ∧ c.caller = some call ∧
      c.depth = (((s.chain s.contexts.length call.context).head?.map (·.depth)).getD 0) + 1 := by
  unfold verdict at h
  split at h
  case h_1 => cases h
  case h_2 f hf =>
    dsimp only at h
    split at h
    case isTrue => cases h
    case isFalse =>
      split at h
      case isTrue => cases h
      case isFalse =>
        cases h
        exact ⟨hf, rfl, rfl⟩

theorem verdict_error {a : Analysis} {s : AnalysisState} {call : Point} {name : String}
    {target : CallTarget} (h : a.verdict s call name = .error target) :
    ∃ cause message callee, target = .approximated cause message callee := by
  unfold verdict at h
  split at h
  case h_1 =>
    cases h
    exact ⟨_, _, _, rfl⟩
  case h_2 f hf =>
    dsimp only at h
    split at h
    case isTrue =>
      cases h
      exact ⟨_, _, _, rfl⟩
    case isFalse =>
      split at h
      case isTrue =>
        cases h
        exact ⟨_, _, _, rfl⟩
      case isFalse => cases h

end Analysis

namespace AnalysisState
variable {a : Analysis} {s s' r : AnalysisState} {call : Point} {name : String} {c : Context}
  {target : CallTarget}

/-- No context is lost. -/
def Grows (s s' : AnalysisState) : Prop :=
  ∀ (id : ContextId) c, s.contexts[id]? = some c → s'.contexts[id]? = some c

/-- Every context was entered from an older one, by a call that is allowed to enter it. -/
structure Tree (a : Analysis) (s : AnalysisState) : Prop where
  root : ∃ f, a.program.main = .ok f ∧ s.contexts[ContextId.main]? = some ⟨f, none, 0⟩
  orphan : ∀ (id : ContextId) c, s.contexts[id]? = some c → c.caller = none → id = .main
  calls : ∀ (call : Point) (id : ContextId), s.calls[call]? = some id ↔
    ∃ c, s.contexts[id]? = some c ∧ c.caller = some call
  older : ∀ (id : ContextId) c call, s.contexts[id]? = some c → c.caller = some call →
    call.context < id
  entered : ∀ (id : ContextId) c call, s.contexts[id]? = some c → c.caller = some call →
    ∃ caller name args, s.contexts[call.context]? = some caller ∧
      caller.function.graph.statement? call.node = some (.call name args) ∧
      a.verdict s call name = .ok c

/-- No context is entered from itself. -/
theorem Tree.ne_caller (hs : s.Tree a) {id : ContextId} (hc : s.contexts[id]? = some c)
    (hcaller : c.caller = some call) : call.context ≠ id :=
  Nat.ne_of_lt (hs.older id c call hc hcaller)

theorem Grows.refl (s : AnalysisState) : s.Grows s :=
  fun _ _ h => h

/-- The chain of callers is the same in every state that knows the context. -/
theorem chain_eq (hs : s.Tree a) (hg : s.Grows s') {id : ContextId} {c : Context}
    (hc : s.contexts[id]? = some c) {m n : Nat} (hm : id < m) (hn : id < n) :
    s'.chain m id = s.chain n id := by
  -- a caller is older, so the context itself bounds the depth of the chain
  induction id using Nat.strongRecOn generalizing c m n with
  | ind id ih =>
    -- both bounds leave room for the context, so both chains start with it
    obtain ⟨m, rfl⟩ := Nat.exists_eq_succ_of_ne_zero (Nat.ne_of_gt (Nat.zero_lt_of_lt hm))
    obtain ⟨n, rfl⟩ := Nat.exists_eq_succ_of_ne_zero (Nat.ne_of_gt (Nat.zero_lt_of_lt hn))
    unfold chain
    rw [hc, hg id c hc]
    dsimp only
    cases hcaller : c.caller with
    | none => rfl
    | some call =>
      have holder := hs.older id c call hc hcaller
      obtain ⟨caller, _, _, hctx, -⟩ := hs.entered id c call hc hcaller
      rw [Option.map_some, Option.map_some, ih call.context holder hctx
        (Nat.lt_of_lt_of_le holder (Nat.le_of_lt_succ hm))
        (Nat.lt_of_lt_of_le holder (Nat.le_of_lt_succ hn))]

theorem lt_length {id : ContextId} (hc : s.contexts[id]? = some c) : id < s.contexts.length :=
  (List.getElem?_eq_some_iff.1 hc).1

theorem Grows.length_le (h : s.Grows s') : s.contexts.length ≤ s'.contexts.length := by
  refine Nat.le_of_not_lt fun hlt => ?_
  have hc := h s'.contexts.length _ (List.getElem?_eq_getElem hlt)
  exact Nat.lt_irrefl _ (lt_length hc)

/-- The chain of a context starts with it. -/
theorem chain_eq_cons {id : ContextId} (hc : s.contexts[id]? = some c) :
    ∃ rest, s.chain s.contexts.length id = c :: rest := by
  obtain ⟨n, hn⟩ := Nat.exists_eq_succ_of_ne_zero
    (Nat.ne_of_gt (Nat.zero_lt_of_lt (lt_length hc)))
  rw [hn, chain, hc]
  exact ⟨_, rfl⟩

theorem verdict_eq (hs : s.Tree a) (hg : s.Grows s') {caller : Context}
    (hc : s.contexts[call.context]? = some caller) (name : String) :
    a.verdict s' call name = a.verdict s call name := by
  unfold Analysis.verdict
  rw [chain_eq hs hg hc (lt_length (hg _ _ hc)) (lt_length hc)]

/-- The new context is one call deeper than its caller. -/
theorem depth_of_verdict (hc : s.contexts[call.context]? = some c) {c' : Context}
    (h : a.verdict s call name = .ok c') : c'.depth = c.depth + 1 := by
  obtain ⟨rest, hchain⟩ := chain_eq_cons hc
  rw [(Analysis.verdict_ok h).2.2, hchain]
  rfl

theorem getElem?_enter (s : AnalysisState) (call : Point) (c : Context) (id : ContextId) :
    (Analysis.enter s call c).contexts[id]? =
      if id = s.contexts.length then some c else s.contexts[id]? := by
  unfold Analysis.enter
  dsimp only
  rcases Nat.lt_trichotomy id s.contexts.length with h | h | h
  · rw [List.getElem?_append_left h, if_neg (Nat.ne_of_lt h)]
  · rw [if_pos h, h, List.getElem?_concat_length]
  · rw [if_neg (Nat.ne_of_gt h), List.getElem?_eq_none (Nat.le_of_lt h), List.getElem?_eq_none]
    rw [List.length_append]
    exact h

theorem grows_enter (s : AnalysisState) (call : Point) (c : Context) :
    s.Grows (Analysis.enter s call c) := by
  intro id c' hc'
  rw [getElem?_enter, if_neg (Nat.ne_of_lt (lt_length hc'))]
  exact hc'

/-- The contexts are those from before and the new one. -/
theorem getElem?_enter_eq_some {c' : Context} {id : ContextId} :
    (Analysis.enter s call c).contexts[id]? = some c' ↔
      id = s.contexts.length ∧ c' = c ∨ s.contexts[id]? = some c' := by
  rw [getElem?_enter]
  split
  · next hid =>
    have hnone : s.contexts[id]? = none := List.getElem?_eq_none (Nat.le_of_eq hid.symm)
    rw [hnone, Option.some.injEq, and_iff_right hid, or_iff_left (Option.some_ne_none c').symm]
    exact eq_comm
  · next hid => rw [or_iff_right fun h => hid h.1]

/-- The calls entered are those from before and the new one. -/
theorem calls_enter (hnew : s.calls[call]? = none) {call' : Point} {id : ContextId} :
    (Analysis.enter s call c).calls[call']? = some id ↔
      call = call' ∧ id = s.contexts.length ∨ s.calls[call']? = some id := by
  have hcalls : (Analysis.enter s call c).calls[call']? =
      if call = call' then some s.contexts.length else s.calls[call']? := by
    unfold Analysis.enter
    dsimp only
    rw [ExtTreeMap.getElem?_insert]
    simp only [LawfulEqCmp.compare_eq_iff_eq]
  rw [hcalls]
  split
  · next hcall =>
    rw [← hcall, hnew, Option.some.injEq, and_iff_right rfl,
      or_iff_left (Option.some_ne_none id).symm]
    exact eq_comm
  · next hcall => rw [or_iff_right fun h => hcall h.1]

/-- A context that a call may add keeps the tree. -/
theorem tree_enter (hs : s.Tree a) {caller : Context} {args : List Expression}
    (hc : s.contexts[call.context]? = some caller)
    (hst : caller.function.graph.statement? call.node = some (.call name args))
    (hnew : s.calls[call]? = none) (h : a.verdict s call name = .ok c) :
    (Analysis.enter s call c).Tree a := by
  obtain ⟨-, hcaller, -⟩ := Analysis.verdict_ok h
  have hg := grows_enter s call c
  have hentered {call' : Point} (hcaller' : c.caller = some call') : call = call' :=
    Option.some.inj (hcaller.symm.trans hcaller')
  refine ⟨?_, ?_, ?_, ?_, ?_⟩
  · -- the context of the script is still the first one
    obtain ⟨f, hf, hroot⟩ := hs.root
    exact ⟨f, hf, hg _ _ hroot⟩
  · intro id c' hc' hnone
    rcases getElem?_enter_eq_some.1 hc' with ⟨-, rfl⟩ | hold
    · rw [hcaller] at hnone
      cases hnone
    · exact hs.orphan id c' hold hnone
  · intro call' id
    rw [calls_enter hnew, hs.calls call' id]
    constructor
    · rintro (⟨rfl, hid⟩ | ⟨c', hold, hcaller'⟩)
      · exact ⟨c, getElem?_enter_eq_some.2 (.inl ⟨hid, rfl⟩), hcaller⟩
      · exact ⟨c', hg _ _ hold, hcaller'⟩
    · rintro ⟨c', hc', hcaller'⟩
      rcases getElem?_enter_eq_some.1 hc' with ⟨hid, rfl⟩ | hold
      · exact .inl ⟨hentered hcaller', hid⟩
      · exact .inr ⟨c', hold, hcaller'⟩
  · intro id c' call' hc' hcaller'
    rcases getElem?_enter_eq_some.1 hc' with ⟨hid, rfl⟩ | hold
    · rw [hid, ← hentered hcaller']
      exact lt_length hc
    · exact hs.older id c' call' hold hcaller'
  · intro id c' call' hc' hcaller'
    -- the call is allowed what it was allowed before: its chain of callers has not changed
    rcases getElem?_enter_eq_some.1 hc' with ⟨-, rfl⟩ | hold
    · rw [← hentered hcaller']
      exact ⟨caller, name, args, hg _ _ hc, hst, (verdict_eq hs hg hc name).trans h⟩
    · obtain ⟨caller', name', args', hctx, hst', hv⟩ := hs.entered id c' call' hold hcaller'
      exact ⟨caller', name', args', hg _ _ hctx, hst', (verdict_eq hs hg hctx name').trans hv⟩

end AnalysisState
end ScriptMemory
