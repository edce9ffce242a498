import ScriptMemory.Proofs.Analysis.Targets
import ScriptMemory.Proofs.Analysis.Transfer

/-! How memory flows between points. The driver queues the points that memory flows to, and a point
makes its input from the points that memory flows from. -/
namespace ScriptMemory
open Std

/-- Memory flows along the edges of a graph, from an analysed call to the function it enters, and
from the end of that function back behind the call. Edges that lead back to the entry of a called
function, or on from its exit, carry nothing. -/
inductive Flow (contexts : List Context) : Point → Point → Prop
  | edge {id : ContextId} {i j : Nat} {c : Context} (hc : contexts[id]? = some c)
      (he : (i, j) ∈ c.function.graph.edges)
      (hcall : ∀ (id' : ContextId) c', contexts[id']? = some c' → c'.caller ≠ some ⟨id, i⟩)
      (hcallee : c.caller ≠ none → i ≠ c.function.graph.exit ∧ j ≠ c.function.graph.entry) :
      Flow contexts ⟨id, i⟩ ⟨id, j⟩
  | enter {u : Point} {id : ContextId} {c : Context} (hc : contexts[id]? = some c)
      (hu : c.caller = some u) : Flow contexts u ⟨id, c.function.graph.entry⟩
  | leave {id : ContextId} {c caller : Context} {call : Point} {node : Nat}
      (hc : contexts[id]? = some c) (hcall : c.caller = some call)
      (hctx : contexts[call.context]? = some caller)
      (hnode : caller.function.graph.callReturnOf? call.node = some node)
      (hcallee : caller.caller ≠ none → node ≠ caller.function.graph.entry) :
      Flow contexts ⟨id, c.function.graph.exit⟩ ⟨call.context, node⟩

/-- Memory flows to points of known contexts only. -/
theorem Flow.target_known {contexts : List Context} {u q : Point} (hf : Flow contexts u q) :
    ∃ c, contexts[q.context]? = some c := by
  cases hf with
  | edge hc he hcall hcallee => exact ⟨_, hc⟩
  | enter hc hu => exact ⟨_, hc⟩
  | leave hc hcall hctx hnode hcallee => exact ⟨_, hctx⟩

namespace AnalysisState
variable {a : Analysis} {s s' : AnalysisState} {p q u : Point} {c : Context} {st : Statement}
  {target : Option CallTarget} {id : ContextId}

/-- The memories of the snapshots. -/
def view (s : AnalysisState) (p : Point) : Option Memory :=
  (s.snapshots[p]?).map (·.memory)

/-- The memories that a visit of `current` sees. -/
def viewFrom (s : AnalysisState) (current : Point) (previous : Snapshot) (p : Point) :
    Option Memory :=
  (s.lookUp current previous p).map (·.memory)

theorem view_eq_some {t : Snapshot} (h : s.snapshots[p]? = some t) : s.view p = some t.memory := by
  unfold view
  rw [h]
  rfl

theorem Tree.ne_main_iff (hs : s.Tree a) (hc : s.contexts[id]? = some c) :
    id ≠ .main ↔ c.caller ≠ none := by
  constructor
  · exact fun hne hnone => hne (hs.orphan id c hc hnone)
  · rintro hcaller rfl
    obtain ⟨f, -, hroot⟩ := hs.root
    rw [hroot, Option.some.injEq] at hc
    subst hc
    exact hcaller rfl

/-- Only calls are entered. -/
theorem Tree.isCall (hs : s.Tree a) {c' : Context} (hc' : s.contexts[id]? = some c')
    (hu : c'.caller = some u) (hc : s.contexts[u.context]? = some c) :
    ∃ name args, c.function.graph.statement? u.node = some (.call name args) := by
  obtain ⟨caller, name, args, hctx, hst, -⟩ := hs.entered id c' u hc' hu
  rw [hc, Option.some.injEq] at hctx
  subst hctx
  exact ⟨name, args, hst⟩

end AnalysisState

namespace Analysis
variable {a : Analysis} {s s' : AnalysisState} {p q u : Point} {c : Context} {st : Statement}
  {target : Option CallTarget} {m : Memory} {view view' : Point → Option Memory}

/-- The join of the memories before a point; the script starts from blank memory. -/
def joinIntake (c : Context) (p : Point) (view : Point → Option Memory) : Option Intake :=
  let g := c.function.graph
  let before := (g.predecessors p.node).filterMap fun node => view { p with node }
  let sources := if p.node = g.entry then before ++ [.initial] else before
  if sources.isEmpty then none else some (.join sources)

/-- The intake of a point from the memories in view. -/
def intake? (contexts : List Context) (c : Context) (p : Point) (statement : Statement)
    (target : Option CallTarget) (view : Point → Option Memory) : Option Intake :=
  let g := c.function.graph
  if p.node = g.entry ∧ p.context ≠ .main then (c.caller.bind view).map .call
  else
    match statement, target with
    | .callReturn _, some (.context id) =>
      (contexts[id]?.bind fun callee => view ⟨id, callee.function.graph.exit⟩).map .callReturn
    | .callReturn _, some (.approximated ..) =>
      ((g.callOf? p.node).bind fun node => view { p with node }).map fun m => .join [m]
    | _, _ => joinIntake c p view

/-- The join of what is seen of the predecessors. -/
theorem joinInput_intake (a : Analysis) (s : AnalysisState) (c : Context) (p : Point)
    (previous : Snapshot) :
    let seen := s.lookUp p previous
    let g := c.function.graph
    let before := (g.predecessors p.node).filterMap fun node => seen { p with node }
    let sources := if p.node = g.entry then before ++ [{ limits := a.config.limits }] else before
    (if sources.isEmpty then none else some (Input.join sources)).map Input.intake =
      joinIntake c p (s.viewFrom p previous) := by
  intro seen g before sources
  have hbefore : (g.predecessors p.node).filterMap
      (fun node => s.viewFrom p previous { p with node }) = before.map (·.memory) :=
    List.map_filterMap.symm
  have hsources : (if p.node = g.entry then before.map (·.memory) ++ [.initial]
      else before.map (·.memory)) = sources.map (·.memory) := by
    by_cases hentry : p.node = g.entry
    · simp [sources, hentry]
    · simp [sources, hentry]
  unfold joinIntake
  dsimp only
  rw [hbefore, hsources, List.isEmpty_map]
  split
  · rfl
  · rfl

/-- The driver's choice of an input, by memories. -/
theorem input?_spec (h : a.Site s p c st target) (hp : a.program.IsBuilt) (hs : s.Tree a)
    (previous : Snapshot) :
    ∃ input, a.input? s c p st target previous = .ok input ∧
      input.map Input.intake = intake? s.contexts c p st target (s.viewFrom p previous) := by
  unfold input? intake?
  by_cases hentry : p.node = c.function.graph.entry ∧ p.context ≠ .main
  · -- the entry of a called function takes what the call left
    simp only [if_pos hentry]
    refine ⟨_, rfl, ?_⟩
    rw [Option.map_map]
    cases c.caller with
    | none => rfl
    | some call =>
      change Option.map _ (s.lookUp p previous call) = Option.map _ (Option.map _ _)
      rw [Option.map_map]
      rfl
  · simp only [if_neg hentry]
    rcases h.target_cases hp hs with ⟨-, hreturn, rfl⟩ | ⟨call, habout, htarget⟩
    · -- a statement that is not about a call joins what is before it
      cases st with
      | callReturn result => cases hreturn
      | _ => exact ⟨_, rfl, joinInput_intake a s c p previous⟩
    · cases st with
      | callReturn result =>
        obtain ⟨-, hcall⟩ | ⟨-, hcallOf, hctx⟩ := habout
        · cases hcall
        · rcases htarget with ⟨id, rfl, hid⟩ | ⟨cause, message, callee, rfl, hnone⟩
          · -- behind an analysed call it is the end of the function that counts
            refine ⟨_, rfl, ?_⟩
            dsimp only
            rw [Option.map_map]
            cases s.contexts[id]? with
            | none => rfl
            | some c' =>
              change Option.map _ (s.lookUp p previous _) = Option.map _ (Option.map _ _)
              rw [Option.map_map]
              rfl
          · -- behind any other call it is the call itself
            have hpoint :
              AnalysisState.callPoint c.function p = .ok { p with node := call.node } := by
              unfold AnalysisState.callPoint
              rw [hcallOf]
            rw [hpoint, hcallOf]
            refine ⟨_, rfl, ?_⟩
            change Option.map _ (Option.map _ (s.lookUp p previous _)) =
              Option.map _ (Option.map _ _)
            rw [Option.map_map, Option.map_map]
            rfl
      | _ => exact ⟨_, rfl, joinInput_intake a s c p previous⟩

theorem intake?_entry (hentry : p.node = c.function.graph.entry ∧ p.context ≠ .main)
    (contexts : List Context) :
    intake? contexts c p st target view = (c.caller.bind view).map .call :=
  if_pos hentry

theorem intake?_join (hentry : ¬(p.node = c.function.graph.entry ∧ p.context ≠ .main))
    (hst : st.isCallReturn = false) (contexts : List Context) :
    intake? contexts c p st target view = joinIntake c p view := by
  unfold intake?
  simp only [if_neg hentry]
  cases st with
  | callReturn result => cases hst
  | _ => rfl

theorem intake?_callReturn (hentry : ¬(p.node = c.function.graph.entry ∧ p.context ≠ .main))
    (hst : st.isCallReturn = true) {contexts : List Context} {id : ContextId} {callee : Context}
    (hid : contexts[id]? = some callee) :
    intake? contexts c p st (some (.context id)) view =
      (view ⟨id, callee.function.graph.exit⟩).map .callReturn := by
  unfold intake?
  simp only [if_neg hentry]
  cases st with
  | callReturn result =>
    dsimp only
    rw [hid, Option.bind_some]
  | _ => cases hst

theorem intake?_approximated (hentry : ¬(p.node = c.function.graph.entry ∧ p.context ≠ .main))
    (hst : st.isCallReturn = true) {cause : Cause} {message : String} {callee : Option Function}
    {node : Nat} (hcall : c.function.graph.callOf? p.node = some node) (contexts : List Context) :
    intake? contexts c p st (some (.approximated cause message callee)) view =
      (view { p with node }).map fun m => .join [m] := by
  unfold intake?
  simp only [if_neg hentry]
  cases st with
  | callReturn result =>
    dsimp only
    rw [hcall, Option.bind_some]
  | _ => cases hst

/-- The rules by which a point makes its intake: the entry of a called function from the call, a
call-return from the exit of the function or, if the call is not analysed, from the call, and any
other point from the points before it. -/
inductive IntakeRule (s : AnalysisState) (p : Point) (c : Context) (st : Statement) :
    Option CallTarget → Prop
  | entry {target : Option CallTarget} {call : Point} {caller : Context}
      (hentry : p.node = c.function.graph.entry ∧ p.context ≠ .main)
      (hcaller : c.caller = some call) (hctx : s.contexts[call.context]? = some caller) :
      IntakeRule s p c st target
  | callReturn {id : ContextId} {callee : Context} {node : Nat}
      (hentry : ¬(p.node = c.function.graph.entry ∧ p.context ≠ .main))
      (hst : st.isCallReturn = true) (hnode : c.function.graph.callOf? p.node = some node)
      (hc : s.contexts[id]? = some callee) (hcaller : callee.caller = some ⟨p.context, node⟩) :
      IntakeRule s p c st (some (.context id))
  | approximated {cause : Cause} {message : String} {callee : Option Function} {node : Nat}
      (hentry : ¬(p.node = c.function.graph.entry ∧ p.context ≠ .main))
      (hst : st.isCallReturn = true) (hnode : c.function.graph.callOf? p.node = some node)
      (hnone : s.calls[Point.mk p.context node]? = none) :
      IntakeRule s p c st (some (.approximated cause message callee))
  | join {target : Option CallTarget}
      (hentry : ¬(p.node = c.function.graph.entry ∧ p.context ≠ .main))
      (hst : st.isCallReturn = false) : IntakeRule s p c st target

theorem Site.intakeRule (h : a.Site s p c st target) (hp : a.program.IsBuilt) (hs : s.Tree a) :
    IntakeRule s p c st target := by
  by_cases hentry : p.node = c.function.graph.entry ∧ p.context ≠ .main
  · obtain ⟨call, hcaller⟩ :=
      Option.ne_none_iff_exists'.1 ((hs.ne_main_iff h.context).1 hentry.2)
    obtain ⟨caller, _, _, hctx, -⟩ := hs.entered _ c call h.context hcaller
    exact .entry hentry hcaller hctx
  · by_cases hst : st.isCallReturn = true
    · obtain ⟨node, hnode, htarget⟩ := h.target_of_isCallReturn hp hs hst
      rcases htarget with ⟨id, rfl, hid⟩ | ⟨cause, message, callee, rfl, hnone⟩
      · obtain ⟨callee, hc, hcaller⟩ := (hs.calls _ id).1 hid
        exact .callReturn hentry hst hnode hc hcaller
      · exact .approximated hentry hst hnode hnone
    · exact .join hentry (Bool.eq_false_iff.2 hst)

theorem mem_joinIntake {node : Nat} (he : (node, p.node) ∈ c.function.graph.edges)
    (hm : view { p with node } = some m) :
    ∃ x, joinIntake c p view = some x ∧ m ∈ x.memories := by
  have hbefore : m ∈ (c.function.graph.predecessors p.node).filterMap
      fun node => view { p with node } :=
    List.mem_filterMap.2 ⟨node, Graph.mem_predecessors.2 he, hm⟩
  unfold joinIntake
  dsimp only
  have hsources : m ∈ (if p.node = c.function.graph.entry then
      ((c.function.graph.predecessors p.node).filterMap fun node => view { p with node }) ++
        [.initial]
      else (c.function.graph.predecessors p.node).filterMap fun node => view { p with node }) := by
    split
    · exact List.mem_append_left _ hbefore
    · exact hbefore
  rw [if_neg (by rw [List.isEmpty_iff]; exact List.ne_nil_of_mem hsources)]
  exact ⟨_, rfl, hsources⟩

/-- What a join is made of. -/
theorem joinIntake_eq_some {x : Intake} (h : joinIntake c p view = some x) :
    ∃ sources, x = .join sources ∧ sources ≠ [] ∧
      ∀ m, m ∈ sources ↔ m = .initial ∧ p.node = c.function.graph.entry ∨
        ∃ node, (node, p.node) ∈ c.function.graph.edges ∧ view { p with node } = some m := by
  have hbefore (m : Memory) : m ∈ (c.function.graph.predecessors p.node).filterMap
      (fun node => view { p with node }) ↔
      ∃ node, (node, p.node) ∈ c.function.graph.edges ∧ view { p with node } = some m := by
    simp only [List.mem_filterMap, Graph.mem_predecessors]
  have hchosen {sources : List Memory}
      (hx : (if sources.isEmpty then none else some (Intake.join sources)) = some x) :
      x = .join sources ∧ sources ≠ [] := by
    split at hx
    · cases hx
    · next hne => exact ⟨(Option.some.inj hx).symm, fun hnil => hne (by rw [hnil]; rfl)⟩
  unfold joinIntake at h
  dsimp only at h
  by_cases hentry : p.node = c.function.graph.entry
  · rw [if_pos hentry] at h
    obtain ⟨hx, hne⟩ := hchosen h
    refine ⟨_, hx, hne, ?_⟩
    intro m
    rw [List.mem_append, hbefore, List.mem_singleton, or_comm, and_iff_left hentry]
  · rw [if_neg hentry] at h
    obtain ⟨hx, hne⟩ := hchosen h
    refine ⟨_, hx, hne, ?_⟩
    intro m
    rw [hbefore, or_iff_right fun h => hentry h.2]

/-- Memory that flows to a point is part of its intake as soon as it is in view. -/
theorem intake?_of_flow (hf : Flow s.contexts u q) (h : a.Site s q c st target)
    (hp : a.program.IsBuilt) (hs : s.Tree a) (hm : view u = some m) :
    ∃ x, intake? s.contexts c q st target view = some x ∧ m ∈ x.memories := by
  have hbuilt := hs.isBuilt hp h.context
  cases hf with
  | @edge id i j c' hc he hcall hcallee =>
    obtain rfl : c' = c := Option.some.inj (hc.symm.trans h.context)
    have hentry : ¬(j = c'.function.graph.entry ∧ id ≠ .main) := fun hj =>
      (hcallee ((hs.ne_main_iff hc).1 hj.2)).2 hj.1
    by_cases hst : st.isCallReturn = true
    · obtain ⟨node, hnode, htarget⟩ := h.target_of_isCallReturn hp hs hst
      have hany : (some st).any Statement.isCallReturn = true := hst
      obtain ⟨result, hresult⟩ := Graph.exists_callReturn_of_any hany
      cases hresult
      -- the only edge to a call-return is that from its call, which is not analysed here
      have hi : c'.function.graph.callOf? j = some i := (hbuilt.callOf?_eq h.statement he).1
      obtain rfl : i = node := Option.some.inj (hi.symm.trans hnode)
      rcases htarget with ⟨id', -, hid'⟩ | ⟨cause, message, callee, rfl, -⟩
      · obtain ⟨c'', hc'', hcaller⟩ := (hs.calls _ _).1 hid'
        exact absurd hcaller (hcall id' c'' hc'')
      · rw [intake?_approximated hentry hst hi, hm]
        exact ⟨_, rfl, List.mem_singleton_self m⟩
    · rw [intake?_join hentry (by simpa using hst)]
      exact mem_joinIntake he hm
  | @enter _ id c' hc hu =>
    obtain rfl : c' = c := Option.some.inj (hc.symm.trans h.context)
    have hentry : c'.function.graph.entry = c'.function.graph.entry ∧ id ≠ .main :=
      ⟨rfl, (hs.ne_main_iff hc).2 (by rw [hu]; exact Option.some_ne_none u)⟩
    rw [intake?_entry (p := ⟨id, c'.function.graph.entry⟩) hentry, hu, Option.bind_some, hm]
    exact ⟨_, rfl, List.mem_singleton_self m⟩
  | @leave id callee caller call node hc hcall hctx hnode hcallee =>
    obtain rfl : caller = c := Option.some.inj (hctx.symm.trans h.context)
    have hcallOf := hbuilt.callReturnOf?_iff.1 hnode
    have hentry : ¬(node = caller.function.graph.entry ∧ call.context ≠ .main) := fun hn =>
      hcallee ((hs.ne_main_iff hctx).1 hn.2) hn.1
    have hst : st.isCallReturn = true := by
      have hany := Graph.isCallReturn_of_callOf? hcallOf
      rw [h.statement] at hany
      exact hany
    obtain ⟨node', hnode', htarget⟩ := h.target_of_isCallReturn hp hs hst
    obtain rfl : call.node = node' := Option.some.inj (hcallOf.symm.trans hnode')
    -- the call was entered, so its target is the context in question
    have hid : s.calls[call]? = some id := (hs.calls call id).2 ⟨callee, hc, hcall⟩
    rcases htarget with ⟨id', rfl, hid'⟩ | ⟨_, _, _, -, hnone⟩
    · obtain rfl : id = id' := Option.some.inj (hid.symm.trans hid')
      rw [intake?_callReturn hentry hst hc, hm]
      exact ⟨_, rfl, List.mem_singleton_self m⟩
    · rw [hid] at hnone
      cases hnone

/-- The driver queues every point that memory flows to. -/
theorem mem_successors_of_flow (hf : Flow s.contexts u q) (h : a.Site s u c st target)
    (hp : a.program.IsBuilt) (hs : s.Tree a) : q ∈ successors s c u target := by
  have hbuilt := hs.isBuilt hp h.context
  unfold successors
  dsimp only
  cases hf with
  | @edge id i j c' hc he hcall hcallee =>
    obtain rfl : c' = c := Option.some.inj (hc.symm.trans h.context)
    -- the driver does not leave the function here, and neither does it enter another one
    have hexit : (if i = c'.function.graph.exit then c'.caller else none) = none := by
      split
      · next hi =>
        cases hcaller : c'.caller with
        | none => rfl
        | some call => exact absurd hi (hcallee (by rw [hcaller]; exact Option.some_ne_none call)).1
      · rfl
    have hedge : (⟨id, j⟩ : Point) ∈ (c'.function.graph.successors i).map (Point.mk id) :=
      List.mem_map.2 ⟨j, Graph.mem_successors.2 he, rfl⟩
    rw [hexit, h.statement]
    by_cases hst : st.isCall = true
    · rcases h.target_of_isCall hp hs hst with ⟨id', -, hid'⟩ | ⟨cause, message, callee, rfl, -⟩
      · obtain ⟨c'', hc'', hcaller⟩ := (hs.calls _ _).1 hid'
        exact absurd hcaller (hcall id' c'' hc'')
      · rw [Option.any_some, if_pos hst]
        exact hedge
    · rw [Option.any_some, if_neg hst]
      exact hedge
  | @enter _ id c' hc hu =>
    obtain ⟨name, args, hst⟩ := hs.isCall hc hu h.context
    -- a call is never the exit, so the driver enters the function
    have hexit : u.node ≠ c.function.graph.exit := by
      intro hx
      rw [hx, hbuilt.statement?_exit] at hst
      cases hst
    have hid : s.calls[u]? = some id := (hs.calls u id).2 ⟨c', hc, hu⟩
    obtain rfl : st = .call name args := Option.some.inj (h.statement.symm.trans hst)
    have hisCall : (Statement.call name args).isCall = true := rfl
    rw [if_neg hexit, h.statement, Option.any_some, if_pos hisCall]
    rcases h.target_of_isCall hp hs hisCall with ⟨id', rfl, hid'⟩ | ⟨_, _, _, -, hnone⟩
    · obtain rfl : id = id' := Option.some.inj (hid.symm.trans hid')
      dsimp only
      rw [hc]
      exact List.mem_singleton_self _
    · rw [hid] at hnone
      cases hnone
  | @leave id callee caller call node hc hcall hctx hnode hcallee =>
    obtain rfl : callee = c := Option.some.inj (hc.symm.trans h.context)
    rw [if_pos rfl, hcall]
    dsimp only
    rw [hctx, Option.bind_some, hnode]
    exact List.mem_singleton_self _

/-- The ways in which a point gets queued by another one. -/
theorem successors_cases (h : q ∈ successors s c u target) :
    (∃ call caller node, c.caller = some call ∧ s.contexts[call.context]? = some caller ∧
        caller.function.graph.callReturnOf? call.node = some node ∧ q = ⟨call.context, node⟩) ∨
      (∃ (id : ContextId) (callee : Context), s.contexts[id]? = some callee ∧
        q = ⟨id, callee.function.graph.entry⟩) ∨
      q.context = u.context ∧ (u.node, q.node) ∈ c.function.graph.edges := by
  have hedge (h : q ∈ (c.function.graph.successors u.node).map (Point.mk u.context)) :
      q.context = u.context ∧ (u.node, q.node) ∈ c.function.graph.edges := by
    obtain ⟨j, hj, rfl⟩ := List.mem_map.1 h
    exact ⟨rfl, Graph.mem_successors.1 hj⟩
  unfold successors at h
  dsimp only at h
  split at h
  · next call hcall =>
    rw [Option.mem_toList, Option.map_eq_some_iff] at h
    obtain ⟨node, hnode, rfl⟩ := h
    obtain ⟨caller, hctx, hreturn⟩ := Option.bind_eq_some_iff.1 hnode
    refine .inl ⟨call, caller, node, ?_, hctx, hreturn, rfl⟩
    split at hcall
    · exact hcall
    · cases hcall
  · split at h
    · next id _ =>
      rw [Option.mem_toList, Option.map_eq_some_iff] at h
      obtain ⟨callee, hctx, rfl⟩ := h
      exact .inr (.inl ⟨id, callee, hctx, rfl⟩)
    · exact .inr (.inr (hedge h))

/-- A known point queues the same points when more contexts are found. -/
theorem successors_grow (h : a.Site s p c st target) (hp : a.program.IsBuilt) (hs : s.Tree a)
    (hg : s.Grows s') : successors s' c p target = successors s c p target := by
  have hreturn : ∀ call, c.caller = some call →
      s'.contexts[call.context]? = s.contexts[call.context]? := by
    intro call hcaller
    obtain ⟨caller, _, _, hctx, -⟩ := hs.entered _ c call h.context hcaller
    rw [hctx, hg _ _ hctx]
  have hcallee : ∀ id, target = some (.context id) → s'.contexts[id]? = s.contexts[id]? := by
    intro id htarget
    rcases h.target_cases hp hs with ⟨-, -, hnone⟩ |
      ⟨call, -, ⟨id', hid', hcall⟩ | ⟨_, _, _, happ, -⟩⟩
    · rw [htarget] at hnone
      cases hnone
    · rw [htarget] at hid'
      cases hid'
      obtain ⟨callee, hc, -⟩ := (hs.calls call id).1 hcall
      rw [hc, hg _ _ hc]
    · rw [htarget] at happ
      cases happ
  unfold successors
  dsimp only
  split
  · next call hcall =>
    split at hcall
    · rw [hreturn call hcall]
    · cases hcall
  · split
    · next id htarget =>
      split at htarget
      · rw [hcallee id htarget]
      · cases htarget
    · rfl

/-- Memory that flows to a known point has flowed there before more contexts were found. -/
theorem flow_of_grows (hf : Flow s'.contexts u q) (h : a.Site s q c st target)
    (hp : a.program.IsBuilt) (hs : s.Tree a) (hs' : s'.Tree a) (hg : s.Grows s') :
    Flow s.contexts u q := by
  have hbuilt := hs.isBuilt hp h.context
  have hctx' := hg _ _ h.context
  cases hf with
  | @edge id i j c' hc he hcall hcallee =>
    obtain rfl : c' = c := Option.some.inj (hc.symm.trans hctx')
    exact .edge h.context he (fun id' c'' hc'' => hcall id' c'' (hg _ _ hc'')) hcallee
  | @enter _ id c' hc hu =>
    obtain rfl : c' = c := Option.some.inj (hc.symm.trans hctx')
    exact .enter h.context hu
  | @leave id callee caller call node hc hcall hctx hnode hcallee =>
    obtain rfl : caller = c := Option.some.inj (hctx.symm.trans hctx')
    have hcallOf := hbuilt.callReturnOf?_iff.1 hnode
    have hst : st.isCallReturn = true := by
      have hany := Graph.isCallReturn_of_callOf? hcallOf
      rw [h.statement] at hany
      exact hany
    -- the call of a resolved call-return was entered already
    have hold := h.callee_of_grows hp hs hs' hg (.inr ⟨hst, hcallOf, rfl⟩) hc hcall
    exact .leave hold hcall h.context hnode hcallee

/-- So has memory that flows from a known point. -/
theorem flow_of_grows_source (hf : Flow s'.contexts u q) (h : a.Site s u c st target)
    (hp : a.program.IsBuilt) (hs : s.Tree a) (hs' : s'.Tree a) (hg : s.Grows s') :
    Flow s.contexts u q := by
  have hctx' := hg _ _ h.context
  cases hf with
  | @edge id i j c' hc he hcall hcallee =>
    obtain rfl : c' = c := Option.some.inj (hc.symm.trans hctx')
    exact .edge h.context he (fun id' c'' hc'' => hcall id' c'' (hg _ _ hc'')) hcallee
  | @enter _ id c' hc hu =>
    obtain ⟨name, args, hst⟩ := hs'.isCall hc hu hctx'
    obtain rfl : st = .call name args := Option.some.inj (h.statement.symm.trans hst)
    exact .enter (h.callee_of_grows hp hs hs' hg (.inl ⟨rfl, rfl⟩) hc hu) hu
  | @leave id callee caller call node hc hcall hctx hnode hcallee =>
    obtain rfl : callee = c := Option.some.inj (hc.symm.trans hctx')
    obtain ⟨caller', _, _, hctx'', -⟩ := hs.entered id callee call h.context hcall
    obtain rfl : caller = caller' := Option.some.inj (hctx.symm.trans (hg _ _ hctx''))
    exact .leave h.context hcall hctx'' hnode hcallee

/-- The intake of a known point does not depend on contexts found later. -/
theorem intake?_grow (h : a.Site s p c st target) (hp : a.program.IsBuilt) (hs : s.Tree a)
    (hg : s.Grows s') (view : Point → Option Memory) :
    intake? s'.contexts c p st target view = intake? s.contexts c p st target view := by
  cases h.intakeRule hp hs with
  | entry hentry => rw [intake?_entry hentry, intake?_entry hentry]
  | callReturn hentry hst _ hc =>
    rw [intake?_callReturn hentry hst hc, intake?_callReturn hentry hst (hg _ _ hc)]
  | approximated hentry hst hnode =>
    rw [intake?_approximated hentry hst hnode, intake?_approximated hentry hst hnode]
  | join hentry hst => rw [intake?_join hentry hst, intake?_join hentry hst]

theorem joinIntake_congr (hv : ∀ node ∈ c.function.graph.predecessors p.node,
    view { p with node } = view' { p with node }) : joinIntake c p view = joinIntake c p view' := by
  have hbefore :
      (c.function.graph.predecessors p.node).filterMap (fun node => view { p with node }) =
      (c.function.graph.predecessors p.node).filterMap fun node => view' { p with node } := by
    generalize c.function.graph.predecessors p.node = nodes at hv
    induction nodes with
    | nil => rfl
    | cons node nodes ih =>
      rw [List.filterMap_cons, List.filterMap_cons, hv node List.mem_cons_self,
        ih fun i hi => hv i (List.mem_cons_of_mem node hi)]
  unfold joinIntake
  dsimp only
  rw [hbefore]

theorem joinIntake_isSome : (joinIntake c p view).isSome ↔ p.node = c.function.graph.entry ∨
    ∃ node ∈ c.function.graph.predecessors p.node, (view { p with node }).isSome := by
  unfold joinIntake
  dsimp only
  have hsome (sources : List Memory) :
      (if sources.isEmpty then none else some (Intake.join sources)).isSome ↔ sources ≠ [] := by
    cases sources with
    | nil => simp
    | cons m rest => simp
  rw [hsome]
  by_cases hentry : p.node = c.function.graph.entry
  · simp [hentry]
  · rw [if_neg hentry, ne_eq, List.filterMap_eq_nil_iff]
    simp [hentry, Option.isSome_iff_ne_none]

/-- An intake stays there while more comes into view. -/
theorem intake?_isSome_mono {contexts : List Context}
    (hv : ∀ u, (view u).isSome → (view' u).isSome)
    (hx : (intake? contexts c p st target view).isSome) :
    (intake? contexts c p st target view').isSome := by
  have hsingle {α : Type} {o : Option α} {f : α → Point} {k : Memory → Intake}
      (h : ((o.bind fun y => view (f y)).map k).isSome) :
      ((o.bind fun y => view' (f y)).map k).isSome := by
    cases o with
    | none => cases h
    | some y =>
      rw [Option.isSome_map, Option.bind_some] at h ⊢
      exact hv (f y) h
  -- every rule but the join looks at one point only
  unfold intake? at hx ⊢
  dsimp only at hx ⊢
  split
  · next hentry =>
    rw [if_pos hentry] at hx
    exact hsingle (f := id) hx
  · next hentry =>
    rw [if_neg hentry] at hx
    split at hx
    · exact hsingle (f := fun callee : Context => ⟨_, callee.function.graph.exit⟩) hx
    · exact hsingle (f := fun node => { p with node }) hx
    · rw [joinIntake_isSome] at hx ⊢
      exact hx.imp_right fun ⟨node, hn, hnode⟩ => ⟨node, hn, hv _ hnode⟩

end Analysis
end ScriptMemory
