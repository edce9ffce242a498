import ScriptMemory.Proofs.Analysis.Driver

/-! Call levels. The memory of a point is a frame as deep as its context, except in one case: a
point that is its own predecessor sees blank memory, at level zero, on its first visit. -/
namespace ScriptMemory
open Std

namespace Analysis
variable {a : Analysis} {s s' r : AnalysisState} {p q u : Point} {c cu : Context} {st : Statement}
  {target : Option CallTarget} {m n : Memory} {x : Intake} {t : Snapshot} {pending : Point → Prop}

/-- Every memory is as deep as its context. -/
def Levelled (s : AnalysisState) : Prop :=
  ∀ p m c, s.view p = some m → s.contexts[p.context]? = some c → m.level = c.depth

/-- The first visit of a point of a called function that is its own predecessor. -/
def SelfFirst (s : AnalysisState) (p : Point) : Prop :=
  ∃ c, s.contexts[p.context]? = some c ∧ c.caller ≠ none ∧ p.node ≠ c.function.graph.entry ∧
    (p.node, p.node) ∈ c.function.graph.edges ∧ s.view p = none

theorem depth_of_caller_none (hs : s.Tree a) {id : ContextId} (hc : s.contexts[id]? = some c)
    (hcaller : c.caller = none) : c.depth = 0 := by
  obtain ⟨f, -, hroot⟩ := hs.root
  rw [hs.orphan id c hc hcaller, hroot, Option.some.injEq] at hc
  rw [← hc]

theorem depth_of_caller (hs : s.Tree a) {id : ContextId} {call : Point} {caller : Context}
    (hc : s.contexts[id]? = some c) (hcaller : c.caller = some call)
    (hctx : s.contexts[call.context]? = some caller) : c.depth = caller.depth + 1 := by
  obtain ⟨_, _, _, -, -, hv⟩ := hs.entered id c call hc hcaller
  exact AnalysisState.depth_of_verdict hctx hv

/-- What a visit sees is as deep as its context, if the visited point has been seen before or
belongs to the script. -/
theorem level_viewFrom (hl : Levelled s) (hc : s.contexts[u.context]? = some cu)
    (hm : s.viewFrom p (a.previous s p) u = some m)
    (hself : u = p → s.view p = none → cu.depth = 0) : m.level = cu.depth := by
  rcases viewFrom_eq_some hm with hview | ⟨hu, hunseen, rfl⟩
  · exact hl u m cu hview hc
  · exact (hself hu hunseen).symm

/-- What a join sees is as deep as its context, unless the point joins itself unseen. -/
theorem fits_joinIntake (hs : s.Tree a) (hl : Levelled s) (hc : s.contexts[p.context]? = some c)
    (hself : ¬SelfFirst s p) (hentry : ¬(p.node = c.function.graph.entry ∧ p.context ≠ .main))
    (hx : joinIntake c p (s.viewFrom p (a.previous s p)) = some x) : x.Fits c.depth := by
  obtain ⟨sources, rfl, hne, hsources⟩ := joinIntake_eq_some hx
  have hroot : p.node = c.function.graph.entry → c.depth = 0 := by
    intro hnode
    have hcaller : c.caller = none := Classical.not_not.1 fun h =>
      hentry ⟨hnode, (hs.ne_main_iff hc).2 h⟩
    exact depth_of_caller_none hs hc hcaller
  refine ⟨hne, ?_⟩
  intro m hm
  rcases (hsources m).1 hm with ⟨rfl, hnode⟩ | ⟨node, he, hview⟩
  · exact (hroot hnode).symm
  · apply level_viewFrom (u := { p with node := node }) hl hc hview
    intro hnode hunseen
    -- the point is its own predecessor, so it has been seen, or it belongs to the script
    have hn : node = p.node := congrArg Point.node hnode
    rw [hn] at he
    by_cases hpe : p.node = c.function.graph.entry
    · exact hroot hpe
    · apply depth_of_caller_none hs hc
      exact Classical.not_not.1 fun hcaller => hself ⟨c, hc, hcaller, hpe, he, hunseen⟩

/-- The intake of a visit makes up a frame of its context. -/
theorem fits_of_not_selfFirst (hp : a.program.IsBuilt) (hs : s.Tree a) (hl : Levelled s)
    (hsite : a.Site s p c st target) (hself : ¬SelfFirst s p)
    (hx : intake? s.contexts c p st target (s.viewFrom p (a.previous s p)) = some x) :
    x.Fits c.depth := by
  cases hsite.intakeRule hp hs with
  | @entry _ call _ hentry hcaller hctx =>
    rw [intake?_entry hentry, hcaller, Option.bind_some] at hx
    obtain ⟨m, hm, rfl⟩ := Option.map_eq_some_iff.1 hx
    -- a call lies in another context than what it leads to
    have hne : call ≠ p := fun h => hs.ne_caller hsite.context hcaller (by rw [h])
    have hlevel := level_viewFrom hl hctx hm fun h => absurd h hne
    change m.level + 1 = c.depth
    rw [hlevel, depth_of_caller hs hsite.context hcaller hctx]
  | @callReturn id callee _ hentry hst _ hc hcaller =>
    rw [intake?_callReturn hentry hst hc] at hx
    obtain ⟨m, hm, rfl⟩ := Option.map_eq_some_iff.1 hx
    have hne : (⟨id, callee.function.graph.exit⟩ : Point) ≠ p := by
      intro h
      exact hs.ne_caller hc hcaller (congrArg Point.context h).symm
    have hlevel := level_viewFrom hl hc hm fun h => absurd h hne
    change m.level = c.depth + 1
    rw [hlevel, depth_of_caller hs hc hcaller hsite.context]
  | @approximated _ _ _ node hentry hst hnode _ =>
    rw [intake?_approximated hentry hst hnode] at hx
    obtain ⟨m, hm, rfl⟩ := Option.map_eq_some_iff.1 hx
    have hne : ({ p with node := node } : Point) ≠ p := by
      intro h
      exact (hs.isBuilt hp hsite.context).ne_of_isCallReturn hsite.statement hst
        (Graph.mem_edges_of_callOf? hnode) (congrArg Point.node h)
    have hlevel := level_viewFrom (u := { p with node := node }) hl hsite.context hm
      fun h => absurd h hne
    refine ⟨List.cons_ne_nil m [], ?_⟩
    intro k hk
    rw [List.mem_singleton.1 hk]
    exact hlevel
  | join hentry hst =>
    rw [intake?_join hentry hst] at hx
    exact fits_joinIntake hs hl hsite.context hself hentry hx

/-- A point is expected: it exists, and unless it belongs to the script or has been visited, another
point has queued it. -/
def Expected (a : Analysis) (s : AnalysisState) (p : Point) : Prop :=
  (∃ c, s.contexts[p.context]? = some c ∧ p.node < c.function.graph.size) ∧
    (p.context = .main ∨ (s.view p).isSome ∨
      ∃ u c st target, (s.view u).isSome ∧ a.Site s u c st target ∧ p ∈ successors s c u target)

/-- A point other than an entry is queued, but for call-returns, by a point before it. -/
theorem before_of_mem_successors (hp : a.program.IsBuilt) (hs : s.Tree a)
    (hsite : a.Site s p c st target) (hst : st.isCallReturn = false)
    (hentry : p.node ≠ c.function.graph.entry) (hu : s.contexts[u.context]? = some cu)
    {target' : Option CallTarget} (hqueued : p ∈ successors s cu u target') :
    p.context = u.context ∧ (u.node, p.node) ∈ c.function.graph.edges := by
  rcases successors_cases hqueued with
    ⟨call, caller, node, -, hctx, hreturn, rfl⟩ | ⟨id, callee, hctx, rfl⟩ | ⟨hctx, he⟩
  · obtain rfl : c = caller := Option.some.inj (hsite.context.symm.trans hctx)
    have hany := Graph.isCallReturn_of_callOf?
      ((hs.isBuilt hp hsite.context).callReturnOf?_iff.1 hreturn)
    rw [hsite.statement, Option.any_some, hst] at hany
    cases hany
  · obtain rfl : c = callee := Option.some.inj (hsite.context.symm.trans hctx)
    exact absurd rfl hentry
  · rw [← hctx, hsite.context] at hu
    obtain rfl := Option.some.inj hu
    exact ⟨hctx, he⟩

/-- A point of a called function that is not seen yet, but expected, has a point before it in view,
which is as deep as the context. -/
theorem exists_level_eq (hp : a.program.IsBuilt) (hs : s.Tree a) (hl : Levelled s)
    (hsite : a.Site s p c st target) (hst : st.isCallReturn = false) (hcaller : c.caller ≠ none)
    (hentry : p.node ≠ c.function.graph.entry) (hunseen : s.view p = none)
    (hexpected : a.Expected s p)
    (hx : joinIntake c p (s.viewFrom p (a.previous s p)) = some x) :
    ∃ m, m ∈ x.memories ∧ m.level = c.depth := by
  rcases hexpected.2 with hmain | hseen | ⟨u, cu, stu, targetu, hu, hsiteu, hqueued⟩
  · exact absurd hmain ((hs.ne_main_iff hsite.context).2 hcaller)
  · rw [hunseen] at hseen
    cases hseen
  · obtain ⟨hctx, hedge⟩ :=
      before_of_mem_successors hp hs hsite hst hentry hsiteu.context hqueued
    have hcu : s.contexts[u.context]? = some c := by
      rw [← hctx]
      exact hsite.context
    obtain ⟨m, hm⟩ := Option.isSome_iff_exists.1 hu
    have hne : u ≠ p := by
      rintro rfl
      rw [hunseen] at hu
      cases hu
    have hview : s.viewFrom p (a.previous s p) { p with node := u.node } = some m := by
      have hup : ({ p with node := u.node } : Point) = u := by
        rw [hctx]
      rw [hup, AnalysisState.viewFrom_of_ne _ _ hne, hm]
    obtain ⟨x', hx', hmem⟩ := mem_joinIntake hedge hview
    obtain rfl : x = x' := Option.some.inj (hx.symm.trans hx')
    exact ⟨m, hmem, hl u m c hm hcu⟩

/-- On the first visit of a point that is its own predecessor the intake is of two levels. -/
theorem refused_of_selfFirst (hp : a.program.IsBuilt) (hs : s.Tree a) (hl : Levelled s)
    (hsite : a.Site s p c st target) (hself : SelfFirst s p) (hexpected : a.Expected s p) :
    ∃ x, intake? s.contexts c p st target (s.viewFrom p (a.previous s p)) = some x ∧
      ∀ level, ¬x.Fits level := by
  obtain ⟨c', hc', hcaller, hentry, he, hunseen⟩ := hself
  obtain rfl : c = c' := Option.some.inj (hsite.context.symm.trans hc')
  have hst : st.isCallReturn = false := by
    apply Bool.eq_false_iff.2
    intro hreturn
    exact (hs.isBuilt hp hsite.context).ne_of_isCallReturn hsite.statement hreturn he rfl
  rw [intake?_join (fun h => hentry h.1) hst]
  -- one source is the point itself, which is blank
  have hblank : s.viewFrom p (a.previous s p) { p with node := p.node } = some .initial := by
    rw [← previous_memory a hunseen]
    exact AnalysisState.viewFrom_self ..
  obtain ⟨x, hx, hmem⟩ := mem_joinIntake he hblank
  -- another one is the point that has queued it
  obtain ⟨m, hmem', hlevel⟩ :=
    exists_level_eq hp hs hl hsite hst hcaller hentry hunseen hexpected hx
  refine ⟨x, hx, ?_⟩
  intro level hfits
  obtain ⟨sources, rfl, -, -⟩ := joinIntake_eq_some hx
  obtain ⟨call, hcall⟩ := Option.ne_none_iff_exists'.1 hcaller
  obtain ⟨caller, _, _, hctx, -⟩ := hs.entered _ c call hsite.context hcall
  have hdepth := depth_of_caller hs hsite.context hcall hctx
  have hzero : (0 : Nat) = level := hfits.2 .initial hmem
  have hdeep := hfits.2 m hmem'
  omega

end Analysis
end ScriptMemory
