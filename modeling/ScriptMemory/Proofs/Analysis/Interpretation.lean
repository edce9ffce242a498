import ScriptMemory.Proofs.Analysis.Advance
import ScriptMemory.Proofs.Analysis.Mirroring
import ScriptMemory.Proofs.StraightLine

/-! The analysis of a straight-line program is an interpreter. One point waits at a time, it has not
been visited before, and what it takes in mirrors the environment that the interpreter has come
to. -/
namespace ScriptMemory
open Std Relation

namespace Analysis
open Transact Memory
variable {a : Analysis} {s s' r : AnalysisState} {p : Point} {c c' : Context} {st : Statement}
  {target : Option CallTarget} {m n : Memory} {i j d : Nat} {waiting : Option Point}
  {id id' : ContextId} {σ τ : Environment} {returned : Option Scalar} {f : Function} {name : String}

/-- A straight-line program is analysed, with limits that leave entries of one value and the first
commit alone. -/
structure IsStraight (a : Analysis) : Prop where
  program : a.program.IsStraight a.config.maxCallDepth
  admits : a.config.limits.Admits
  widening : a.config.limits.widening.any (· < 1) = false

/-- From the node `i` on, nothing of a context has been visited or called, and its callers led
there. -/
structure Ahead (a : Analysis) (s : AnalysisState) (id : ContextId) (c : Context) (i : Nat) :
    Prop where
  context : s.contexts[id]? = some c
  straight : c.function.IsStraight
  unseen : ∀ j, i ≤ j → s.view ⟨id, j⟩ = none ∧ s.calls[Point.mk id j]? = none
  lineage : ∀ c' ∈ s.chain s.contexts.length id,
    a.program.function? c'.function.name = some c'.function ∧
      ReflTransGen a.program.Calls c'.function c.function

theorem Ahead.of_grows (h : a.Ahead s id c i) (hs : s.Tree a) (hg : s.Grows s') (hij : i ≤ j)
    (hview : ∀ k, j ≤ k → s'.view ⟨id, k⟩ = s.view ⟨id, k⟩)
    (hcalls : ∀ k, j ≤ k → s'.calls[Point.mk id k]? = s.calls[Point.mk id k]?) :
    a.Ahead s' id c j where
  context := hg _ _ h.context
  straight := h.straight
  unseen := by
    intro k hk
    rw [hview k hk, hcalls k hk]
    exact h.unseen k (Nat.le_trans hij hk)
  lineage := by
    have hc := hg _ _ h.context
    rw [AnalysisState.chain_eq hs hg h.context (AnalysisState.lt_length hc)
      (AnalysisState.lt_length h.context)]
    exact h.lineage

theorem Ahead.advance (h : a.Ahead s id c i) (hs : s.Tree a)
    (hadv : a.Advances s ⟨id, i⟩ n waiting s') (hij : i < j) : a.Ahead s' id c j := by
  have hne {k : Nat} (hk : j ≤ k) : (⟨id, k⟩ : Point) ≠ ⟨id, i⟩ := by
    intro heq
    have hki : k = i := (Point.mk.inj heq).2
    omega
  refine h.of_grows hs hadv.grows (Nat.le_of_lt hij) (fun k hk => ?_) fun k hk => ?_
  · rw [hadv.view, if_neg (hne hk)]
  · exact hadv.calls _ (hne hk)

theorem Ahead.changesOnly (h : a.Ahead s id c i) (hs : s.Tree a) (hchanges : s.ChangesOnly id' s')
    (hne : id ≠ id') : a.Ahead s' id c i :=
  have hlt := AnalysisState.lt_length h.context
  h.of_grows hs hchanges.grows (Nat.le_refl i) (fun k _ => hchanges.view ⟨id, k⟩ hlt hne)
    fun k _ => hchanges.calls ⟨id, k⟩ hlt hne

/-- What the one visited predecessor left is taken in. -/
theorem joinIntake_next {view : Point → Option Memory} (hgraph : c.function.graph.IsStraight)
    (hreach : c.function.graph.Reaches i) (hnext : c.function.graph.next? i = some j)
    (hi : view ⟨id, i⟩ = some n) (hlater : ∀ k, i < k → k ≠ j → view ⟨id, k⟩ = none) :
    joinIntake c ⟨id, j⟩ view = some (.join [n]) := by
  have hbuilt := hgraph.isBuilt
  have hij := hreach.lt_next hbuilt hnext
  have hmem : i ∈ c.function.graph.predecessors j :=
    Graph.mem_predecessors.2 (hgraph.mem_edges.2 hnext)
  have hperm := (List.perm_cons_erase hmem).filterMap fun node => view ⟨id, node⟩
  -- the others come later and have not been visited
  have hothers : ((c.function.graph.predecessors j).erase i).filterMap
      (fun node => view ⟨id, node⟩) = [] := by
    rw [List.filterMap_eq_nil_iff]
    intro k hk
    obtain ⟨hne, hk⟩ := (Graph.nodup_predecessors hgraph.nodup_edges j).mem_erase_iff.1 hk
    have hkj := hgraph.mem_edges.1 (Graph.mem_predecessors.1 hk)
    refine hlater k (hreach.lt_of_next?_eq hij hkj hne) ?_
    rintro rfl
    exact Graph.next?_ne hbuilt k hkj
  rw [List.filterMap_cons, hi, hothers] at hperm
  have hentry : ¬j = c.function.graph.entry := by
    rw [hgraph.entry_eq]
    exact Nat.ne_of_gt (Nat.zero_lt_of_lt hij)
  unfold joinIntake
  dsimp only
  rw [if_neg hentry, List.perm_singleton.1 hperm]
  rfl

/-- An unvisited point takes memory in, whatever contexts are found before it does. -/
def Arrives (a : Analysis) (s : AnalysisState) (c : Context) (p : Point) (m : Memory) : Prop :=
  ∃ x, x.Fits c.depth ∧ ∀ r st target, s.Grows r → r.snapshots = s.snapshots →
    st.isCallReturn = false →
      intake? r.contexts c p st target (r.viewFrom p (a.previous r p)) = some x ∧
        ∀ before, Yields (a.takeIn r c st x) a.config.limits before () m

/-- The node `i` of a context waits, and it takes in `m`. -/
structure Standing (a : Analysis) (s : AnalysisState) (id : ContextId) (c : Context) (i : Nat)
    (m : Memory) : Prop extends a.Ahead s id c i where
  poised : a.Poised s (some ⟨id, i⟩)
  arrives : a.Arrives s c ⟨id, i⟩ m

/-- A visited node hands over to the one that it flows into. -/
theorem Advances.standing (hadv : a.Advances s ⟨id, i⟩ n (some ⟨id, j⟩) s') (h : a.Ahead s id c i)
    (hs : s.Tree a) (hreach : c.function.graph.Reaches i)
    (hnext : c.function.graph.next? i = some j) (hlevel : n.level = c.depth) :
    a.Standing s' id c j n := by
  have hgraph := h.straight.graph
  have hij := hreach.lt_next hgraph.isBuilt hnext
  refine ⟨h.advance hs hadv hij, hadv.poised, .join [n], ⟨List.cons_ne_nil n [], ?_⟩, ?_⟩
  · intro m hm
    rw [List.mem_singleton.1 hm, hlevel]
  · intro r st target _ hsnapshots hst
    refine ⟨?_, yields_takeIn_join n⟩
    have hentry : ¬(j = c.function.graph.entry ∧ id ≠ .main) := by
      rw [hgraph.entry_eq]
      exact fun hj => Nat.ne_of_gt (Nat.zero_lt_of_lt hij) hj.1
    have hview {k : Nat} (hk : k ≠ j) :
        r.viewFrom ⟨id, j⟩ (a.previous r ⟨id, j⟩) ⟨id, k⟩ = s'.view ⟨id, k⟩ := by
      rw [AnalysisState.viewFrom_of_ne _ _ fun heq => hk (Point.mk.inj heq).2,
        view_congr hsnapshots]
    rw [intake?_join hentry hst]
    refine joinIntake_next hgraph hreach hnext ?_ fun k hk hkj => ?_
    · rw [hview (Nat.ne_of_lt hij), hadv.view, if_pos rfl]
    · rw [hview hkj, hadv.view, if_neg fun heq => Nat.ne_of_gt hk (Point.mk.inj heq).2]
      exact (h.unseen k (Nat.le_of_lt hk)).1

/-- The first visit of a node that no call returns to. -/
theorem Standing.visit (h : a.Standing s id c i m) (ha : a.IsStraight)
    (hst : c.function.graph.statement? i = some st) (hplain : st.isCallReturn = false)
    (htarget : a.targetOf { s with worklist := .empty } c.function ⟨id, i⟩ st = .ok (r, target))
    (hg : s.Grows r) (hsnapshots : r.snapshots = s.snapshots)
    (hcalls : ∀ u : Point, u ≠ ⟨id, i⟩ → r.calls[u]? = s.calls[u]?) {I Q : Memory → Prop} (hm : I m)
    (happly : Leads a.config.limits I (a.apply r c.function ⟨id, i⟩ target st) fun _ => Q)
    (hnext : successors r c ⟨id, i⟩ target = waiting.toList) :
    ∃ s' n, a.Advances s ⟨id, i⟩ n waiting s' ∧ s'.contexts = r.contexts ∧ Q n := by
  obtain ⟨x, hfits, harrives⟩ := h.arrives
  obtain ⟨hx, hin⟩ := harrives r st target hg hsnapshots hplain
  obtain ⟨n, hn, hy⟩ := yields_transfer hm hin happly
  obtain ⟨s', hadv, hcontexts⟩ := h.poised.visit ha.program.isBuilt ha.widening
    (h.unseen i (Nat.le_refl i)).1 h.context hst htarget hcalls hx hfits hy hnext
  exact ⟨s', n, hadv, hcontexts, hn⟩

theorem targetOf_eq (hcall : st.isCall = false) (hreturn : st.isCallReturn = false) :
    a.targetOf s f p st = .ok (s, none) := by
  cases st with
  | call name args => cases hcall
  | callReturn result => cases hreturn
  | _ => rfl

theorem targetOf_callReturn {args : List Expression} {result : Option Path}
    (hcallOf : f.graph.callOf? j = some i) (hst : f.graph.statement? i = some (.call name args))
    (hcalled : s.calls[Point.mk id i]? = some id') :
    a.targetOf s f ⟨id, j⟩ (.callReturn result) = .ok (s, some (.context id')) := by
  have hpoint : AnalysisState.callPoint f ⟨id, j⟩ = .ok ⟨id, i⟩ := by
    unfold AnalysisState.callPoint
    rw [hcallOf]
  unfold targetOf
  rw [hpoint]
  dsimp only [bind, Except.bind]
  rw [hst]
  dsimp only
  rw [resolveCall_eq, hcalled]
  rfl

/-- Where control goes on when the function of a context has ended. -/
def resumption (s : AnalysisState) (c : Context) : Option Point :=
  c.caller.bind fun call => ((s.contexts[call.context]?).bind
    (·.function.graph.callReturnOf? call.node)).map (⟨call.context, ·⟩)

theorem successors_exit (hgraph : c.function.graph.IsStraight) :
    successors s c ⟨id, c.function.graph.exit⟩ target = (resumption s c).toList := by
  have hexit := hgraph.isBuilt.statement?_exit
  unfold successors resumption
  dsimp only
  rw [if_pos rfl, hexit]
  cases c.caller with
  | some call => rfl
  | none =>
    change (c.function.graph.successors c.function.graph.exit).map _ = []
    rw [hgraph.successors_eq, Graph.next?_exit hgraph.isBuilt]
    rfl

theorem successors_next (hgraph : c.function.graph.IsStraight)
    (hst : c.function.graph.statement? i = some st) (hcall : st.isCall = false)
    (hne : i ≠ c.function.graph.exit) (hnext : c.function.graph.next? i = some j) :
    successors s c ⟨id, i⟩ target = (some ⟨id, j⟩ : Option Point).toList := by
  have hcall' : ¬(some st).any Statement.isCall = true := by
    rw [Option.any_some, hcall]
    exact Bool.false_ne_true
  unfold successors
  dsimp only
  rw [if_neg hne]
  dsimp only
  rw [hst, if_neg hcall']
  dsimp only
  rw [hgraph.successors_eq, hnext]
  rfl

theorem successors_call (hst : c.function.graph.statement? i = some st) (hcall : st.isCall = true)
    (hne : i ≠ c.function.graph.exit) (hc' : s.contexts[id']? = some c') :
    successors s c ⟨id, i⟩ (some (.context id')) =
      (some ⟨id', c'.function.graph.entry⟩ : Option Point).toList := by
  have hcall' : (some st).any Statement.isCall = true := hcall
  unfold successors
  dsimp only
  rw [if_neg hne]
  dsimp only
  rw [hst, if_pos hcall']
  dsimp only
  rw [hc']
  rfl

/-- The analysis goes on to the node `j` of the same context, with what the interpreter has come to
there. -/
def Proceeds (a : Analysis) (s : AnalysisState) (id : ContextId) (c : Context) (j : Nat)
    (σ : Environment) (returned : Option Scalar) (s' : AnalysisState) : Prop :=
  (∃ k, a.Steps k s s') ∧ s.ChangesOnly id s' ∧
    ∃ n, a.Standing s' id c j n ∧ Mirrors σ c.depth returned n

/-- The analysis comes to the exit of the context, with what the interpreter has come to there. -/
structure Finishes (a : Analysis) (s : AnalysisState) (id : ContextId) (c : Context)
    (σ : Environment) (returned : Option Scalar) (s' : AnalysisState) : Prop where
  steps : ∃ k, a.Steps k s s'
  poised : a.Poised s' (resumption s' c)
  changes : s.ChangesOnly id s'
  exit : ∃ n, s'.view ⟨id, c.function.graph.exit⟩ = some n ∧ Mirrors σ c.depth returned n

theorem Finishes.after (hsteps : ∃ k, a.Steps k s r) (hchanges : s.ChangesOnly id r)
    (h : a.Finishes r id c σ returned s') : a.Finishes s id c σ returned s' := by
  obtain ⟨j, hj⟩ := hsteps
  obtain ⟨k, hk⟩ := h.steps
  exact ⟨⟨j + k, hj.trans hk⟩, h.poised, hchanges.trans h.changes (.inl rfl), h.exit⟩

theorem Standing.proceeds (h : a.Standing s id c i m) (ha : a.IsStraight)
    (hreach : c.function.graph.Reaches i) (hst : c.function.graph.statement? i = some st)
    (hcall : st.isCall = false) (hplain : st.isCallReturn = false)
    (hnext : c.function.graph.next? i = some j)
    (hm : Mirrors σ c.depth none m)
    (happly : ∀ r, Leads a.config.limits (Mirrors σ c.depth none)
      (a.apply r c.function ⟨id, i⟩ none st) fun _ => Mirrors τ c.depth returned) :
    ∃ s', a.Proceeds s id c j τ returned s' := by
  have hgraph := h.straight.graph
  have hne : i ≠ c.function.graph.exit := by
    rintro rfl
    rw [Graph.next?_exit hgraph.isBuilt] at hnext
    cases hnext
  obtain ⟨s', n, hadv, -, hn⟩ := h.visit ha hst hplain (targetOf_eq hcall hplain)
    (AnalysisState.grows_of_eq rfl) rfl (fun _ _ => rfl) hm (happly _)
    (successors_next hgraph hst hcall hne hnext)
  exact ⟨s', ⟨1, hadv.steps⟩, hadv.changesOnly, n,
    hadv.standing h.toAhead h.poised.invariant.tree hreach hnext hn.level_eq, hn⟩

theorem Standing.finishes (h : a.Standing s id c c.function.graph.exit m) (ha : a.IsStraight)
    (hm : Mirrors σ c.depth returned m) : ∃ s', a.Finishes s id c σ returned s' := by
  have hgraph := h.straight.graph
  obtain ⟨s', n, hadv, hcontexts, hn⟩ := h.visit ha hgraph.isBuilt.statement?_exit rfl
    (targetOf_eq rfl rfl) (AnalysisState.grows_of_eq rfl) rfl (fun _ _ => rfl) hm
    (leads_apply_idle (.inr (.inr rfl))) (successors_exit hgraph)
  have hresumption : resumption s' c = resumption s c := by
    unfold resumption
    rw [hcontexts]
  refine ⟨s', ⟨1, hadv.steps⟩, ?_, hadv.changesOnly, n, ?_, hn⟩
  · rw [hresumption]
    exact hadv.poised
  · rw [hadv.view, if_pos rfl]

/-- Any statement but a call, a return and the exit leads to the node that is listed next. -/
theorem Standing.next (h : a.Standing s id c i m) (ha : a.IsStraight)
    (hreach : c.function.graph.Reaches i) (hst : c.function.graph.statement? i = some st)
    (hcall : st.isCall = false) (hplain : st.isCallReturn = false) (hexit : st ≠ .exit)
    (hreturn : ∀ value, st ≠ .returnValue value) (hm : Mirrors σ c.depth none m)
    (happly : ∀ r, Leads a.config.limits (Mirrors σ c.depth none)
      (a.apply r c.function ⟨id, i⟩ none st) fun _ => Mirrors τ c.depth none) :
    c.function.graph.Reaches (i + 1) ∧
      (∀ st', c.function.graph.statement? (i + 1) = some st' → st'.isCallReturn = false) ∧
      ∃ s', a.Proceeds s id c (i + 1) τ none s' := by
  have hgraph := h.straight.graph
  have hnext := hreach.next?_eq hgraph.isBuilt hst hexit hreturn
  exact ⟨hreach.succ hnext, fun st' hst' => hgraph.isCallReturn_eq_false hnext hst hcall hst',
    h.proceeds ha hreach hst hcall hplain hnext hm happly⟩

/-- A return leads to the exit. -/
theorem Standing.returns {value : Option Expression} (h : a.Standing s id c i m)
    (ha : a.IsStraight) (hreach : c.function.graph.Reaches i)
    (hst : c.function.graph.statement? i = some (.returnValue value))
    (hvalue : value.all Expression.isPlain = true) (hm : Mirrors σ c.depth none m) :
    ∃ s', a.Finishes s id c σ (Expression.returned σ c.depth value) s' := by
  obtain ⟨r, hsteps, hchanges, n, hstanding, hn⟩ := h.proceeds ha hreach hst rfl rfl
    (Graph.next?_returnValue hst) hm fun _ => leads_apply_returnValue ha.admits hvalue
  obtain ⟨s', hfinishes⟩ := hstanding.finishes ha hn
  exact ⟨s', hfinishes.after hsteps hchanges⟩

/-- A call of a function that is not running, and not nested too deep, may be entered. -/
theorem Ahead.verdict_eq (h : a.Ahead s id c i)
    (hname : name ∈ Statement.callees c.function.statements)
    (hf : a.program.function? name = some f) (hacyclic : ¬TransGen a.program.Calls f f)
    (hdepth : c.depth + 1 ≤ a.config.maxCallDepth) :
    a.verdict s ⟨id, i⟩ name =
      .ok { function := f, caller := some ⟨id, i⟩, depth := c.depth + 1 } := by
  obtain ⟨rest, hchain⟩ := AnalysisState.chain_eq_cons h.context
  have hfree : (s.chain s.contexts.length id).any (·.function.name = name) = false := by
    rw [List.any_eq_false]
    intro c' hc' heq
    obtain ⟨hfunction, hcalls⟩ := h.lineage c' hc'
    rw [of_decide_eq_true heq, hf, Option.some.injEq] at hfunction
    -- the function runs already, so it leads to itself
    rw [← hfunction] at hcalls
    exact hacyclic (TransGen.tail' hcalls ⟨name, hname, hf⟩)
  unfold verdict
  rw [hf]
  dsimp only
  rw [hfree, hchain]
  exact (if_neg Bool.false_ne_true).trans (if_neg (Nat.not_lt.2 hdepth))

/-- Nothing of a context that was just entered has been visited. -/
theorem Ahead.callee (h : a.Ahead s id c i) (hpoised : a.Poised s (some ⟨id, i⟩))
    (hadv : a.Advances s ⟨id, i⟩ n waiting s') (hcontexts : s'.contexts = s.contexts ++ [c'])
    (hcaller : c'.caller = some ⟨id, i⟩) (hstraight : c'.function.IsStraight)
    (hcalls : a.program.Calls c.function c'.function)
    (hfunction : a.program.function? c'.function.name = some c'.function) :
    a.Ahead s' s.contexts.length c' 0 := by
  have hlt := AnalysisState.lt_length h.context
  have hne (k : Nat) : (⟨s.contexts.length, k⟩ : Point) ≠ ⟨id, i⟩ := by
    intro heq
    exact Nat.ne_of_gt hlt (Point.mk.inj heq).1
  have hc' : s'.contexts[s.contexts.length]? = some c' := by
    rw [hcontexts]
    exact List.getElem?_concat_length
  refine ⟨hc', hstraight, fun k _ => ?_, ?_⟩
  · rw [hadv.view, if_neg (hne k), hadv.calls _ (hne k)]
    exact hpoised.unseen (u := ⟨s.contexts.length, k⟩) (Nat.le_refl _)
  · -- the callers are the context of the call and its callers
    have hlength : s'.contexts.length = s.contexts.length + 1 := by
      rw [hcontexts, List.length_append]
      rfl
    have hchain : s'.chain s'.contexts.length s.contexts.length =
        c' :: s.chain s.contexts.length id := by
      rw [hlength, AnalysisState.chain, hc']
      dsimp only
      rw [hcaller, Option.map_some, Option.getD_some,
        AnalysisState.chain_eq hpoised.invariant.tree hadv.grows h.context hlt hlt]
    rw [hchain]
    intro c'' hmem
    rcases List.mem_cons.1 hmem with rfl | hmem
    · exact ⟨hfunction, .refl⟩
    · obtain ⟨hf, hlead⟩ := h.lineage c'' hmem
      exact ⟨hf, hlead.tail hcalls⟩

/-- The entry of a function takes in what its call left, with the parameters bound. -/
theorem arrives_entry {args : List Expression} (hlimits : a.config.limits.Admits)
    (hstraight : c'.function.IsStraight) (hargs : args.all Expression.isPlain = true)
    (hid : id' ≠ .main) (hne : id ≠ id') (hcaller : c'.caller = some ⟨id, i⟩)
    (hdepth : c'.depth = c.depth + 1) (hc : s.contexts[id]? = some c)
    (hst : c.function.graph.statement? i = some (.call name args))
    (hview : s.view ⟨id, i⟩ = some n) (hn : Mirrors σ c.depth none n) :
    ∃ m, a.Arrives s c' ⟨id', 0⟩ m ∧
      Mirrors (σ.enter c.depth c'.function.params args) c'.depth none m := by
  rw [hdepth]
  obtain ⟨m, hm, hy⟩ := yields_takeIn_call (a := a) (s := s) hlimits hn hcaller hc hst
    hstraight.params hargs
  refine ⟨m, ⟨.call n, ?_, fun r st target hg hsnapshots _ => ⟨?_, fun before => ?_⟩⟩, hm⟩
  · change n.level + 1 = c'.depth
    rw [hn.level_eq, hdepth]
  · rw [intake?_entry ⟨hstraight.graph.entry_eq.symm, hid⟩, hcaller, Option.bind_some,
      AnalysisState.viewFrom_of_ne _ _ fun heq => hne (Point.mk.inj heq).1, view_congr hsnapshots,
      hview]
    rfl
  · have hsame : a.bindParameters r c' = a.bindParameters s c' :=
      bindParameters_congr hcaller ((hg _ _ hc).trans hc.symm)
    unfold takeIn
    rw [hsame]
    exact hy st before

/-- A call leads to the entry of the function. -/
theorem Standing.enters {args : List Expression} (h : a.Standing s id c i m)
    (ha : a.IsStraight) (hst : c.function.graph.statement? i = some (.call name args))
    (hargs : args.all Expression.isPlain = true)
    (hname : name ∈ Statement.callees c.function.statements)
    (hf : a.program.function? name = some f) (hacyclic : ¬TransGen a.program.Calls f f)
    (hdepth : c.depth + 1 ≤ a.config.maxCallDepth) (hm : Mirrors σ c.depth none m) :
    ∃ s' m', a.Steps 1 s s' ∧ s.ChangesOnly id s' ∧ a.Ahead s' id c (i + 1) ∧
      a.Standing s' s.contexts.length ⟨f, some ⟨id, i⟩, c.depth + 1⟩ 0 m' ∧
      Mirrors (σ.enter c.depth f.params args) (c.depth + 1) none m' := by
  let c' : Context := ⟨f, some ⟨id, i⟩, c.depth + 1⟩
  let s₀ : AnalysisState := { s with worklist := .empty }
  have htree := h.poised.invariant.tree
  have hlt := AnalysisState.lt_length h.context
  have hstraight := ha.program.functions name f hf
  have hexit : i ≠ c.function.graph.exit := by
    rintro rfl
    rw [h.straight.graph.isBuilt.statement?_exit] at hst
    cases hst
  have hverdict : a.verdict s₀ ⟨id, i⟩ name = .ok c' := by
    have hg : s.Grows s₀ := AnalysisState.grows_of_eq rfl
    have hctx : s.contexts[(Point.mk id i).context]? = some c := h.context
    rw [AnalysisState.verdict_eq htree hg hctx]
    exact h.verdict_eq hname hf hacyclic hdepth
  have htarget : a.targetOf s₀ c.function ⟨id, i⟩ (.call name args) =
      .ok (enter s₀ ⟨id, i⟩ c', some (.context s.contexts.length)) := by
    have hnew : s₀.calls[Point.mk id i]? = none := (h.unseen i (Nat.le_refl i)).2
    unfold targetOf
    dsimp only
    rw [resolveCall_eq, hnew, hverdict]
  have hcalls (u : Point) (hu : u ≠ ⟨id, i⟩) :
      (enter s₀ ⟨id, i⟩ c').calls[u]? = s.calls[u]? := by
    unfold enter
    dsimp only
    rw [ExtTreeMap.getElem?_insert]
    exact if_neg fun heq => hu (LawfulEqCmp.compare_eq_iff_eq.1 heq).symm
  have hcallee : (enter s₀ ⟨id, i⟩ c').contexts[s.contexts.length]? = some c' :=
    List.getElem?_concat_length
  obtain ⟨s', n, hadv, hcontexts, hn⟩ := h.visit ha hst rfl htarget
    (AnalysisState.grows_enter s₀ _ c') rfl hcalls hm (leads_apply_call hargs)
    (successors_call hst rfl hexit hcallee)
  have hview : s'.view ⟨id, i⟩ = some n := by rw [hadv.view, if_pos rfl]
  have hentry : ∃ m', a.Arrives s' c' ⟨s.contexts.length, 0⟩ m' ∧
      Mirrors (σ.enter c.depth f.params args) c'.depth none m' :=
    arrives_entry ha.admits hstraight hargs (Nat.ne_of_gt (Nat.zero_lt_of_lt hlt))
      (Nat.ne_of_lt hlt) rfl rfl (hadv.grows _ _ h.context) hst hview hn
  obtain ⟨m', harrives, hm'⟩ := hentry
  have hahead : a.Ahead s' s.contexts.length c' 0 :=
    h.callee h.poised hadv hcontexts rfl hstraight ⟨name, hname, hf⟩
      (by rw [ha.program.named name f hf, hf])
  have hpoised := hadv.poised
  rw [hstraight.graph.entry_eq] at hpoised
  exact ⟨s', m', hadv.steps, hadv.changesOnly, h.advance htree hadv (Nat.lt_succ_self i),
    ⟨hahead, hpoised, harrives⟩, hm'⟩

/-- The end of a function leads behind its call. -/
theorem Finishes.returns {args : List Expression} {result : Option Path}
    (h : a.Finishes s id' c' σ returned s') (ha : a.IsStraight)
    (hahead : a.Ahead s' id c (i + 1)) (hreach : c.function.graph.Reaches i)
    (hst : c.function.graph.statement? i = some (.call name args))
    (hreturn : c.function.graph.statement? (i + 1) = some (.callReturn result))
    (hresult : result.all Path.isVariable = true) (hc' : s'.contexts[id']? = some c')
    (hcaller : c'.caller = some ⟨id, i⟩) (hdepth : c'.depth = c.depth + 1) (hne : id' ≠ id) :
    ∃ r, a.Proceeds s' id c (i + 1 + 1) (σ.leave c.depth result returned) none r := by
  let s₀ : AnalysisState := { s' with worklist := .empty }
  have hgraph := hahead.straight.graph
  have hbuilt := hgraph.isBuilt
  obtain ⟨-, hnext, -⟩ := hgraph.next?_call hst
  have hreach' := hreach.succ hnext
  have hnext' : c.function.graph.next? (i + 1) = some (i + 1 + 1) :=
    hreach'.next?_eq hbuilt hreturn (by simp) (by simp)
  have hexit : i + 1 ≠ c.function.graph.exit := by
    intro heq
    rw [heq, Graph.next?_exit hbuilt] at hnext'
    cases hnext'
  have hcallOf : c.function.graph.callOf? (i + 1) = some i :=
    (hbuilt.callOf?_eq hreturn (hgraph.mem_edges.2 hnext)).1
  have hpoised : a.Poised s' (some ⟨id, i + 1⟩) := by
    have hresumption : resumption s' c' = some ⟨id, i + 1⟩ := by
      unfold resumption
      rw [hcaller, Option.bind_some, hahead.context, Option.bind_some,
        hbuilt.callReturnOf?_iff.2 hcallOf]
      rfl
    rw [← hresumption]
    exact h.poised
  have hcalled : s₀.calls[Point.mk id i]? = some id' :=
    (hpoised.invariant.tree.calls ⟨id, i⟩ id').2 ⟨c', hc', hcaller⟩
  -- what is taken in is the end of the function
  obtain ⟨k, hk, hmirrors⟩ := h.exit
  rw [hdepth] at hmirrors
  have hx : intake? s₀.contexts c ⟨id, i + 1⟩ (.callReturn result) (some (.context id'))
      (s₀.viewFrom ⟨id, i + 1⟩ (a.previous s₀ ⟨id, i + 1⟩)) = some (.callReturn k) := by
    have hentry : ¬(i + 1 = c.function.graph.entry ∧ id ≠ .main) := by
      rw [hgraph.entry_eq]
      exact fun hj => Nat.succ_ne_zero i hj.1
    rw [intake?_callReturn hentry rfl hc',
      AnalysisState.viewFrom_of_ne _ _ fun heq => hne (Point.mk.inj heq).1]
    exact congrArg (Option.map Intake.callReturn) hk
  obtain ⟨n, hn, hin⟩ := yields_takeIn_callReturn (a := a) (s := s₀) (c := c) ha.admits hmirrors
    hresult
  obtain ⟨n', hn', hy⟩ := yields_transfer hn hin
    (leads_apply_callReturn (f := c.function) (p := ⟨id, i + 1⟩) id')
  have hfits : (Intake.callReturn k).Fits c.depth := hmirrors.level_eq
  obtain ⟨r, hadv, -⟩ := hpoised.visit ha.program.isBuilt ha.widening
    (hahead.unseen (i + 1) (Nat.le_refl _)).1 hahead.context hreturn
    (targetOf_callReturn hcallOf hst hcalled) (fun _ _ => rfl) hx hfits hy
    (successors_next hgraph hreturn rfl hexit hnext')
  exact ⟨r, ⟨1, hadv.steps⟩, hadv.changesOnly, n',
    hadv.standing hahead hpoised.invariant.tree hreach' hnext' hn'.level_eq, hn'⟩

/-- From the entry of a function the analysis goes along with the interpreter, if the calls of the
function nest at most `d` deep. -/
def Interprets (a : Analysis) (d : Nat) : Prop :=
  ∀ (s : AnalysisState) (id : ContextId) (c : Context) (m : Memory) (σ : Environment),
    a.Standing s id c 0 m → Mirrors σ c.depth none m → a.program.Nests d c.function →
    c.depth + d ≤ a.config.maxCallDepth →
    ∃ τ returned s',
      Statement.interpret (a.program.call d c.depth) c.depth c.function.statements σ =
        some (τ, returned) ∧ a.Finishes s id c τ returned s'

/-- The analysis goes along with a call. -/
theorem Standing.call {args : List Expression} {result : Option Path} {rest : List Statement}
    (h : a.Standing s id c i m) (ha : a.IsStraight) (hreach : c.function.graph.Reaches i)
    (hrest : c.function.statements.drop i = .call name args :: .callReturn result :: rest)
    (hname : name ∈ Statement.callees c.function.statements)
    (hnests : a.program.Nests d c.function) (hdepth : c.depth + d ≤ a.config.maxCallDepth)
    (hcallees : ∀ e, d = e + 1 → a.Interprets e) (hm : Mirrors σ c.depth none m) :
    c.function.statements.drop (i + 1 + 1) = rest ∧ c.function.graph.Reaches (i + 1 + 1) ∧
      (∀ st', c.function.graph.statement? (i + 1 + 1) = some st' → st'.isCallReturn = false) ∧
      ∃ τ s', a.program.call d c.depth name args result σ = some τ ∧
        a.Proceeds s id c (i + 1 + 1) τ none s' := by
  have hgraph := h.straight.graph
  have hne := Nat.ne_of_gt (AnalysisState.lt_length h.context)
  obtain ⟨hst, hrest'⟩ := Function.drop_statements hrest
  obtain ⟨hreturn, hrest''⟩ := Function.drop_statements hrest'
  obtain ⟨-, hnext, -⟩ := hgraph.next?_call hst
  have hnext' := (hreach.succ hnext).next?_eq hgraph.isBuilt hreturn (by simp) (by simp)
  refine ⟨hrest'', (hreach.succ hnext).succ hnext', fun st' hst' =>
    hgraph.isCallReturn_eq_false hnext' hreturn rfl hst', ?_⟩
  -- into the function, through it and back
  obtain ⟨e, f, rfl, hf, hnests'⟩ := hnests.callee hname
  obtain ⟨r, m', hsteps, hchanges, hahead, hstanding, hm'⟩ := h.enters ha hst
    (h.straight.of_drop hrest) hname hf hnests'.acyclic (by omega) hm
  obtain ⟨τ, returned, t, hrun, hfinishes⟩ := hcallees e rfl _ _ _ _ _ hstanding hm' hnests' (by
    dsimp only
    omega)
  have hahead' := hahead.changesOnly hstanding.poised.invariant.tree hfinishes.changes hne.symm
  obtain ⟨s', ⟨k, hk⟩, hchanges', n, hend⟩ := hfinishes.returns ha hahead' hreach hst hreturn
    (h.straight.of_drop hrest') (hfinishes.changes.grows _ _ hstanding.context) rfl rfl hne
  obtain ⟨j, hj⟩ := hfinishes.steps
  refine ⟨_, s', ?_, ⟨1 + (j + k), hsteps.trans (hj.trans hk)⟩, ?_, n, hend⟩
  · unfold Program.call
    rw [hf]
    dsimp only [bind, Option.bind]
    rw [hrun]
    rfl
  · exact (hchanges.trans hfinishes.changes (.inr (Nat.le_refl _))).trans hchanges' (.inl rfl)

/-- From any node of a function the analysis goes along with the interpreter. -/
theorem Standing.interpret (ha : a.IsStraight) (hcallees : ∀ e, d = e + 1 → a.Interprets e)
    (hnests : a.program.Nests d c.function) (hdepth : c.depth + d ≤ a.config.maxCallDepth)
    {rest : List Statement} (hrest : c.function.statements.drop i = rest)
    (hcalled : ∀ name ∈ Statement.callees rest, name ∈ Statement.callees c.function.statements)
    (hreach : c.function.graph.Reaches i)
    (hplain : ∀ st, c.function.graph.statement? i = some st → st.isCallReturn = false)
    (h : a.Standing s id c i m) (hm : Mirrors σ c.depth none m) :
    ∃ τ returned s', Statement.interpret (a.program.call d c.depth) c.depth rest σ =
      some (τ, returned) ∧ a.Finishes s id c τ returned s' := by
  have hstraight := h.straight
  have hgraph := hstraight.graph
  have hbuilt := hgraph.isBuilt
  -- by induction along the interpreter
  induction rest, σ using Statement.interpret.induct (a.program.call d c.depth) c.depth
    generalizing s i m with
  | case1 tail σ =>
    -- the exit
    obtain ⟨hst, -⟩ := Function.drop_statements hrest
    obtain rfl := hbuilt.eq_exit hst
    obtain ⟨s', hfinishes⟩ := h.finishes ha hm
    exact ⟨σ, none, s', by rw [Statement.interpret], hfinishes⟩
  | case2 value tail σ =>
    -- a return
    obtain ⟨hst, -⟩ := Function.drop_statements hrest
    obtain ⟨s', hfinishes⟩ := h.returns ha hreach hst (hstraight.of_drop hrest) hm
    exact ⟨σ, Expression.returned σ c.depth value, s', by rw [Statement.interpret], hfinishes⟩
  | case3 rest σ ih =>
    -- a statement that does nothing
    obtain ⟨hst, hrest'⟩ := Function.drop_statements hrest
    obtain ⟨hreach', hplain', r, hsteps, hchanges, n, hstanding, hn⟩ := h.next ha hreach hst rfl
      rfl (by simp) (by simp) hm fun _ => leads_apply_idle (.inl rfl)
    obtain ⟨τ, returned, s', hrun, hfinishes⟩ := ih hrest' hcalled hreach' hplain' hstanding hn
    exact ⟨τ, returned, s', by rw [Statement.interpret, hrun], hfinishes.after hsteps hchanges⟩
  | case4 rest σ ih =>
    -- the start of a function
    obtain ⟨hst, hrest'⟩ := Function.drop_statements hrest
    obtain ⟨hreach', hplain', r, hsteps, hchanges, n, hstanding, hn⟩ := h.next ha hreach hst rfl
      rfl (by simp) (by simp) hm fun _ => leads_apply_idle (.inr (.inl rfl))
    obtain ⟨τ, returned, s', hrun, hfinishes⟩ := ih hrest' hcalled hreach' hplain' hstanding hn
    exact ⟨τ, returned, s', by rw [Statement.interpret, hrun], hfinishes.after hsteps hchanges⟩
  | case5 p e rest σ ih =>
    -- an assignment
    obtain ⟨hst, hrest'⟩ := Function.drop_statements hrest
    obtain ⟨hpath, hvalue⟩ := Bool.and_eq_true_iff.1 (hstraight.of_drop hrest)
    obtain ⟨hreach', hplain', r, hsteps, hchanges, n, hstanding, hn⟩ := h.next ha hreach hst rfl
      rfl (by simp) (by simp) hm fun _ => leads_apply_assign ha.admits hpath hvalue
    obtain ⟨τ, returned, s', hrun, hfinishes⟩ := ih hrest' hcalled hreach' hplain' hstanding hn
    exact ⟨τ, returned, s', by rw [Statement.interpret, hrun], hfinishes.after hsteps hchanges⟩
  | case6 name args result rest σ τ hcall ih =>
    -- a call
    obtain ⟨hrest', hreach', hplain', τ', r, hcall', hsteps, hchanges, n, hstanding, hn⟩ :=
      h.call ha hreach hrest (hcalled name List.mem_cons_self) hnests hdepth hcallees hm
    obtain rfl := Option.some.inj (hcall.symm.trans hcall')
    obtain ⟨υ, returned, s', hrun, hfinishes⟩ := ih hrest'
      (fun name hname => hcalled name (List.mem_cons_of_mem _ hname)) hreach' hplain' hstanding hn
    refine ⟨υ, returned, s', ?_, hfinishes.after hsteps hchanges⟩
    rw [Statement.interpret, hcall]
    exact hrun
  | case7 name args result rest σ hcall =>
    -- every call comes to an end
    obtain ⟨-, -, -, τ, -, hcall', -⟩ :=
      h.call ha hreach hrest (hcalled name List.mem_cons_self) hnests hdepth hcallees hm
    rw [hcall] at hcall'
    cases hcall'
  | case8 rest σ hexit hreturn hnop henter hassign hcall =>
    -- nothing else is in a straight line
    cases rest with
    | nil =>
      obtain ⟨rest, hlast⟩ := Function.exists_drop_statements hbuilt.statement?_exit
      have hlength := Nat.le_trans (List.drop_eq_nil_iff.1 hrest) (hreach.le_exit hbuilt)
      rw [List.drop_eq_nil_of_le hlength] at hlast
      cases hlast
    | cons st rest =>
      obtain ⟨hst, hrest'⟩ := Function.drop_statements hrest
      have hstraight' := hstraight.of_drop hrest
      exfalso
      cases st with
      | nop => exact hnop _ rfl
      | enter => exact henter _ rfl
      | exit => exact hexit _ rfl
      | assign p e => exact hassign p e _ rfl
      | returnValue value => exact hreturn value _ rfl
      | callReturn result => cases hplain _ hst
      | call name args =>
        obtain ⟨result, -, hreturn'⟩ := hgraph.next?_call hst
        obtain ⟨rest', hrest''⟩ := Function.exists_drop_statements hreturn'
        rw [hrest'] at hrest''
        exact hcall name args result rest' (by rw [hrest''])
      | _ => cases hstraight'

/-- From the entry of any function the analysis goes along with the interpreter. -/
theorem IsStraight.interprets (ha : a.IsStraight) (d : Nat) : a.Interprets d := by
  have hentry {d : Nat} (hcallees : ∀ e, d = e + 1 → a.Interprets e) : a.Interprets d := by
    intro s id c m σ h hm hnests hdepth
    exact h.interpret ha hcallees hnests hdepth List.drop_zero (fun _ h => h) (Graph.reaches_zero _)
      (fun st hst => h.straight.graph.isCallReturn_zero hst) hm
  -- what is called nests less deep
  induction d with
  | zero =>
    apply hentry
    rintro e he
    cases he
  | succ d ih =>
    apply hentry
    rintro e he
    cases he
    exact ih

theorem standing_initialState {main : Function} (hmain : a.program.main = .ok main)
    (hname : a.program.function? main.name = some main) (hstraight : main.IsStraight) :
    a.Standing (initialState main .empty) .main ⟨main, none, 0⟩ 0 .initial := by
  have hgraph := hstraight.graph
  have hempty := Worklist.consistent_empty
  refine ⟨⟨rfl, hstraight, fun k _ => ⟨view_initialState main .empty _, ?_⟩, ?_⟩,
    ⟨invariant_initialState hmain hempty, hempty.push _, ?_⟩, ?_⟩
  · exact ExtTreeMap.getElem?_empty
  · intro c' hc'
    obtain rfl := List.mem_singleton.1 hc'
    exact ⟨hname, .refl⟩
  · have hqueue := queue_pushAll (some ⟨.main, main.graph.entry⟩)
    rw [hgraph.entry_eq] at hqueue
    unfold initialState
    rw [hgraph.entry_eq]
    exact hqueue
  · refine ⟨.join [.initial], ⟨List.cons_ne_nil _ [], ?_⟩, fun r st target _ hsnapshots hst =>
      ⟨?_, yields_takeIn_join _⟩⟩
    · intro m hm
      rw [List.mem_singleton.1 hm]
      rfl
    · have hbefore : (main.graph.predecessors 0).filterMap (fun node =>
          r.viewFrom ⟨.main, 0⟩ (a.previous r ⟨.main, 0⟩) ⟨.main, node⟩) = [] := by
        rw [List.filterMap_eq_nil_iff]
        intro k hk
        have hne : k ≠ 0 := by
          rintro rfl
          exact Graph.next?_ne hgraph.isBuilt 0 (hgraph.mem_edges.1 (Graph.mem_predecessors.1 hk))
        rw [AnalysisState.viewFrom_of_ne _ _ fun heq => hne (Point.mk.inj heq).2,
          view_congr hsnapshots, view_initialState]
      rw [intake?_join (fun h => h.2 rfl) hst]
      unfold joinIntake
      dsimp only
      rw [hbefore, if_pos hgraph.entry_eq.symm]
      rfl

/-- On straight-line programs the analysis is an interpreter: with the default limits and enough
steps it ends, and at the end of the script every global variable is read as exactly what it
holds. -/
theorem run_interprets {P : Program} {depth : Nat} (h : P.IsStraight depth) :
    ∃ σ steps, P.interpret depth = some σ ∧ ∀ maxSteps, steps ≤ maxSteps → ∃ rep t,
      (Analysis.mk P { maxSteps, maxCallDepth := depth }).run .empty = .ok rep ∧
        rep.exit? = some t ∧ ∀ name,
          t.memory.read ⟨.global, name, []⟩ = .ofContent (σ.read (.ofVariable name .global)) := by
  let a : Analysis := ⟨P, { maxSteps := 0, maxCallDepth := depth }⟩
  obtain ⟨main, hmain, hnests⟩ := h.main
  have hfunction := Program.function?_of_main hmain
  have hname : P.function? main.name = some main := by
    rw [h.named _ main hfunction]
    exact hfunction
  have ha : a.IsStraight := ⟨h, fun v => Entry.fits_ofValue v (by decide), rfl⟩
  have hstanding : a.Standing (initialState main .empty) .main ⟨main, none, 0⟩ 0 .initial :=
    standing_initialState hmain hname (h.functions _ main hfunction)
  obtain ⟨σ, returned, s, hrun, hfinishes⟩ := ha.interprets depth _ _ _ _ _ hstanding
    mirrors_initial hnests (Nat.le_of_eq (Nat.zero_add depth))
  obtain ⟨k, hsteps⟩ := hfinishes.steps
  obtain ⟨n, hexit, hmirrors⟩ := hfinishes.exit
  refine ⟨σ, k, ?_, fun maxSteps hle => ?_⟩
  · have hrun' : Statement.interpret (P.call depth 0) 0 main.statements .blank =
        some (σ, returned) := hrun
    unfold Program.interpret
    rw [hfunction]
    dsimp only [bind, Option.bind]
    rw [hrun']
    rfl
  · let b : Analysis := ⟨P, { maxSteps, maxCallDepth := depth }⟩
    have hstep (s : AnalysisState) (p : Point) : b.step s p = a.step s p := rfl
    have hsteps' : b.Steps k (initialState main .empty) s := hsteps.congr hstep
    have hdrive := hsteps'.drive_eq (Worklist.pop?_eq_none.2 hfinishes.poised.queue) hle 0
    obtain ⟨snapshots, hfreeze⟩ := freezeAll_isOk fun p t ht =>
      (hfinishes.poised.invariant.rests p t ht).2.1
    obtain ⟨t, ht, rfl⟩ := Option.map_eq_some_iff.1 hexit
    refine ⟨⟨s.contexts, snapshots, 0 + k⟩, { t with phase := .frozen }, ?_, ?_, fun name => ?_⟩
    · have hmain' : b.program.main = .ok main := hmain
      rw [run_eq hmain']
      change (b.drive maxSteps 0 (initialState main .empty)).bind _ = _
      rw [hdrive]
      change (freezeAll s.snapshots).bind _ = _
      rw [hfreeze]
      rfl
    · have hroot : s.contexts.head? = some ⟨main, none, 0⟩ := by
        rw [List.head?_eq_getElem?]
        exact hfinishes.changes.grows _ _ hstanding.context
      unfold Report.exit? Report.main?
      dsimp only
      rw [hroot]
      dsimp only [Option.map_some, Option.bind_some]
      rw [freezeAll_ok hfreeze, ht]
      rfl
    · exact hmirrors.readAt_eq rfl _

end Analysis

namespace Sample

/-- A body that writes to a variable of its caller's caller. -/
def setting : Graph where
  nodes := [⟨0, .enter⟩, ⟨1, .assign (.ofVariable "cell") (.read (.ofVariable "value"))⟩,
    ⟨2, .exit⟩]
  edges := [(0, 1), (1, 2)]
  entry := 0
  exit := 2

/-- A body that hands its parameter on and returns what was written to it. -/
def handing : Graph where
  nodes := [⟨0, .call "set" [.read (.ofVariable "cell"), .literal (.integer 2)]⟩,
    ⟨1, .callReturn none⟩, ⟨2, .returnValue (some (.read (.ofVariable "cell")))⟩, ⟨3, .exit⟩]
  edges := [(0, 1), (1, 2), (2, 3)]
  entry := 0
  exit := 3

/-- A script that passes a variable by reference through two calls. -/
def handOn : Program :=
  ((Program.withFunction {} ⟨"set", [⟨"cell", true⟩, ⟨"value", false⟩], setting⟩).withFunction
    ⟨"hand", [⟨"cell", true⟩], handing⟩).withFunction
      ⟨"main", [], calling "hand" (.read (.ofVariable "number"))⟩

theorem isStraight_setting : setting.IsStraight :=
  ⟨setting.nodes.map fun n => ⟨n.label, n.statement, none⟩, by decide, by decide⟩

theorem isStraight_handing : handing.IsStraight :=
  ⟨handing.nodes.map fun n => ⟨n.label, n.statement, none⟩, by decide, by decide⟩

theorem isStraight_calling (name : String) (argument : Expression) :
    (calling name argument).IsStraight := by
  refine ⟨(calling name argument).nodes.map fun n => ⟨n.label, n.statement, none⟩, ?_, rfl⟩
  intro n hn
  obtain ⟨-, -, rfl⟩ := List.mem_map.1 hn
  rfl

theorem isStraight_handOn : handOn.IsStraight 2 where
  named := ((Program.isNamed_empty.withFunction _).withFunction _).withFunction _
  functions := Program.forall_withFunction ⟨by decide, isStraight_calling _ _, by decide⟩
    (Program.forall_withFunction ⟨by decide, isStraight_handing, by decide⟩
      (Program.forall_withFunction ⟨by decide, isStraight_setting, by decide⟩ Program.forall_empty))
  main := by
    refine ⟨_, Program.main_withFunction _ rfl, ?_⟩
    intro name hname
    obtain rfl : name = "hand" := List.mem_singleton.1 hname
    refine ⟨⟨"hand", [⟨"cell", true⟩], handing⟩, by decide, ?_⟩
    intro name hname
    obtain rfl : name = "set" := List.mem_singleton.1 hname
    exact ⟨⟨"set", [⟨"cell", true⟩, ⟨"value", false⟩], setting⟩, by decide, rfl⟩

end Sample

namespace Analysis

set_option maxRecDepth 20000 in
/-- The variable is created, written to two calls further in, and read from there. -/
theorem run_interprets_handOn : Sample.handOn.IsStraight 2 ∧ ∃ steps, ∀ maxSteps, steps ≤ maxSteps →
    ∃ rep t, (Analysis.mk Sample.handOn { maxSteps, maxCallDepth := 2 }).run .empty = .ok rep ∧
      rep.exit? = some t ∧
      t.memory.read ⟨.global, "number", []⟩ = .ofContent (some (.integer 2)) ∧
      t.memory.read ⟨.global, "result", []⟩ = .ofContent (some (.integer 2)) := by
  obtain ⟨σ, steps, hσ, hrun⟩ := run_interprets Sample.isStraight_handOn
  have hread : (Sample.handOn.interpret 2).map (fun σ =>
      (σ.read (.ofVariable "number" .global), σ.read (.ofVariable "result" .global))) =
        some (some (.integer 2), some (.integer 2)) := by
    decide +kernel
  rw [hσ, Option.map_some, Option.some.injEq, Prod.mk.injEq] at hread
  refine ⟨Sample.isStraight_handOn, steps, fun maxSteps hle => ?_⟩
  obtain ⟨rep, t, hrep, ht, hall⟩ := hrun maxSteps hle
  exact ⟨rep, t, hrep, ht, by rw [hall, hread.1], by rw [hall, hread.2]⟩

end Analysis
end ScriptMemory
