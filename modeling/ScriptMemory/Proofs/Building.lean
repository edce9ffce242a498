import Mathlib.Data.List.Induction
import ScriptMemory.Proofs.Graph

/-! What the builder of graphs accepts, and what it makes of it. Its checks are on positions, which
the labels stand for; where no label is repeated, they say the same of the labels. -/
namespace ScriptMemory.Graph

/-- A call of the builder. -/
inductive Builder.Call where
  | addNode (label : Label) (statement : Statement)
  | addEdge (source target : Label)
  | setEntry (label : Label)

namespace Builder
variable {calls : List Call}

def Call.perform (b : Builder) : Call → Builder
  | addNode label statement => b.addNode label statement
  | addEdge source target => b.addEdge source target
  | setEntry label => b.setEntry label

/-- The builder after some calls, from the one that was told nothing. -/
def ofCalls (calls : List Call) : Builder :=
  calls.foldl Call.perform {}

def Call.node? : Call → Option Node
  | addNode label statement => some ⟨label, statement⟩
  | _ => none

def Call.edge? : Call → Option (Label × Label)
  | addEdge source target => some (source, target)
  | _ => none

def Call.entry? : Call → Option Label
  | setEntry label => some label
  | _ => none

/-- Nodes and edges are kept in the order of the calls, and the last entry that was set counts. -/
theorem ofCalls_eq (calls : List Call) : ofCalls calls =
    { nodes := calls.filterMap Call.node?
      edges := calls.filterMap Call.edge?
      entry := (calls.filterMap Call.entry?).getLast? } := by
  unfold ofCalls
  induction calls using List.reverseRecOn with
  | nil => rfl
  | append_singleton calls c ih =>
    rw [List.foldl_append, ih]
    cases c <;> simp [Call.perform, addNode, addEdge, setEntry, Call.node?, Call.edge?, Call.entry?]

end Builder

/-- What makes nodes, edges and an entry a graph. All of it is about the labels. -/
structure WellFormed (nodes : List Node) (edges : List (Label × Label)) (entry : Option Label) :
    Prop where
  nodup : (nodes.map (·.label)).Nodup
  ends : ∀ e ∈ edges, e.1 ∈ nodes.map (·.label) ∧ e.2 ∈ nodes.map (·.label)
  /-- The entry that is given, or else the first node. -/
  starts : ∃ label ∈ nodes.map (·.label),
    (entry <|> nodes.head?.map (·.label)) = some label
  exits : nodes.countP (·.statement.isExit) = 1
  calls : ∀ n ∈ nodes, n.statement.isCall = true →
    ∃ r ∈ nodes, r.statement.isCallReturn = true ∧ ∀ l, (n.label, l) ∈ edges ↔ l = r.label
  callReturns : ∀ n ∈ nodes, n.statement.isCallReturn = true →
    ∃ c ∈ nodes, c.statement.isCall = true ∧ ∀ l, (l, n.label) ∈ edges ↔ l = c.label

variable {g : Graph} {i j : Nat} {pairs : List (Label × Label)} {l : Label}

theorem label?_eq_some_iff : g.label? i = some l ↔ ∃ n, g.nodes[i]? = some n ∧ n.label = l := by
  unfold label? node?
  rw [Option.map_eq_some_iff]

theorem resolve_eq_ok_iff_label? (h : (g.nodes.map (·.label)).Nodup) :
    Builder.resolve g.nodes l = .ok i ↔ g.label? i = some l := by
  rw [resolve_eq_ok h, label?_eq_some_iff]

/-- A label stands for one position. -/
theorem label?_injective (h : (g.nodes.map (·.label)).Nodup) (hi : g.label? i = some l)
    (hj : g.label? j = some l) : i = j := by
  rw [← resolve_eq_ok_iff_label? h] at hi hj
  exact Except.ok.inj (hi.symm.trans hj)

theorem mem_labels_iff : l ∈ g.nodes.map (·.label) ↔ ∃ i, g.label? i = some l := by
  rw [List.mem_iff_getElem?]
  refine exists_congr fun i => ?_
  rw [List.getElem?_map]
  rfl

/-- Positions are adjacent as their labels are. -/
theorem mem_edges_iff (h : (g.nodes.map (·.label)).Nodup)
    (he : Builder.resolveEdges g.nodes pairs = .ok g.edges) :
    (i, j) ∈ g.edges ↔ ∃ k l, g.label? i = some k ∧ g.label? j = some l ∧ (k, l) ∈ pairs := by
  rw [(mem_resolveEdges he).2]
  simp only [Prod.exists, resolve_eq_ok_iff_label? h]
  exact exists_congr fun k => exists_congr fun l =>
    ⟨fun ⟨hp, hk, hl⟩ => ⟨hk, hl, hp⟩, fun ⟨hk, hl, hp⟩ => ⟨hp, hk, hl⟩⟩

theorem eq_singleton_iff {neighbours : List Nat} (h : neighbours.Nodup) :
    neighbours = [j] ↔ ∀ k, k ∈ neighbours ↔ k = j := by
  constructor
  · rintro rfl k
    exact List.mem_singleton
  · intro hmem
    refine List.perm_singleton.1 ((List.perm_ext_iff_of_nodup h (List.nodup_singleton j)).2 ?_)
    exact fun k => (hmem k).trans List.mem_singleton.symm

/-- One position is the only one, and of the right kind, where one label is the only one. -/
theorem exists_only_iff (h : (g.nodes.map (·.label)).Nodup) {P : Nat → Prop} {Q : Label → Prop}
    (hQ : ∀ l, Q l → l ∈ g.nodes.map (·.label))
    (hPQ : ∀ k, P k ↔ ∃ l, g.label? k = some l ∧ Q l) (kind : Statement → Bool) :
    (∃ j, (∀ k, P k ↔ k = j) ∧ (g.statement? j).any kind = true) ↔
      ∃ r ∈ g.nodes, kind r.statement = true ∧ ∀ l, Q l ↔ l = r.label := by
  have hlabel {k : Nat} {r : Node} (hr : g.nodes[k]? = some r) : g.label? k = some r.label :=
    label?_eq_some_iff.2 ⟨r, hr, rfl⟩
  constructor
  · rintro ⟨j, hj, hkind⟩
    obtain ⟨st, hst, hkind⟩ := (Option.any_eq_true _ _).1 hkind
    obtain ⟨r, hr, rfl⟩ := Option.map_eq_some_iff.1 hst
    refine ⟨r, List.mem_of_getElem? hr, hkind, fun l => ⟨fun hl => ?_, ?_⟩⟩
    · obtain ⟨k, hk⟩ := mem_labels_iff.1 (hQ l hl)
      obtain rfl := (hj k).1 ((hPQ k).2 ⟨l, hk, hl⟩)
      exact Option.some.inj (hk.symm.trans (hlabel hr))
    · rintro rfl
      obtain ⟨l, hl, hq⟩ := (hPQ j).1 ((hj j).2 rfl)
      rwa [Option.some.inj (hl.symm.trans (hlabel hr))] at hq
  · rintro ⟨r, hr, hkind, hl⟩
    obtain ⟨j, hr⟩ := List.mem_iff_getElem?.1 hr
    refine ⟨j, fun k => ?_, ?_⟩
    · rw [hPQ]
      simp only [hl, exists_eq_right]
      constructor
      · exact fun hk => label?_injective h hk (hlabel hr)
      · rintro rfl
        exact hlabel hr
    · have hst : g.statement? j = some r.statement := Option.map_eq_some_iff.2 ⟨r, hr, rfl⟩
      rw [hst]
      exact hkind

/-- Each node has its partner where each label has. -/
theorem unpaired?_eq_none_iff_labels (h : (g.nodes.map (·.label)).Nodup)
    (he : Builder.resolveEdges g.nodes pairs = .ok g.edges) : g.unpaired? = none ↔
      (∀ n ∈ g.nodes, n.statement.isCall = true →
        ∃ r ∈ g.nodes, r.statement.isCallReturn = true ∧ ∀ l, (n.label, l) ∈ pairs ↔ l = r.label) ∧
      ∀ n ∈ g.nodes, n.statement.isCallReturn = true →
        ∃ c ∈ g.nodes, c.statement.isCall = true ∧ ∀ l, (l, n.label) ∈ pairs ↔ l = c.label := by
  have hends := (Builder.resolveEdges_eq_ok_iff.1 he).1
  have hnodup := (mem_resolveEdges he).1
  have hsuccessors {i : Nat} {n : Node} (hn : g.nodes[i]? = some n) :
      (∃ j, g.successors i = [j] ∧ (g.statement? j).any Statement.isCallReturn = true) ↔
        ∃ r ∈ g.nodes, r.statement.isCallReturn = true ∧
          ∀ l, (n.label, l) ∈ pairs ↔ l = r.label := by
    have hi : g.label? i = some n.label := label?_eq_some_iff.2 ⟨n, hn, rfl⟩
    simp only [eq_singleton_iff (nodup_successors hnodup i), mem_successors]
    refine exists_only_iff h (fun l hl => (hends _ hl).2) (fun k => ?_) _
    simp only [mem_edges_iff h he, hi, Option.some.injEq, exists_and_left, exists_eq_left']
  have hpredecessors {i : Nat} {n : Node} (hn : g.nodes[i]? = some n) :
      (∃ j, g.predecessors i = [j] ∧ (g.statement? j).any Statement.isCall = true) ↔
        ∃ c ∈ g.nodes, c.statement.isCall = true ∧ ∀ l, (l, n.label) ∈ pairs ↔ l = c.label := by
    have hi : g.label? i = some n.label := label?_eq_some_iff.2 ⟨n, hn, rfl⟩
    simp only [eq_singleton_iff (nodup_predecessors hnodup i), mem_predecessors]
    refine exists_only_iff h (fun l hl => (hends _ hl).1) (fun k => ?_) _
    simp only [mem_edges_iff h he, hi, Option.some.injEq, exists_eq_left', exists_and_left]
  rw [unpaired?_eq_none_iff, ← forall₂_and]
  constructor
  · intro hpaired n hn
    obtain ⟨i, hn⟩ := List.mem_iff_getElem?.1 hn
    rw [← hsuccessors hn, ← hpredecessors hn]
    exact hpaired i _ (Option.map_eq_some_iff.2 ⟨n, hn, rfl⟩)
  · intro hpaired i st hst
    obtain ⟨n, hn, rfl⟩ := Option.map_eq_some_iff.1 hst
    rw [hsuccessors hn, hpredecessors hn]
    exact hpaired n (List.mem_of_getElem? hn)

theorem length_exits (nodes : List Node) :
    (Builder.exits nodes).length = nodes.countP (·.statement.isExit) := by
  unfold Builder.exits
  rw [List.length_map, ← List.countP_eq_length_filter]
  conv_rhs => rw [← List.zipIdx_map_fst 0 nodes, List.countP_map]
  rfl

/-- The builder accepts what is well-formed, and nothing else. -/
theorem exists_build_iff (b : Builder) :
    (∃ g, b.build = .ok g) ↔ WellFormed b.nodes b.edges b.entry := by
  simp only [build_eq_ok_iff]
  constructor
  · rintro ⟨g, hnodes, hnodup, hedges, ⟨label, hlabel, hentry⟩, hexits, hpaired⟩
    rw [← hnodes] at hnodup ⊢
    obtain ⟨hcalls, hreturns⟩ := (unpaired?_eq_none_iff_labels hnodup hedges).1 hpaired
    exact {
      nodup := hnodup
      ends := (Builder.resolveEdges_eq_ok_iff.1 hedges).1
      starts := ⟨label, (Builder.resolve_eq_ok_iff.1 hentry).1, by rw [hnodes]; exact hlabel⟩
      exits := by rw [← length_exits, hexits]; rfl
      calls := hcalls
      callReturns := hreturns }
  · intro h
    obtain ⟨label, hlabel, hstarts⟩ := h.starts
    obtain ⟨exit, hexits⟩ := List.length_eq_one_iff.1 ((length_exits b.nodes).trans h.exits)
    obtain ⟨edges, hedges⟩ : ∃ edges, Builder.resolveEdges b.nodes b.edges = .ok edges :=
      ⟨_, Builder.resolveEdges_eq_ok_iff.2 ⟨h.ends, rfl⟩⟩
    let g : Graph := ⟨b.nodes, edges, Builder.position b.nodes label, exit⟩
    refine ⟨g, rfl, h.nodup, hedges, ⟨label, hstarts, Builder.resolve_eq_ok_iff.2 ⟨hlabel, rfl⟩⟩,
      hexits, ?_⟩
    exact (unpaired?_eq_none_iff_labels (g := g) h.nodup hedges).2 ⟨h.calls, h.callReturns⟩

/-- The labels of the ends of an edge. -/
def endLabels (g : Graph) (e : Nat × Nat) : Option Label × Option Label :=
  (g.label? e.1, g.label? e.2)

/-- The graph is what the nodes, the edges and the entry say it is. -/
structure IsGraphOf (g : Graph) (nodes : List Node) (edges : List (Label × Label))
    (entry : Option Label) : Prop where
  nodes_eq : g.nodes = nodes
  positionOf?_iff : ∀ l i, g.positionOf? l = some i ↔ g.label? i = some l
  nodup_edges : g.edges.Nodup
  /-- Each edge stands where it was first added. -/
  edges_eq : g.edges.map g.endLabels = edges.eraseDups.map (Prod.map some some)
  entry_eq : g.label? g.entry = (entry <|> nodes.head?.map (·.label))
  exit_iff : ∀ i, g.statement? i = some .exit ↔ i = g.exit
  callReturnOf?_iff : ∀ i j, g.callReturnOf? i = some j ↔ g.callOf? j = some i
  isSome_callReturnOf? : ∀ i, (g.callReturnOf? i).isSome = (g.statement? i).any Statement.isCall
  isSome_callOf? : ∀ j, (g.callOf? j).isSome = (g.statement? j).any Statement.isCallReturn

theorem positionOf?_eq_some_iff (h : (g.nodes.map (·.label)).Nodup) :
    g.positionOf? l = some i ↔ g.label? i = some l := by
  rw [← resolve_eq_ok_iff_label? h]
  unfold positionOf? Builder.resolve
  cases g.nodes.findIdx? (fun n => decide (n.label = l)) <;> simp

/-- The labels of the edges, each pair where it is first mentioned. -/
theorem edges_map_endLabels (h : (g.nodes.map (·.label)).Nodup)
    (he : Builder.resolveEdges g.nodes pairs = .ok g.edges) :
    g.edges.map g.endLabels = pairs.eraseDups.map (Prod.map some some) := by
  obtain ⟨hends, heq⟩ := Builder.resolveEdges_eq_ok_iff.1 he
  have hlabel {l : Label} (hl : l ∈ g.nodes.map (·.label)) :
      g.label? (Builder.position g.nodes l) = some l :=
    (resolve_eq_ok_iff_label? h).1 (Builder.resolve_eq_ok_iff.2 ⟨hl, rfl⟩)
  have hlabels : ∀ x ∈ pairs, g.endLabels
      (Prod.map (Builder.position g.nodes) (Builder.position g.nodes) x) = Prod.map some some x :=
    fun x hx => Prod.ext (hlabel (hends x hx).1) (hlabel (hends x hx).2)
  rw [← heq, eraseDups_map_on, List.map_map]
  · exact List.map_congr_left fun x hx => hlabels x (List.mem_eraseDups.1 hx)
  · -- the labels tell the positions apart
    intro x hx y hy hxy
    have hsome := congrArg g.endLabels hxy
    rw [hlabels x hx, hlabels y hy] at hsome
    obtain ⟨hsource, htarget⟩ := Prod.mk.inj hsome
    exact Prod.ext (Option.some.inj hsource) (Option.some.inj htarget)

/-- The labels after a label, each where it is first mentioned, and the newest first. -/
theorem successors_map_label? (h : (g.nodes.map (·.label)).Nodup)
    (he : Builder.resolveEdges g.nodes pairs = .ok g.edges) (hi : g.label? i = some l) :
    (g.successors i).map g.label? =
      ((pairs.filter (·.1 = l)).map (·.2)).eraseDups.reverse.map some := by
  have hsource : (fun e : Nat × Nat => decide (e.1 = i)) =
      fun e => decide (g.label? e.1 = some l) := by
    refine funext fun e => Bool.eq_iff_iff.2 ?_
    rw [decide_eq_true_eq, decide_eq_true_eq]
    exact ⟨fun he => he ▸ hi, fun he => label?_injective h he hi⟩
  have hedges : (g.edges.filter (·.1 = i)).map g.endLabels =
      (pairs.filter (·.1 = l)).eraseDups.map (Prod.map some some) := by
    have hfilter := congrArg (List.filter (·.1 = some l)) (edges_map_endLabels h he)
    rw [List.filter_map, List.filter_map] at hfilter
    rw [hsource, ← filter_eraseDups]
    refine hfilter.trans (congrArg (List.map _) (List.filter_congr fun e _ => ?_))
    simp
  have htargets : ((pairs.filter (·.1 = l)).map (·.2)).eraseDups =
      (pairs.filter (·.1 = l)).eraseDups.map (·.2) := by
    refine eraseDups_map_on fun x hx y hy hxy => ?_
    have hx := of_decide_eq_true (List.mem_filter.1 hx).2
    have hy := of_decide_eq_true (List.mem_filter.1 hy).2
    exact Prod.ext (hx.trans hy.symm) hxy
  have hlabels : ((g.edges.filter (·.1 = i)).map (·.2)).map g.label? =
      ((g.edges.filter (·.1 = i)).map g.endLabels).map (·.2) := by
    rw [List.map_map, List.map_map]
    rfl
  unfold successors
  rw [htargets, List.map_reverse, List.map_reverse, hlabels, hedges, List.map_map, List.map_map]
  rfl

theorem IsBuilt.isSome_callReturnOf? (hg : g.IsBuilt) (i : Nat) :
    (g.callReturnOf? i).isSome = (g.statement? i).any Statement.isCall := by
  rw [Bool.eq_iff_iff]
  constructor
  · intro h
    obtain ⟨j, hj⟩ := Option.isSome_iff_exists.1 h
    exact isCall_of_callReturnOf? hj
  · intro h
    obtain ⟨name, args, hst⟩ := exists_call_of_any h
    obtain ⟨j, -, hj, -⟩ := hg.successors_call hst
    have he : (i, j) ∈ g.edges := mem_successors.1 (by rw [hj]; exact List.mem_singleton_self j)
    exact Option.isSome_iff_exists.2 ⟨j, hg.callReturnOf?_eq hst he⟩

theorem IsBuilt.isSome_callOf? (hg : g.IsBuilt) (j : Nat) :
    (g.callOf? j).isSome = (g.statement? j).any Statement.isCallReturn := by
  rw [Bool.eq_iff_iff]
  constructor
  · intro h
    obtain ⟨i, hi⟩ := Option.isSome_iff_exists.1 h
    exact isCallReturn_of_callOf? hi
  · intro h
    obtain ⟨result, hst⟩ := exists_callReturn_of_any h
    obtain ⟨i, -, -, hi, -⟩ := hg.callOf?_isSome hst
    exact Option.isSome_iff_exists.2 ⟨i, hi⟩

theorem isGraphOf_of_build {b : Builder} (hb : b.build = .ok g) :
    g.IsGraphOf b.nodes b.edges b.entry := by
  have hg : g.IsBuilt := ⟨b, hb⟩
  have hnodup := nodup_labels hb
  obtain ⟨hnodes, -, hedges, ⟨label, hlabel, hentry⟩, -⟩ := build_eq_ok_iff.1 hb
  exact {
    nodes_eq := hnodes
    positionOf?_iff := fun l i => positionOf?_eq_some_iff hnodup
    nodup_edges := (mem_resolveEdges hedges).1
    edges_eq := edges_map_endLabels hnodup hedges
    entry_eq := ((resolve_eq_ok_iff_label? hnodup).1 hentry).trans hlabel.symm
    exit_iff := fun i => ⟨hg.eq_exit, fun hi => hi ▸ hg.statement?_exit⟩
    callReturnOf?_iff := fun i j => hg.callReturnOf?_iff
    isSome_callReturnOf? := hg.isSome_callReturnOf?
    isSome_callOf? := hg.isSome_callOf? }

/-- However the calls of the builder are mixed, it gives a graph exactly if the nodes, the
edges and the entry that it was told are well-formed, and the graph is that of these nodes,
edges and entry. -/
theorem build_ofCalls (calls : List Builder.Call) :
    let nodes := calls.filterMap Builder.Call.node?
    let edges := calls.filterMap Builder.Call.edge?
    let entry := (calls.filterMap Builder.Call.entry?).getLast?
    ((∃ g, (Builder.ofCalls calls).build = .ok g) ↔ WellFormed nodes edges entry) ∧
      ∀ g, (Builder.ofCalls calls).build = .ok g → g.IsGraphOf nodes edges entry := by
  rw [Builder.ofCalls_eq]
  exact ⟨exists_build_iff _, fun g hg => isGraphOf_of_build hg⟩

/-- An entry that is set before its node is added, edges to later nodes and an edge that is added
twice. -/
theorem build_ofCalls_mixed :
    let calls : List Builder.Call :=
      [.setEntry 4, .addEdge 4 2, .addNode 1 .exit, .addNode 2 (.call "f" []), .addEdge 2 3,
        .addEdge 4 2, .addNode 3 (.callReturn none), .addEdge 3 1, .addNode 4 .nop]
    let nodes : List Node := [⟨1, .exit⟩, ⟨2, .call "f" []⟩, ⟨3, .callReturn none⟩, ⟨4, .nop⟩]
    let edges : List (Label × Label) := [(4, 2), (2, 3), (4, 2), (3, 1)]
    let g : Graph := { nodes, edges := [(3, 1), (1, 2), (2, 0)], entry := 3, exit := 0 }
    (Builder.ofCalls calls).build = .ok g ∧ WellFormed nodes edges (some 4) ∧
      g.IsGraphOf nodes edges (some 4) ∧ g.callReturnOf? 1 = some 2 ∧ g.callOf? 2 = some 1 := by
  intro calls nodes edges g
  have hg : (Builder.ofCalls calls).build = .ok g := by rfl
  obtain ⟨hiff, hbuilt⟩ := build_ofCalls calls
  have hgraph := hbuilt g hg
  have hreturn : g.callReturnOf? 1 = some 2 := by rfl
  exact ⟨hg, hiff.1 ⟨g, hg⟩, hgraph, hreturn, (hgraph.callReturnOf?_iff 1 2).1 hreturn⟩

end ScriptMemory.Graph
