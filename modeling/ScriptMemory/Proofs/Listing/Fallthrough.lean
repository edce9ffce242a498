import ScriptMemory.Proofs.Building

/-! The graphs of listed functions. A node goes where its list of successors says; without one it
falls through to the node listed next, unless it is an exit, which goes nowhere, or a return, which
goes to the exit. -/
namespace ScriptMemory
namespace Graph
variable {g : Graph} {i j : Nat}

/-- Where a node flows to that is listed without successors. -/
def next? (g : Graph) (i : Nat) : Option Nat :=
  match g.statement? i with
  | none | some .exit => none
  | some (.returnValue _) => some g.exit
  | some _ => if i + 1 < g.size then some (i + 1) else none

theorem next?_lt (hg : g.IsBuilt) (h : g.next? i = some j) : j < g.size := by
  unfold next? at h
  split at h
  · cases h
  · cases h
  · exact Option.some.inj h ▸ hg.exit_lt
  · split at h
    · next hlt => exact Option.some.inj h ▸ hlt
    · cases h

section Listed
variable {nodes : List Listing.ListedNode} {n : Listing.ListedNode} {k : Nat}

theorem node_of_listed (hg : (Listing.builderOf nodes).build = .ok g) (k : Nat) :
    g.nodes[k]? = (nodes[k]?).map fun n => ⟨n.label, n.statement⟩ := by
  rw [(build_eq_ok_iff.1 hg).1]
  exact List.getElem?_map

theorem statement?_of_listed (hg : (Listing.builderOf nodes).build = .ok g) (k : Nat) :
    g.statement? k = (nodes[k]?).map (·.statement) := by
  unfold statement? node?
  rw [node_of_listed hg, Option.map_map]
  rfl

theorem size_of_listed (hg : (Listing.builderOf nodes).build = .ok g) : g.size = nodes.length := by
  unfold size
  rw [(build_eq_ok_iff.1 hg).1]
  exact List.length_map _

theorem label?_of_listed (hg : (Listing.builderOf nodes).build = .ok g) (k : Nat) :
    g.label? k = (nodes[k]?).map (·.label) := by
  unfold label? node?
  rw [node_of_listed hg, Option.map_map]
  rfl

/-- The first exit that is listed is the exit of the graph. -/
theorem label?_exit_of_listed (hg : (Listing.builderOf nodes).build = .ok g) :
    (nodes.find? (·.statement.isExit)).map (·.label) = g.label? g.exit := by
  have hbuilt : g.IsBuilt := ⟨_, hg⟩
  cases hfind : nodes.find? (·.statement.isExit) with
  | none =>
    -- the exit is among the nodes
    have hst := hbuilt.statement?_exit
    rw [statement?_of_listed hg] at hst
    obtain ⟨n, hn, hnst⟩ := Option.map_eq_some_iff.1 hst
    have hnot := List.find?_eq_none.1 hfind n (List.mem_of_getElem? hn)
    rw [hnst] at hnot
    exact absurd rfl hnot
  | some n =>
    obtain ⟨k, hk⟩ := List.mem_iff_getElem?.1 (List.mem_of_find?_eq_some hfind)
    have hnexit : n.statement = .exit := by
      have hn := List.find?_some hfind
      revert hn
      cases n.statement <;> simp [Statement.isExit]
    have hpos : k = g.exit := by
      apply hbuilt.eq_exit
      rw [statement?_of_listed hg, hk, Option.map_some, hnexit]
    rw [label?_of_listed hg, ← hpos, hk]

/-- The nodes are passed on with the label of the node listed after each of them. -/
theorem getElem?_zip_next (hn : nodes[i]? = some n) :
    (nodes.zip ((nodes.drop 1).map (some ·.label) ++ [none]))[i]? =
      some (n, (nodes[i + 1]?).map (·.label)) := by
  have hi : i < nodes.length := (List.getElem?_eq_some_iff.1 hn).1
  rw [List.getElem?_zip_eq_some]
  refine ⟨hn, ?_⟩
  by_cases hlast : i + 1 < nodes.length
  · rw [List.getElem?_append_left (by simp; omega), List.getElem?_map, List.getElem?_drop,
      Nat.add_comm 1 i, List.getElem?_eq_getElem hlast]
    rfl
  · have hlen : i = ((nodes.drop 1).map (some ·.label)).length := by
      rw [List.length_map, List.length_drop]
      omega
    rw [hlen, List.getElem?_concat_length, ← hlen, List.getElem?_eq_none (by omega)]
    rfl

/-- If nothing comes of the others, what comes of all is what comes of the one. -/
theorem flatMap_eq_of_getElem? {α β : Type} {f : α → List β} {l : List α} {a : α}
    (ha : l[i]? = some a) (hothers : ∀ j b, l[j]? = some b → j ≠ i → f b = []) :
    l.flatMap f = f a := by
  induction l generalizing i with
  | nil => cases ha
  | cons b l ih =>
    rw [List.flatMap_cons]
    cases i with
    | zero =>
      obtain rfl := Option.some.inj ha
      have hrest : l.flatMap f = [] := by
        rw [List.flatMap_eq_nil_iff]
        intro c hc
        obtain ⟨j, hj⟩ := List.mem_iff_getElem?.1 hc
        exact hothers (j + 1) c hj (Nat.succ_ne_zero j)
      rw [hrest, List.append_nil]
    | succ i =>
      rw [hothers 0 b rfl (Nat.succ_ne_zero i).symm, List.nil_append]
      exact ih ha fun j c hc hne => hothers (j + 1) c hc fun h => hne (Nat.succ.inj h)

/-- The edges that are added for a node lead to its targets. -/
theorem filter_edges_of_listed (hg : (Listing.builderOf nodes).build = .ok g)
    (hn : nodes[i]? = some n) :
    (Listing.builderOf nodes).edges.filter (·.1 = n.label) =
      (n.targets ((nodes[i + 1]?).map (·.label))
        ((nodes.find? (·.statement.isExit)).map (·.label))).map (n.label, ·) := by
  unfold Listing.builderOf
  dsimp only
  rw [List.filter_flatMap]
  refine (flatMap_eq_of_getElem? (getElem?_zip_next hn) fun k x hx hne => ?_).trans ?_
  · -- the labels of the other nodes differ
    obtain ⟨hx, -⟩ := List.getElem?_zip_eq_some.1 hx
    rw [List.filter_eq_nil_iff]
    intro e he
    obtain ⟨l, -, rfl⟩ := List.mem_map.1 he
    rw [decide_eq_true_eq]
    intro hlabel
    refine hne (label?_injective (nodup_labels hg) (l := n.label) ?_ ?_)
    · rw [label?_of_listed hg, hx, ← hlabel]
      rfl
    · rw [label?_of_listed hg, hn]
      rfl
  · rw [List.filter_eq_self]
    intro e he
    obtain ⟨l, -, rfl⟩ := List.mem_map.1 he
    exact decide_eq_true rfl

/-- What comes after a node are its targets, each once, the last mentioned first. -/
theorem successors_of_listed (hg : (Listing.builderOf nodes).build = .ok g)
    (hn : nodes[i]? = some n) :
    (g.successors i).map g.label? = ((n.targets ((nodes[i + 1]?).map (·.label))
      ((nodes.find? (·.statement.isExit)).map (·.label))).eraseDups.reverse).map some := by
  obtain ⟨-, -, hedges, -⟩ := build_eq_ok_iff.1 hg
  have hi : g.label? i = some n.label := by
    rw [label?_of_listed hg, hn]
    rfl
  rw [successors_map_label? (nodup_labels hg) hedges hi, filter_edges_of_listed hg hn, List.map_map]
  exact congrArg (fun l => (List.reverse (List.eraseDups l)).map some) (List.map_id _)

/-- Without a list, a node is followed by what it falls through to. -/
theorem successors_of_unlisted (hg : (Listing.builderOf nodes).build = .ok g)
    (hn : nodes[i]? = some n) (hlist : n.successors? = none) :
    g.successors i = (g.next? i).toList := by
  have htargets : n.targets ((nodes[i + 1]?).map (·.label))
      ((nodes.find? (·.statement.isExit)).map (·.label)) =
        ((g.next? i).bind g.label?).toList := by
    rw [label?_exit_of_listed hg, ← label?_of_listed hg]
    unfold next? Listing.ListedNode.targets
    rw [statement?_of_listed hg, hn, hlist, Option.map_some]
    dsimp only
    cases n.statement with
    | exit => rfl
    | returnValue value => rfl
    | _ =>
      dsimp only
      split
      · rfl
      · next hlast =>
        rw [size_of_listed hg] at hlast
        rw [label?_of_listed hg, List.getElem?_eq_none (Nat.le_of_not_lt hlast)]
        rfl
  have hlabels := successors_of_listed hg hn
  rw [htargets] at hlabels
  cases hnext : g.next? i with
  | none =>
    rw [hnext] at hlabels
    exact List.map_eq_nil_iff.1 hlabels
  | some k =>
    have hk : k < nodes.length := size_of_listed hg ▸ next?_lt ⟨_, hg⟩ hnext
    have hlabel := label?_of_listed hg k
    rw [List.getElem?_eq_getElem hk, Option.map_some] at hlabel
    rw [hnext, Option.bind_some, hlabel] at hlabels
    obtain ⟨k', hk', hlabel'⟩ := List.map_eq_singleton_iff.1 hlabels
    rw [hk', label?_injective (nodup_labels hg) hlabel' hlabel, Option.toList_some]

/-- The first node is the entry. -/
theorem entry_of_listed (hg : (Listing.builderOf nodes).build = .ok g) : g.entry = 0 := by
  obtain ⟨hnodes, -, -, ⟨label, hlabel, hentry⟩, -⟩ := build_eq_ok_iff.1 hg
  have hhead : (g.nodes.head?).map (·.label) = some label := by
    rw [hnodes]
    exact hlabel
  obtain ⟨n, hn, hnl⟩ := Option.map_eq_some_iff.1 hhead
  have hzero : Builder.resolve g.nodes label = .ok 0 :=
    (resolve_eq_ok (nodup_labels hg)).2 ⟨n, by rw [← List.head?_eq_getElem?]; exact hn, hnl⟩
  rw [hzero] at hentry
  exact (Except.ok.inj hentry).symm

end Listed

/-- The graph has the nodes as they are listed, starts with the first, and goes from each where the
listing says. -/
structure FollowsListing (g : Graph) (nodes : List Listing.ListedNode) : Prop where
  nodes_eq : g.nodes = nodes.map fun n => ⟨n.label, n.statement⟩
  entry_eq : g.entry = 0
  exit_iff : ∀ i, g.statement? i = some .exit ↔ i = g.exit
  /-- A list of successors is followed from its end, and a label that is repeated counts once. -/
  listed : ∀ i n labels, nodes[i]? = some n → n.successors? = some labels →
    (g.successors i).map g.label? = labels.eraseDups.reverse.map some
  unlisted : ∀ i n, nodes[i]? = some n → n.successors? = none →
    g.successors i = match n.statement with
      | .exit => []
      | .returnValue _ => [g.exit]
      | _ => if i + 1 < nodes.length then [i + 1] else []

theorem followsListing_of_build {nodes : List Listing.ListedNode}
    (hg : (Listing.builderOf nodes).build = .ok g) : g.FollowsListing nodes where
  nodes_eq := (build_eq_ok_iff.1 hg).1
  entry_eq := entry_of_listed hg
  exit_iff := fun i => ⟨IsBuilt.eq_exit ⟨_, hg⟩, fun hi => hi ▸ IsBuilt.statement?_exit ⟨_, hg⟩⟩
  listed := by
    intro i n labels hn hlist
    rw [successors_of_listed hg hn, Listing.ListedNode.targets, hlist]
  unlisted := by
    intro i n hn hlist
    rw [successors_of_unlisted hg hn hlist, next?, statement?_of_listed hg, hn, Option.map_some,
      size_of_listed hg]
    cases n.statement with
    | exit => rfl
    | returnValue value => rfl
    | _ =>
      dsimp only
      split <;> rfl

end Graph

namespace Listing

/-- A function as it is listed: its nodes are read, but no graph is made of them. -/
structure ListedFunction where
  name : String
  params : List Parameter
  nodes : List (Checked ListedNode)
deriving DecidableEq

/-- The function with its graph. -/
def ListedFunction.meaning (f : ListedFunction) : Checked Function := do
  let graph ← (builderOf (← f.nodes.mapM id)).build
  pure ⟨f.name, f.params, graph⟩

def listedFunction : Reader ListedFunction := fun cs => do
  let (name, cs) ← ident (blank (← strip "function" cs))
  let (params, cs) := optional (separated param) (blank (← strip "(" (blank cs)))
  let cs ← strip ")" (blank cs)
  let (nodes, cs) := zeroOrMore node (blank (← strip "\x7b" (blank cs)))
  pure (⟨name, params.getD [], nodes⟩, ← strip "\x7d" (blank cs))

/-- A class or a function as it is listed. -/
abbrev ListedDeclaration :=
  Checked ClassDeclaration ⊕ ListedFunction

/-- The change that a declaration makes to the program. -/
def ListedDeclaration.change : ListedDeclaration → Program → Checked Program
  | .inl c, p => do p.addClass (← c)
  | .inr f, p => do p.addFunction (← f.meaning)

def listedDeclaration : Reader ListedDeclaration := fun cs =>
  (classDeclaration cs).map (Prod.map .inl id) <|> (listedFunction cs).map (Prod.map .inr id)

/-- The declarations of a listing, if it follows the grammar. -/
def listedDeclarations (text : String) : Option (List ListedDeclaration) :=
  match zeroOrMore listedDeclaration (blank text.toList) with
  | (listed, rest) => if (blank rest).isEmpty then some listed else none

/-- The functions of a listing. -/
def listedFunctions (text : String) : List ListedFunction :=
  ((listedDeclarations text).getD []).filterMap Sum.getRight?

theorem function_eq (cs : List Char) :
    function cs = (listedFunction cs).map (Prod.map ListedFunction.meaning id) := by
  unfold function listedFunction
  simp only [Option.bind_eq_bind, Option.map_bind, Function.comp_def]
  rfl

theorem declaration_eq (cs : List Char) :
    declaration cs = (listedDeclaration cs).map (Prod.map ListedDeclaration.change id) := by
  unfold declaration listedDeclaration
  rw [function_eq, Option.orElse_eq_orElse, Option.orElse_eq_orElse, Option.orElse_eq_or,
    Option.orElse_eq_or, Option.map_or, Option.map_map, Option.map_map, Option.map_map]
  rfl

section Repetition
variable {α β : Type} {item : Reader α} (f : α → β)

theorem following_map (bound : Nat) (cs : List Char) :
    following (fun cs => (item cs).map (Prod.map f id)) bound cs =
      Prod.map (List.map f) id (following item bound cs) := by
  induction bound generalizing cs with
  | zero => rfl
  | succ bound ih =>
    unfold following
    cases item (blank cs) with
    | none => rfl
    | some x =>
      simp only [Option.map_some, Prod.map_fst, Prod.map_snd, id, ih]
      rfl

theorem zeroOrMore_map (cs : List Char) :
    zeroOrMore (fun cs => (item cs).map (Prod.map f id)) cs =
      Prod.map (List.map f) id (zeroOrMore item cs) := by
  unfold zeroOrMore
  cases hitem : item cs with
  | none => simp only [hitem, Option.map_none]; rfl
  | some x =>
    simp only [hitem, Option.map_some, Prod.map_fst, Prod.map_snd, id, following_map]
    rfl

end Repetition

/-- A listing is read declaration by declaration. -/
theorem read_eq (text : String) : read text = match listedDeclarations text with
    | none => throw .malformedListing
    | some listed => listed.foldlM (fun p d => d.change p) {} := by
  have hdeclaration : declaration = fun cs =>
      (listedDeclaration cs).map (Prod.map ListedDeclaration.change id) := funext declaration_eq
  unfold read declarations listedDeclarations
  rw [hdeclaration, zeroOrMore_map]
  dsimp only [Prod.map_fst, Prod.map_snd, id]
  by_cases hend : (blank (zeroOrMore listedDeclaration (blank text.toList)).2).isEmpty = true
  · rw [if_pos hend, if_pos hend]
    exact List.foldlM_map ..
  · rw [if_neg hend, if_neg hend]

theorem mapM_id_eq_ok_iff {α : Type} {read : List (Checked α)} {as : List α} :
    read.mapM id = .ok as ↔ read = as.map .ok := by
  induction read generalizing as with
  | nil => cases as <;> simp [pure, Except.pure]
  | cons a read ih =>
    rw [List.mapM_cons, bind_eq_ok]
    constructor
    · rintro ⟨b, hb, h⟩
      obtain ⟨bs, hbs, h⟩ := bind_eq_ok.1 h
      obtain rfl := Except.ok.inj h
      rw [List.map_cons, ih.1 hbs]
      exact congrArg (· :: _) hb
    · intro h
      cases as with
      | nil => cases h
      | cons b bs =>
        obtain ⟨rfl, hrest⟩ := List.cons.inj h
        exact ⟨b, rfl, bind_eq_ok.2 ⟨bs, ih.2 hrest, rfl⟩⟩

theorem ListedFunction.meaning_eq_ok_iff {f : ListedFunction} {g : Function} :
    f.meaning = .ok g ↔ ∃ nodes, f.nodes = nodes.map .ok ∧ (builderOf nodes).build = .ok g.graph ∧
      g.name = f.name ∧ g.params = f.params := by
  unfold meaning
  rw [bind_eq_ok]
  refine exists_congr fun nodes => ?_
  rw [mapM_id_eq_ok_iff]
  refine and_congr_right fun _ => ?_
  rw [bind_eq_ok]
  constructor
  · rintro ⟨graph, hgraph, h⟩
    obtain rfl := Except.ok.inj h
    exact ⟨hgraph, rfl, rfl⟩
  · rintro ⟨hgraph, hname, hparams⟩
    refine ⟨g.graph, hgraph, ?_⟩
    obtain ⟨name, params, graph⟩ := g
    obtain rfl := hname
    obtain rfl := hparams
    rfl

/-- The functions of the program are those that it had, and those that are declared. -/
theorem function?_of_foldlM {listed : List ListedDeclaration} {p q : Program}
    (h : listed.foldlM (fun p d => d.change p) p = .ok q) :
    (∀ f ∈ listed.filterMap Sum.getRight?, ∃ g, f.meaning = .ok g) ∧
      ∀ name g, q.function? name = some g ↔ p.function? name = some g ∨
        ∃ f ∈ listed.filterMap Sum.getRight?, f.name = name ∧ f.meaning = .ok g := by
  induction listed generalizing p with
  | nil =>
    cases h
    simp
  | cons d listed ih =>
    rw [List.foldlM_cons] at h
    obtain ⟨p', hp', h⟩ := bind_eq_ok.1 h
    obtain ⟨hread, hfunctions⟩ := ih h
    cases d with
    | inl c =>
      obtain ⟨c, -, hp'⟩ := bind_eq_ok.1 hp'
      have hsame (name : String) : p'.function? name = p.function? name := by
        unfold Program.addClass at hp'
        split at hp'
        · cases hp'
        · cases hp'
          rfl
      simp only [hsame] at hfunctions
      exact ⟨hread, hfunctions⟩
    | inr f =>
      obtain ⟨g, hg, hp'⟩ := bind_eq_ok.1 hp'
      have hadded (name : String) (g' : Function) : p'.function? name = some g' ↔
          p.function? name = some g' ∨ f.name = name ∧ f.meaning = .ok g' := by
        obtain ⟨hnew, rfl⟩ := Program.addFunction_eq_ok_iff.1 hp'
        obtain ⟨-, -, -, hname, -⟩ := ListedFunction.meaning_eq_ok_iff.1 hg
        rw [Program.function?_withFunction, hg, Except.ok.injEq, ← hname]
        by_cases heq : g.name = name
        · subst heq
          simp [hnew]
        · simp [heq]
      simp only [List.filterMap_cons, Sum.getRight?_inr, List.mem_cons, forall_eq_or_imp,
        exists_eq_or_imp]
      refine ⟨⟨⟨g, hg⟩, hread⟩, fun name g' => ?_⟩
      rw [hfunctions, hadded, or_assoc]

/-- Every function of a listing is read, and its graph goes from each node where the
listing says. -/
theorem read_follows_listing {text : String} {p : Program} (h : read text = .ok p) :
    (∀ f ∈ listedFunctions text, ∃ nodes g, f.nodes = nodes.map .ok ∧
      p.function? f.name = some g ∧ g.name = f.name ∧ g.params = f.params ∧
      g.graph.FollowsListing nodes) ∧
    ∀ name g, p.function? name = some g → ∃ f ∈ listedFunctions text, f.name = name := by
  rw [read_eq] at h
  unfold listedFunctions
  cases hlisted : listedDeclarations text with
  | none =>
    rw [hlisted] at h
    cases h
  | some listed =>
    rw [hlisted] at h
    obtain ⟨hread, hfunctions⟩ := function?_of_foldlM h
    rw [Option.getD_some]
    constructor
    · intro f hf
      obtain ⟨g, hg⟩ := hread f hf
      obtain ⟨nodes, hnodes, hbuilt, hname, hparams⟩ := ListedFunction.meaning_eq_ok_iff.1 hg
      exact ⟨nodes, g, hnodes, (hfunctions f.name g).2 (.inr ⟨f, hf, rfl, hg⟩), hname, hparams,
        Graph.followsListing_of_build hbuilt⟩
    · intro name g hg
      rcases (hfunctions name g).1 hg with hstart | ⟨f, hf, hname, -⟩
      · exact Program.forall_empty (P := fun _ => False) name g hstart |>.elim
      · exact ⟨f, hf, hname⟩

set_option maxRecDepth 20000 in
/-- A label that is repeated, a return before the exit, and a last node that falls nowhere. -/
theorem read_follows_listing_main :
    let text :=
      "function main() \x7b 7: branch $a -> 2, 5, 2; 2: return; 5: nop; 3: exit; 4: nop; \x7d"
    ∃ p g, read text = .ok p ∧ p.function? "main" = some g ∧ g.graph.entry = 0 ∧
      (g.graph.successors 0).map g.graph.label? = [some 5, some 2] ∧
      g.graph.successors 1 = [g.graph.exit] ∧ g.graph.successors 2 = [3] ∧
      g.graph.successors 3 = [] ∧ g.graph.successors 4 = [] := by
  intro text
  obtain ⟨p, hp⟩ : ∃ p, read text = .ok p := by
    cases hread : read text with
    | ok p => exact ⟨p, rfl⟩
    | error e =>
      have hok : (read text).toBool = true := by decide +kernel
      rw [hread] at hok
      cases hok
  let nodes : List ListedNode := [⟨7, .branch (.read (.ofVariable "a")), some [2, 5, 2]⟩,
    ⟨2, .returnValue none, none⟩, ⟨5, .nop, none⟩, ⟨3, .exit, none⟩, ⟨4, .nop, none⟩]
  have hlisted : listedFunctions text = [⟨"main", [], nodes.map .ok⟩] := by decide +kernel
  obtain ⟨nodes', g, hnodes, hg, -, -, hfollows⟩ :=
    (read_follows_listing hp).1 ⟨"main", [], nodes.map .ok⟩
    (by rw [hlisted]; exact List.mem_singleton_self _)
  obtain rfl : nodes' = nodes :=
    Except.ok.inj ((mapM_id_eq_ok_iff.2 hnodes).symm.trans (mapM_id_eq_ok_iff.2 rfl))
  exact ⟨p, g, hp, hg, hfollows.entry_eq, hfollows.listed 0 _ _ rfl rfl,
    hfollows.unlisted 1 _ rfl rfl,
    hfollows.unlisted 2 _ rfl rfl, hfollows.unlisted 3 _ rfl rfl, hfollows.unlisted 4 _ rfl rfl⟩

end Listing
end ScriptMemory
