import Mathlib.Data.List.Nodup
import ScriptMemory.Listing.Declaration

/-! Graphs made by the builder: edges stay inside the graph, the exit is an exit statement, and
calls and call-returns come in pairs that no other edge touches. -/
namespace ScriptMemory

/-- A computation that gives a result has given one at each step. -/
theorem bind_eq_ok {ε α β : Type} {x : Except ε α} {f : α → Except ε β} {b : β} :
    x >>= f = .ok b ↔ ∃ a, x = .ok a ∧ f a = .ok b := by
  cases x with
  | error e =>
    constructor
    · intro h
      cases h
    · rintro ⟨a, ha, -⟩
      cases ha
  | ok a =>
    constructor
    · exact fun h => ⟨a, rfl, h⟩
    · rintro ⟨a', ha, h⟩
      cases ha
      exact h

section FirstMention
variable {α β : Type} [BEq α] [LawfulBEq α] [BEq β] [LawfulBEq β] {l : List α}

omit [LawfulBEq α] in
/-- The recursion that drops every repetition of the first element at once. -/
theorem eraseDupsRec {P : List α → Prop} (nil : P [])
    (cons : ∀ a l, P (l.filter fun b => !b == a) → P (a :: l)) : ∀ l, P l
  | [] => nil
  | a :: l => cons a l (eraseDupsRec nil cons _)
termination_by l => l.length
decreasing_by exact Nat.lt_succ_of_le (List.length_filter_le _ l)

theorem nodup_eraseDups (l : List α) : l.eraseDups.Nodup := by
  induction l using eraseDupsRec with
  | nil => exact List.nodup_nil
  | cons a l ih =>
    rw [List.eraseDups_cons]
    exact List.nodup_cons.2 ⟨by simp [List.mem_eraseDups], ih⟩

theorem filter_eraseDups (p : α → Bool) (l : List α) :
    l.eraseDups.filter p = (l.filter p).eraseDups := by
  induction l using eraseDupsRec with
  | nil => rfl
  | cons a l ih =>
    rw [List.eraseDups_cons, List.filter_cons, List.filter_cons, ih, List.filter_filter]
    split
    · rw [List.eraseDups_cons, List.filter_filter]
      simp only [Bool.and_comm]
    · next ha =>
      refine congrArg _ (List.filter_congr fun b _ => ?_)
      by_cases hb : b = a <;> simp_all

theorem eraseDups_map_on {f : α → β} (h : ∀ a ∈ l, ∀ b ∈ l, f a = f b → a = b) :
    (l.map f).eraseDups = l.eraseDups.map f := by
  induction l using eraseDupsRec with
  | nil => rfl
  | cons a l ih =>
    have hrest : (l.filter fun b => !f b == f a) = l.filter fun b => !b == a := by
      refine List.filter_congr fun b hb => congrArg Bool.not ?_
      rw [Bool.eq_iff_iff, beq_iff_eq, beq_iff_eq]
      exact ⟨h b (List.mem_cons_of_mem a hb) a List.mem_cons_self, congrArg f⟩
    have hih := ih fun b hb c hc => h b (List.mem_cons_of_mem a (List.mem_filter.1 hb).1) c
      (List.mem_cons_of_mem a (List.mem_filter.1 hc).1)
    rw [List.map_cons, List.eraseDups_cons, List.eraseDups_cons, List.map_cons,
      List.filter_map, ← hih]
    exact congrArg (fun l => f a :: (List.map f l).eraseDups) hrest

/-- Elements are added behind those found so far, unless they are among them. -/
theorem foldl_insert_eq [DecidableEq α] (l found : List α) :
    l.foldl (fun found a => if a ∈ found then found else found ++ [a]) found =
      found ++ (l.filter fun a => !found.contains a).eraseDups := by
  induction l generalizing found with
  | nil => exact (List.append_nil found).symm
  | cons a l ih =>
    rw [List.foldl_cons, ih, List.filter_cons]
    by_cases ha : a ∈ found
    · rw [if_pos ha, if_neg (by simpa using ha)]
    · rw [if_neg ha, if_pos (by simpa using ha), List.eraseDups_cons, List.append_assoc,
        List.singleton_append, List.filter_filter]
      refine congrArg (fun l => found ++ a :: List.eraseDups l) (List.filter_congr fun b _ => ?_)
      rw [Bool.eq_iff_iff]
      simp [and_comm]

theorem foldl_insert_nil [DecidableEq α] (l : List α) :
    l.foldl (fun found a => if a ∈ found then found else found ++ [a]) [] = l.eraseDups := by
  rw [foldl_insert_eq]
  simp

end FirstMention

namespace Graph
variable {g : Graph} {i j : Nat}

/-- The builder accepts the graph. -/
def IsBuilt (g : Graph) : Prop :=
  ∃ b : Builder, b.build = .ok g

theorem mem_successors : j ∈ g.successors i ↔ (i, j) ∈ g.edges := by
  simp only [successors, List.mem_reverse, List.mem_map, List.mem_filter, decide_eq_true_eq]
  constructor
  · rintro ⟨⟨a, b⟩, ⟨h, rfl⟩, rfl⟩
    exact h
  · exact fun h => ⟨(i, j), ⟨h, rfl⟩, rfl⟩

theorem mem_predecessors : i ∈ g.predecessors j ↔ (i, j) ∈ g.edges := by
  simp only [predecessors, List.mem_reverse, List.mem_map, List.mem_filter, decide_eq_true_eq]
  constructor
  · rintro ⟨⟨a, b⟩, ⟨h, rfl⟩, rfl⟩
    exact h
  · exact fun h => ⟨(i, j), ⟨h, rfl⟩, rfl⟩

theorem nodup_successors (h : g.edges.Nodup) (i : Nat) : (g.successors i).Nodup := by
  unfold successors
  rw [List.nodup_reverse]
  refine List.Nodup.map_on ?_ (h.filter _)
  intro x hx y hy hxy
  have hx := of_decide_eq_true (List.mem_filter.1 hx).2
  have hy := of_decide_eq_true (List.mem_filter.1 hy).2
  exact Prod.ext (hx.trans hy.symm) hxy

theorem nodup_predecessors (h : g.edges.Nodup) (j : Nat) : (g.predecessors j).Nodup := by
  unfold predecessors
  rw [List.nodup_reverse]
  refine List.Nodup.map_on ?_ (h.filter _)
  intro x hx y hy hxy
  have hx := of_decide_eq_true (List.mem_filter.1 hx).2
  have hy := of_decide_eq_true (List.mem_filter.1 hy).2
  exact Prod.ext hxy (hx.trans hy.symm)

theorem mem_edges_of_callOf? (h : g.callOf? j = some i) : (i, j) ∈ g.edges := by
  unfold callOf? at h
  split at h
  · exact mem_predecessors.1 (List.mem_of_head? h)
  · cases h

theorem isCallReturn_of_callOf? (h : g.callOf? j = some i) :
    (g.statement? j).any Statement.isCallReturn = true := by
  unfold callOf? at h
  split at h
  · assumption
  · cases h

theorem mem_edges_of_callReturnOf? (h : g.callReturnOf? i = some j) : (i, j) ∈ g.edges := by
  unfold callReturnOf? at h
  split at h
  · exact mem_successors.1 (List.mem_of_head? h)
  · cases h

theorem isCall_of_callReturnOf? (h : g.callReturnOf? i = some j) :
    (g.statement? i).any Statement.isCall = true := by
  unfold callReturnOf? at h
  split at h
  · assumption
  · cases h

theorem exists_call_of_any {st : Option Statement} (h : st.any Statement.isCall = true) :
    ∃ name args, st = some (.call name args) := by
  obtain ⟨statement, rfl, hcall⟩ := (Option.any_eq_true _ _).1 h
  cases statement with
  | call name args => exact ⟨name, args, rfl⟩
  | _ => cases hcall

theorem exists_callReturn_of_any {st : Option Statement}
    (h : st.any Statement.isCallReturn = true) : ∃ result, st = some (.callReturn result) := by
  obtain ⟨statement, rfl, hreturn⟩ := (Option.any_eq_true _ _).1 h
  cases statement with
  | callReturn result => exact ⟨result, rfl⟩
  | _ => cases hreturn

/-- The position of the first node with the label, behind all nodes if there is none. -/
def Builder.position (nodes : List Node) (label : Label) : Nat :=
  nodes.findIdx fun n => decide (n.label = label)

theorem Builder.resolve_eq_ok_iff {nodes : List Node} {label : Label} {i : Nat} :
    Builder.resolve nodes label = .ok i ↔
      label ∈ nodes.map (·.label) ∧ Builder.position nodes label = i := by
  have hmem : label ∈ nodes.map (·.label) ↔ position nodes label < nodes.length := by
    unfold position
    rw [List.findIdx_lt_length]
    simp
  have hresolve : resolve nodes label = .ok i ↔
      nodes.findIdx? (fun n => decide (n.label = label)) = some i := by
    unfold resolve
    split
    · next k hk => rw [hk, Except.ok.injEq, Option.some.injEq]
    · next hk => rw [hk]; simp
  rw [hresolve, List.findIdx?_eq_some_iff_findIdx_eq, hmem]
  change i < nodes.length ∧ position nodes label = i ↔ _
  constructor
  · rintro ⟨hi, rfl⟩
    exact ⟨hi, rfl⟩
  · rintro ⟨hi, rfl⟩
    exact ⟨hi, rfl⟩

/-- The edges are the resolved pairs of labels, each where it is first mentioned. -/
theorem Builder.resolveEdges_eq_ok_iff {nodes : List Node} {pairs : List (Label × Label)}
    {edges : List (Nat × Nat)} : Builder.resolveEdges nodes pairs = .ok edges ↔
      (∀ x ∈ pairs, x.1 ∈ nodes.map (·.label) ∧ x.2 ∈ nodes.map (·.label)) ∧
        (pairs.map (Prod.map (position nodes) (position nodes))).eraseDups = edges := by
  -- the edges found so far stay, however many labels are left
  have hfold (found : List (Nat × Nat)) :
      pairs.foldlM (fun found (x : Label × Label) => do
        let edge := (← resolve nodes x.1, ← resolve nodes x.2)
        pure (if edge ∈ found then found else found ++ [edge])) found = Except.ok edges ↔
      (∀ x ∈ pairs, x.1 ∈ nodes.map (·.label) ∧ x.2 ∈ nodes.map (·.label)) ∧
        (pairs.map (Prod.map (position nodes) (position nodes))).foldl
          (fun found e => if e ∈ found then found else found ++ [e]) found = edges := by
    induction pairs generalizing found with
    | nil => simp [pure, Except.pure]
    | cons x pairs ih =>
      rw [List.foldlM_cons, bind_eq_ok]
      rw [List.map_cons, List.foldl_cons, List.forall_mem_cons, and_assoc, ← ih]
      constructor
      · rintro ⟨next, hx, hrest⟩
        obtain ⟨i, hi, hx⟩ := bind_eq_ok.1 hx
        obtain ⟨j, hj, hx⟩ := bind_eq_ok.1 hx
        obtain ⟨hsource, rfl⟩ := resolve_eq_ok_iff.1 hi
        obtain ⟨htarget, rfl⟩ := resolve_eq_ok_iff.1 hj
        obtain rfl := Except.ok.inj hx
        exact ⟨⟨hsource, htarget⟩, hrest⟩
      · rintro ⟨⟨hi, hj⟩, hrest⟩
        refine ⟨_, ?_, hrest⟩
        dsimp only
        rw [resolve_eq_ok_iff.2 ⟨hi, rfl⟩, resolve_eq_ok_iff.2 ⟨hj, rfl⟩]
        rfl
  exact (hfold []).trans (by rw [foldl_insert_nil])

theorem lt_of_resolve {nodes : List Node} {label : Label}
    (h : Builder.resolve nodes label = .ok i) : i < nodes.length := by
  unfold Builder.resolve at h
  split at h
  · next hf =>
    cases h
    exact (List.findIdx?_eq_some_iff_findIdx_eq.1 hf).1
  · cases h

/-- The edges are the resolved pairs of labels, each of them once. -/
theorem mem_resolveEdges {nodes : List Node} {labels : List (Label × Label)}
    {edges : List (Nat × Nat)} (h : Builder.resolveEdges nodes labels = .ok edges) :
    edges.Nodup ∧ ∀ i j, (i, j) ∈ edges ↔ ∃ x ∈ labels, Builder.resolve nodes x.1 = .ok i ∧
      Builder.resolve nodes x.2 = .ok j := by
  obtain ⟨hends, rfl⟩ := Builder.resolveEdges_eq_ok_iff.1 h
  refine ⟨nodup_eraseDups _, fun i j => ?_⟩
  rw [List.mem_eraseDups, List.mem_map]
  refine exists_congr fun x => and_congr_right fun hx => ?_
  rw [Builder.resolve_eq_ok_iff, Builder.resolve_eq_ok_iff, and_iff_right (hends x hx).1,
    and_iff_right (hends x hx).2]
  exact Prod.ext_iff

theorem repeatedLabel?_eq_none_iff {seen labels : List Label} :
    Builder.repeatedLabel? seen labels = none ↔ labels.Nodup ∧ ∀ l ∈ labels, l ∉ seen := by
  induction labels generalizing seen with
  | nil => simp [Builder.repeatedLabel?]
  | cons l labels ih =>
    unfold Builder.repeatedLabel?
    by_cases hl : l ∈ seen
    · rw [if_pos hl]
      exact iff_of_false (by simp) fun h => h.2 l List.mem_cons_self hl
    · rw [if_neg hl, ih, List.nodup_cons, List.forall_mem_cons]
      simp only [List.mem_cons, not_or]
      constructor
      · rintro ⟨hnodup, hout⟩
        exact ⟨⟨fun hin => (hout l hin).1 rfl, hnodup⟩, hl, fun k hk => (hout k hk).2⟩
      · rintro ⟨⟨hin, hnodup⟩, -, hout⟩
        refine ⟨hnodup, fun k hk => ⟨?_, hout k hk⟩⟩
        rintro rfl
        exact hin hk

/-- Where no label is repeated, a label is resolved to the only node that has it. -/
theorem resolve_eq_ok {nodes : List Node} (h : (nodes.map (·.label)).Nodup) {label : Label} :
    Builder.resolve nodes label = .ok i ↔ ∃ n, nodes[i]? = some n ∧ n.label = label := by
  unfold Builder.resolve
  constructor
  · intro hi
    split at hi
    · next hfind =>
      cases hi
      obtain ⟨hlt, hlabel, -⟩ := List.findIdx?_eq_some_iff_getElem.1 hfind
      exact ⟨nodes[i], List.getElem?_eq_getElem hlt, by simpa using hlabel⟩
    · cases hi
  · rintro ⟨n, hn, rfl⟩
    have hlt : i < nodes.length := (List.getElem?_eq_some_iff.1 hn).1
    have hfind : nodes.findIdx? (fun n' => decide (n'.label = n.label)) = some i := by
      rw [List.findIdx?_eq_some_iff_getElem]
      have hget : nodes[i] = n := (List.getElem?_eq_some_iff.1 hn).2
      refine ⟨hlt, by simp [hget], ?_⟩
      intro k hk heq
      have hklt : k < nodes.length := Nat.lt_trans hk hlt
      have hkl : k < (nodes.map (·.label)).length := by simpa using hklt
      have hil : i < (nodes.map (·.label)).length := by simpa using hlt
      exact List.pairwise_iff_getElem.1 h k i hkl hil hk (by simpa [hget] using heq)
    rw [hfind]

/-- No node is without its partner. -/
theorem unpaired?_eq_none_iff : g.unpaired? = none ↔ ∀ i st, g.statement? i = some st →
    (st.isCall = true → ∃ j, g.successors i = [j] ∧
      (g.statement? j).any Statement.isCallReturn = true) ∧
    (st.isCallReturn = true → ∃ j, g.predecessors i = [j] ∧
      (g.statement? j).any Statement.isCall = true) := by
  have hnode (P : Nat → Statement → Prop) : (∀ x ∈ g.nodes.zipIdx, P x.2 x.1.statement) ↔
      ∀ i st, g.statement? i = some st → P i st := by
    simp only [Prod.forall, List.mem_zipIdx_iff_getElem?, statement?, node?, Option.map_eq_some_iff]
    constructor
    · rintro h i st ⟨node, hnode, rfl⟩
      exact h node i hnode
    · exact fun h node i hnode => h i _ ⟨node, hnode, rfl⟩
  unfold unpaired?
  rw [List.findSome?_eq_none_iff, ← hnode]
  refine forall₂_congr fun x _ => ?_
  dsimp only
  -- a call or a call-return has no neighbour, one, or more
  cases x.1.statement with
  | call name args =>
    rcases g.successors x.2 with _ | ⟨j, _ | ⟨k, rest⟩⟩ <;>
      simp [Statement.isCall, Statement.isCallReturn]
  | callReturn result =>
    rcases g.predecessors x.2 with _ | ⟨j, _ | ⟨k, rest⟩⟩ <;>
      simp [Statement.isCall, Statement.isCallReturn]
  | _ => simp [Statement.isCall, Statement.isCallReturn]

/-- What the builder checks. -/
theorem build_eq_ok_iff {b : Builder} : b.build = .ok g ↔
    g.nodes = b.nodes ∧ (b.nodes.map (·.label)).Nodup ∧
      Builder.resolveEdges g.nodes b.edges = .ok g.edges ∧
      (∃ label, (b.entry <|> b.nodes.head?.map (·.label)) = some label ∧
        Builder.resolve g.nodes label = .ok g.entry) ∧
      Builder.exits g.nodes = [g.exit] ∧ g.unpaired? = none := by
  have hlabels : Builder.repeatedLabel? [] (b.nodes.map (·.label)) = none ↔
      (b.nodes.map (·.label)).Nodup := by
    rw [repeatedLabel?_eq_none_iff]
    simp
  rw [← hlabels]
  unfold Builder.build
  dsimp only
  constructor
  · intro h
    split at h
    · cases h
    case h_2 hnone =>
      have hlabels := Option.eq_none_iff_forall_ne_some.2 hnone
      obtain ⟨edges, hedges, h⟩ := bind_eq_ok.1 h
      split at h
      case h_2 => cases h
      case h_1 label hlabel =>
        obtain ⟨entry, hentry, h⟩ := bind_eq_ok.1 h
        split at h
        case h_2 => cases h
        case h_1 exit hexit =>
          split at h
          case h_1 => cases h
          case h_2 hpaired =>
            cases h
            exact ⟨rfl, hlabels, hedges, ⟨label, hlabel, hentry⟩, hexit, hpaired⟩
  · rintro ⟨hnodes, hlabels, hedges, ⟨label, hlabel, hentry⟩, hexit, hpaired⟩
    obtain ⟨nodes, edges, entry, exit⟩ := g
    obtain rfl := hnodes
    rw [hlabels, hlabel]
    refine bind_eq_ok.2 ⟨edges, hedges, bind_eq_ok.2 ⟨entry, hentry, ?_⟩⟩
    rw [hexit]
    dsimp only
    rw [hpaired]
    rfl

/-- Every label stands for one node. -/
theorem nodup_labels {b : Builder} (hg : b.build = .ok g) : (g.nodes.map (·.label)).Nodup := by
  obtain ⟨hnodes, hlabels, -⟩ := build_eq_ok_iff.1 hg
  rwa [hnodes]

namespace IsBuilt

theorem entry_lt (hg : g.IsBuilt) : g.entry < g.size := by
  obtain ⟨b, hb⟩ := hg
  obtain ⟨-, -, -, ⟨label, -, h⟩, -⟩ := build_eq_ok_iff.1 hb
  exact lt_of_resolve h

theorem edge_lt (hg : g.IsBuilt) (h : (i, j) ∈ g.edges) : i < g.size ∧ j < g.size := by
  obtain ⟨b, hb⟩ := hg
  obtain ⟨-, -, he, -⟩ := build_eq_ok_iff.1 hb
  obtain ⟨x, -, hi, hj⟩ := ((mem_resolveEdges he).2 i j).1 h
  exact ⟨lt_of_resolve hi, lt_of_resolve hj⟩

theorem statement?_exit (hg : g.IsBuilt) : g.statement? g.exit = some .exit := by
  obtain ⟨b, hb⟩ := hg
  obtain ⟨-, -, -, -, hexit, -⟩ := build_eq_ok_iff.1 hb
  have hmem : g.exit ∈ Builder.exits g.nodes := by
    rw [hexit]
    exact List.mem_singleton_self _
  obtain ⟨⟨node, k⟩, hk, hkx⟩ := List.mem_map.1 hmem
  obtain ⟨hk, hs⟩ := List.mem_filter.1 hk
  have hnode : g.nodes[k]? = some node := List.mem_zipIdx_iff_getElem?.1 hk
  have hkx' : k = g.exit := hkx
  have hstatement : node.statement = .exit := by
    have hs' : node.statement.isExit = true := hs
    cases hn : node.statement <;> simp_all [Statement.isExit]
  rw [← hkx', statement?, node?, hnode, Option.map_some, hstatement]

theorem exit_lt (hg : g.IsBuilt) : g.exit < g.size := by
  obtain ⟨node, hnode, -⟩ := Option.map_eq_some_iff.1 hg.statement?_exit
  exact (List.getElem?_eq_some_iff.1 hnode).1

/-- The only node that is an exit. -/
theorem eq_exit (hg : g.IsBuilt) (h : g.statement? i = some .exit) : i = g.exit := by
  obtain ⟨b, hb⟩ := hg
  obtain ⟨-, -, -, -, hexit, -⟩ := build_eq_ok_iff.1 hb
  obtain ⟨node, hnode, hstatement⟩ := Option.map_eq_some_iff.1 h
  have hmem : i ∈ Builder.exits g.nodes := by
    refine List.mem_map.2 ⟨(node, i), List.mem_filter.2 ⟨?_, ?_⟩, rfl⟩
    · exact List.mem_zipIdx_iff_getElem?.2 hnode
    · rw [hstatement]
      rfl
  rw [hexit] at hmem
  exact List.mem_singleton.1 hmem

/-- A call has one successor, which is a call-return. -/
theorem successors_call (hg : g.IsBuilt) {name : String} {args : List Expression}
    (h : g.statement? i = some (.call name args)) :
    ∃ j result, g.successors i = [j] ∧ g.statement? j = some (.callReturn result) := by
  obtain ⟨b, hb⟩ := hg
  obtain ⟨-, -, -, -, -, hpaired⟩ := build_eq_ok_iff.1 hb
  obtain ⟨j, hj, hr⟩ := (unpaired?_eq_none_iff.1 hpaired i _ h).1 rfl
  obtain ⟨result, hs⟩ := exists_callReturn_of_any hr
  exact ⟨j, result, hj, hs⟩

/-- A call-return has one predecessor, which is a call. -/
theorem predecessors_callReturn (hg : g.IsBuilt) {result : Option Path}
    (h : g.statement? j = some (.callReturn result)) :
    ∃ i name args, g.predecessors j = [i] ∧ g.statement? i = some (.call name args) := by
  obtain ⟨b, hb⟩ := hg
  obtain ⟨-, -, -, -, -, hpaired⟩ := build_eq_ok_iff.1 hb
  obtain ⟨i, hi, hc⟩ := (unpaired?_eq_none_iff.1 hpaired j _ h).2 rfl
  obtain ⟨name, args, hs⟩ := exists_call_of_any hc
  exact ⟨i, name, args, hi, hs⟩

/-- The call before a call-return is the one it is paired with. -/
theorem callOf?_eq (hg : g.IsBuilt) {result : Option Path}
    (hj : g.statement? j = some (.callReturn result)) (he : (i, j) ∈ g.edges) :
    g.callOf? j = some i ∧ ∃ name args, g.statement? i = some (.call name args) := by
  obtain ⟨k, name, args, hk, hs⟩ := hg.predecessors_callReturn hj
  have hi : i ∈ g.predecessors j := mem_predecessors.2 he
  rw [hk, List.mem_singleton] at hi
  subst hi
  refine ⟨?_, name, args, hs⟩
  rw [callOf?, hj, hk]
  rfl

/-- No call-return follows itself. -/
theorem ne_of_isCallReturn (hg : g.IsBuilt) {st : Statement} (hj : g.statement? j = some st)
    (hst : st.isCallReturn = true) (he : (i, j) ∈ g.edges) : i ≠ j := by
  rintro rfl
  cases st with
  | callReturn result =>
    obtain ⟨-, name, args, hcall⟩ := hg.callOf?_eq hj he
    rw [hj] at hcall
    cases hcall
  | _ => cases hst

theorem callReturnOf?_eq (hg : g.IsBuilt) {name : String} {args : List Expression}
    (hi : g.statement? i = some (.call name args)) (he : (i, j) ∈ g.edges) :
    g.callReturnOf? i = some j := by
  obtain ⟨k, result, hk, -⟩ := hg.successors_call hi
  have hj : j ∈ g.successors i := mem_successors.2 he
  rw [hk, List.mem_singleton] at hj
  subst hj
  rw [callReturnOf?, hi, hk]
  rfl

theorem callOf?_isSome (hg : g.IsBuilt) {result : Option Path}
    (hj : g.statement? j = some (.callReturn result)) :
    ∃ i name args, g.callOf? j = some i ∧ g.statement? i = some (.call name args) := by
  obtain ⟨i, name, args, hi, hs⟩ := hg.predecessors_callReturn hj
  have he : (i, j) ∈ g.edges := mem_predecessors.1 (by rw [hi]; exact List.mem_singleton_self i)
  exact ⟨i, name, args, (hg.callOf?_eq hj he).1, hs⟩

/-- Calls and call-returns point at each other. -/
theorem callReturnOf?_iff (hg : g.IsBuilt) : g.callReturnOf? i = some j ↔ g.callOf? j = some i := by
  constructor
  · intro h
    obtain ⟨name, args, hcall⟩ := exists_call_of_any (isCall_of_callReturnOf? h)
    have he := mem_edges_of_callReturnOf? h
    -- the only node behind a call is a call-return
    obtain ⟨k, result, hk, hreturn⟩ := hg.successors_call hcall
    have hj : j ∈ g.successors i := mem_successors.2 he
    rw [hk, List.mem_singleton] at hj
    subst hj
    exact (hg.callOf?_eq hreturn he).1
  · intro h
    obtain ⟨result, hreturn⟩ := exists_callReturn_of_any (isCallReturn_of_callOf? h)
    have he := mem_edges_of_callOf? h
    obtain ⟨-, name, args, hcall⟩ := hg.callOf?_eq hreturn he
    exact hg.callReturnOf?_eq hcall he

end IsBuilt
end Graph

namespace Program
variable {p q : Program}

/-- The program with one more function, which replaces another one of its name. -/
def withFunction (p : Program) (f : Function) : Program :=
  { p with functions := p.functions.insert f.name f }

theorem function?_withFunction (p : Program) (f : Function) (name : String) :
    (p.withFunction f).function? name = if f.name = name then some f else p.function? name := by
  unfold withFunction function?
  rw [Std.ExtTreeMap.getElem?_insert]
  simp only [Std.LawfulEqCmp.compare_eq_iff_eq]

theorem main_withFunction (p : Program) {f : Function} (h : f.name = mainName) :
    (p.withFunction f).main = .ok f := by
  unfold main
  rw [function?_withFunction, if_pos h]

theorem forall_withFunction {P : Function → Prop} {f : Function} (hf : P f)
    (h : ∀ name f', p.function? name = some f' → P f') (name : String) (f' : Function)
    (hf' : (p.withFunction f).function? name = some f') : P f' := by
  rw [function?_withFunction] at hf'
  split at hf'
  · cases hf'
    exact hf
  · exact h name f' hf'

theorem forall_empty {P : Function → Prop} (name : String) (f : Function)
    (h : ({} : Program).function? name = some f) : P f := by
  simp [function?] at h

/-- A function is added if there is none of its name. -/
theorem addFunction_eq_ok_iff {f : Function} :
    p.addFunction f = .ok q ↔ p.function? f.name = none ∧ p.withFunction f = q := by
  have hnone : p.function? f.name = none ↔ p.functions.contains f.name = false := by
    unfold function?
    rw [Std.ExtTreeMap.contains_eq_isSome_getElem?, Option.isSome_eq_false_iff,
      Option.isNone_iff_eq_none]
  unfold addFunction
  rw [hnone]
  cases p.functions.contains f.name with
  | true => simp
  | false => simp [withFunction]

/-- Every function of the program has a graph that the builder accepts. -/
def IsBuilt (p : Program) : Prop :=
  ∀ name f, p.function? name = some f → f.graph.IsBuilt

theorem isBuilt_empty : ({} : Program).IsBuilt :=
  forall_empty

theorem IsBuilt.withFunction (h : p.IsBuilt) {f : Function} (hf : f.graph.IsBuilt) :
    (p.withFunction f).IsBuilt :=
  forall_withFunction hf h

/-- Each function stands under its name. -/
def IsNamed (p : Program) : Prop :=
  ∀ name f, p.function? name = some f → f.name = name

theorem isNamed_empty : ({} : Program).IsNamed := by
  intro name f h
  simp [function?] at h

theorem IsNamed.withFunction (h : p.IsNamed) (f : Function) : (p.withFunction f).IsNamed := by
  intro name g hg
  rw [function?_withFunction] at hg
  split at hg
  · next heq =>
    obtain rfl := Option.some.inj hg
    exact heq
  · exact h name g hg

end Program
end ScriptMemory
