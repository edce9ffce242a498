import Mathlib.Logic.Relation
import ScriptMemory.Proofs.Interpreter
import ScriptMemory.Proofs.Listing.Fallthrough

/-! Straight-line programs. Their functions are listed without successors, so that every node flows
into the next one and a return flows to the exit, and their calls nest to some depth only. -/
namespace ScriptMemory
open Relation

namespace Graph
variable {g : Graph} {i j : Nat} {st : Statement}

/-- The graph of a listing in which no node has a list of successors. -/
def IsStraight (g : Graph) : Prop :=
  ∃ nodes : List Listing.ListedNode, (∀ n ∈ nodes, n.successors? = none) ∧
    (Listing.builderOf nodes).build = .ok g

theorem IsStraight.isBuilt (h : g.IsStraight) : g.IsBuilt := by
  obtain ⟨nodes, -, hg⟩ := h
  exact ⟨_, hg⟩

/-- A node flows to the one listed after it, and a return to the exit. -/
theorem IsStraight.successors_eq (h : g.IsStraight) (i : Nat) :
    g.successors i = (g.next? i).toList := by
  obtain ⟨nodes, hlisted, hg⟩ := h
  cases hn : nodes[i]? with
  | some n => exact successors_of_unlisted hg hn (hlisted n (List.mem_of_getElem? hn))
  | none =>
    have hnext : g.next? i = none := by
      unfold next?
      rw [statement?_of_listed hg, hn]
      rfl
    rw [hnext, Option.toList_none, List.eq_nil_iff_forall_not_mem]
    intro j hj
    have hlt := (IsBuilt.edge_lt ⟨_, hg⟩ (mem_successors.1 hj)).1
    rw [size_of_listed hg] at hlt
    exact Nat.not_lt_of_le (List.getElem?_eq_none_iff.1 hn) hlt

theorem IsStraight.mem_edges (h : g.IsStraight) : (i, j) ∈ g.edges ↔ g.next? i = some j := by
  rw [← mem_successors, h.successors_eq, Option.mem_toList]

/-- A straight line starts with its first node. -/
theorem IsStraight.entry_eq (h : g.IsStraight) : g.entry = 0 := by
  obtain ⟨nodes, -, hg⟩ := h
  exact entry_of_listed hg

theorem IsStraight.nodup_edges (h : g.IsStraight) : g.edges.Nodup := by
  obtain ⟨nodes, -, hg⟩ := h
  obtain ⟨-, -, hedges, -⟩ := build_eq_ok_iff.1 hg
  exact (mem_resolveEdges hedges).1

/-- The nodes before flow one into the next, up to this one. -/
def Reaches (g : Graph) (i : Nat) : Prop :=
  ∀ k < i, g.next? k = some (k + 1)

theorem reaches_zero (g : Graph) : g.Reaches 0 :=
  fun _ hk => absurd hk (Nat.not_lt_zero _)

theorem Reaches.succ (h : g.Reaches i) (hi : g.next? i = some (i + 1)) : g.Reaches (i + 1) := by
  intro k hk
  rcases Nat.lt_succ_iff_lt_or_eq.1 hk with hk | rfl
  · exact h k hk
  · exact hi

theorem next?_exit (hg : g.IsBuilt) : g.next? g.exit = none := by
  unfold next?
  rw [hg.statement?_exit]

theorem next?_returnValue {value : Option Expression}
    (h : g.statement? i = some (.returnValue value)) : g.next? i = some g.exit := by
  unfold next?
  rw [h]

/-- The exit is not passed. -/
theorem Reaches.le_exit (h : g.Reaches i) (hg : g.IsBuilt) : i ≤ g.exit := by
  refine Nat.le_of_not_lt fun hlt => ?_
  have hnext := h g.exit hlt
  rw [next?_exit hg] at hnext
  cases hnext

theorem Reaches.lt_exit (h : g.Reaches i) (hg : g.IsBuilt) (hst : g.statement? i = some st)
    (hne : st ≠ .exit) : i < g.exit := by
  refine Nat.lt_of_le_of_ne (h.le_exit hg) ?_
  rintro rfl
  rw [hg.statement?_exit] at hst
  exact hne (Option.some.inj hst).symm

/-- No node flows into itself. -/
theorem next?_ne (hg : g.IsBuilt) (i : Nat) : g.next? i ≠ some i := by
  intro hi
  have hi' := hi
  unfold next? at hi
  split at hi
  · cases hi
  · cases hi
  · next hst =>
    rw [← Option.some.inj hi] at hi'
    rw [next?_exit hg] at hi'
    cases hi'
  · split at hi
    · exact Nat.succ_ne_self i (Option.some.inj hi)
    · cases hi

/-- All but an exit and a return flows into the node that is listed next. -/
theorem Reaches.next?_eq (h : g.Reaches i) (hg : g.IsBuilt) (hst : g.statement? i = some st)
    (hne : st ≠ .exit) (hreturn : ∀ value, st ≠ .returnValue value) :
    g.next? i = some (i + 1) := by
  have hexit := hg.exit_lt
  have hlt := h.lt_exit hg hst hne
  have hnext : (if i + 1 < g.size then some (i + 1) else none) = some (i + 1) := if_pos (by omega)
  unfold next?
  rw [hst]
  cases st with
  | exit => exact absurd rfl hne
  | returnValue value => exact absurd rfl (hreturn value)
  | _ => exact hnext

/-- Control only goes forward. -/
theorem Reaches.lt_next (h : g.Reaches i) (hg : g.IsBuilt) (hi : g.next? i = some j) : i < j := by
  have hi' := hi
  unfold next? at hi
  split at hi
  · cases hi
  · cases hi
  · next hst =>
    obtain rfl := Option.some.inj hi
    exact h.lt_exit hg hst (by simp)
  · split at hi
    · obtain rfl := Option.some.inj hi
      exact Nat.lt_succ_self i
    · cases hi

/-- What else flows to the same node comes later. -/
theorem Reaches.lt_of_next?_eq (h : g.Reaches i) (hij : i < j) {k : Nat}
    (hk : g.next? k = some j) (hne : k ≠ i) : i < k := by
  refine Nat.lt_of_le_of_ne (Nat.le_of_not_lt fun hlt => ?_) hne.symm
  have hnext := h k hlt
  rw [hk, Option.some.injEq] at hnext
  omega

/-- A call flows into its call-return. -/
theorem IsStraight.next?_call (h : g.IsStraight) {name : String} {args : List Expression}
    (hst : g.statement? i = some (.call name args)) :
    ∃ result, g.next? i = some (i + 1) ∧ g.statement? (i + 1) = some (.callReturn result) := by
  obtain ⟨j, result, hj, hreturn⟩ := h.isBuilt.successors_call hst
  rw [h.successors_eq] at hj
  have hnext : g.next? i = some j := by
    cases hi : g.next? i with
    | none =>
      rw [hi] at hj
      cases hj
    | some k =>
      rw [hi] at hj
      exact congrArg some (List.singleton_inj.1 hj)
  have hsucc : j = i + 1 := by
    have hi := hnext
    unfold next? at hi
    rw [hst] at hi
    dsimp only at hi
    split at hi
    · exact (Option.some.inj hi).symm
    · cases hi
  rw [hsucc] at hnext hreturn
  exact ⟨result, hnext, hreturn⟩

/-- Only a call flows into a call-return. -/
theorem IsStraight.isCallReturn_eq_false (h : g.IsStraight) (hi : g.next? i = some j)
    (hst : g.statement? i = some st) (hcall : st.isCall = false) {st' : Statement}
    (hj : g.statement? j = some st') : st'.isCallReturn = false := by
  cases st' with
  | callReturn result =>
    obtain ⟨-, name, args, hcall'⟩ := h.isBuilt.callOf?_eq hj (h.mem_edges.2 hi)
    obtain rfl := Option.some.inj (hst.symm.trans hcall')
    cases hcall
  | _ => rfl

/-- A function does not start with a call-return. -/
theorem IsStraight.isCallReturn_zero (h : g.IsStraight) (hst : g.statement? 0 = some st) :
    st.isCallReturn = false := by
  cases st with
  | callReturn result =>
    obtain ⟨k, name, args, hk, hcall⟩ := h.isBuilt.predecessors_callReturn hst
    obtain ⟨-, hnext, -⟩ := h.next?_call hcall
    have hedge : (k, 0) ∈ g.edges :=
      mem_predecessors.1 (by rw [hk]; exact List.mem_singleton_self k)
    rw [h.mem_edges, hnext] at hedge
    cases hedge
  | _ => rfl

end Graph

/-- The statement is one of those of straight-line programs: it assigns literals and plain variables
to plain variables, and calls with such arguments. -/
def Statement.isStraight : Statement → Bool
  | nop | enter | exit => true
  | assign p value => p.isVariable && value.isPlain
  | call _ args => args.all Expression.isPlain
  | callReturn result => result.all Path.isVariable
  | returnValue value => value.all Expression.isPlain
  | _ => false

/-- The names of the functions that are called before the first exit or return. -/
def Statement.callees : List Statement → List String
  | [] => []
  | .exit :: _ => []
  | .returnValue _ :: _ => []
  | .call name _ :: rest => name :: callees rest
  | _ :: rest => callees rest

structure Function.IsStraight (f : Function) : Prop where
  params : (f.params.map (·.name)).Nodup
  graph : f.graph.IsStraight
  statements : ∀ st ∈ f.statements, st.isStraight = true

/-- The statements from a node on. -/
theorem Function.drop_statements {f : Function} {i : Nat} {st : Statement} {rest : List Statement}
    (h : f.statements.drop i = st :: rest) :
    f.graph.statement? i = some st ∧ f.statements.drop (i + 1) = rest := by
  constructor
  · have hhead : (f.statements.drop i)[0]? = some st := by
      rw [h]
      rfl
    rw [List.getElem?_drop] at hhead
    exact List.getElem?_map.symm.trans hhead
  · rw [← List.drop_drop, h]
    rfl

theorem Function.exists_drop_statements {f : Function} {i : Nat} {st : Statement}
    (h : f.graph.statement? i = some st) : ∃ rest, f.statements.drop i = st :: rest := by
  have hget : f.statements[i]? = some st := List.getElem?_map.trans h
  obtain ⟨hlt, rfl⟩ := List.getElem?_eq_some_iff.1 hget
  exact ⟨_, List.drop_eq_getElem_cons hlt⟩

theorem Function.IsStraight.of_drop {f : Function} (hf : f.IsStraight) {i : Nat} {st : Statement}
    {rest : List Statement} (h : f.statements.drop i = st :: rest) : st.isStraight = true := by
  apply hf.statements
  apply List.mem_of_mem_drop (i := i)
  rw [h]
  exact List.mem_cons_self

namespace Program
variable {P : Program} {f g : Function}

/-- All that the function calls is defined, and its calls nest at most `depth` deep. -/
def Nests (P : Program) : (depth : Nat) → Function → Prop
  | 0, f => Statement.callees f.statements = []
  | depth + 1, f => ∀ name ∈ Statement.callees f.statements, ∃ g, P.function? name = some g ∧
      P.Nests depth g

theorem Nests.callee {depth : Nat} (h : P.Nests depth f) {name : String}
    (hname : name ∈ Statement.callees f.statements) :
    ∃ d g, depth = d + 1 ∧ P.function? name = some g ∧ P.Nests d g := by
  cases depth with
  | zero =>
    have hnone : Statement.callees f.statements = [] := h
    rw [hnone] at hname
    cases hname
  | succ d =>
    obtain ⟨g, hg, hnests⟩ := h name hname
    exact ⟨d, g, rfl, hg, hnests⟩

/-- One function calls the other. -/
def Calls (P : Program) (f g : Function) : Prop :=
  ∃ name ∈ Statement.callees f.statements, P.function? name = some g

/-- What nests to some depth is not recursive. -/
theorem Nests.acyclic {depth : Nat} (h : P.Nests depth f) : ¬TransGen P.Calls f f := by
  induction depth generalizing f with
  | zero =>
    intro hcycle
    obtain ⟨g, ⟨name, hname, -⟩, -⟩ := TransGen.head'_iff.1 hcycle
    obtain ⟨d, -, hd, -⟩ := h.callee hname
    cases hd
  | succ depth ih =>
    intro hcycle
    obtain ⟨g, hcall, hback⟩ := TransGen.head'_iff.1 hcycle
    obtain ⟨name, hname, hg⟩ := hcall
    obtain ⟨d, g', hd, hg', hnests⟩ := h.callee hname
    obtain rfl : g' = g := Option.some.inj (hg'.symm.trans hg)
    obtain rfl := Nat.succ.inj hd
    -- the cycle goes through what is called, which nests less deep
    exact ih hnests (TransGen.tail' hback ⟨name, hname, hg⟩)

/-- A program of straight lines, in which each function stands under its name. What the script calls
is defined and nests at most `depth` deep, so that nothing is called recursively. -/
structure IsStraight (P : Program) (depth : Nat) : Prop where
  named : ∀ name f, P.function? name = some f → f.name = name
  functions : ∀ name f, P.function? name = some f → f.IsStraight
  main : ∃ f, P.main = .ok f ∧ P.Nests depth f

theorem IsStraight.isBuilt {depth : Nat} (h : P.IsStraight depth) : P.IsBuilt :=
  fun name f hf => (h.functions name f hf).graph.isBuilt

end Program
end ScriptMemory
