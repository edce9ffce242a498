import ScriptMemory.Proofs.Concretization
import ScriptMemory.Proofs.Graph

/-! Executions of scripts over plain variables. A script is scalar if it stores literals, unknown
values, intervals and other variables only; branches go either way. -/
namespace ScriptMemory

/-- What the variables of a script hold; an unset one holds nothing. -/
abbrev Store := String → Option RuntimeValue

namespace Store

/-- No variable is set. -/
def blank : Store :=
  fun _ => none

def set (σ : Store) (name : String) (x : Option RuntimeValue) : Store :=
  fun n => if n = name then x else σ n

end Store

namespace Expression

/-- The expression reads at most a plain variable, and makes neither an array nor an object. -/
def isScalar : Expression → Bool
  | literal _ | any | anyOf _ | interval .. => true
  | read p => p.isVariable
  | newArray | newObject _ | classConstant .. => false

/-- What an expression may be at run time. What is read of an unset variable is nothing. -/
inductive Evaluates (σ : Store) : Expression → Option RuntimeValue → Prop
  | literal (s : Scalar) : Evaluates σ (.literal s) (some (.scalar s))
  | any (y : RuntimeValue) : Evaluates σ .any (some y)
  | anyOf (y : RuntimeValue) : Evaluates σ (.anyOf y.kind) (some y)
  | interval {first last n : Int64} (hfirst : first ≤ n) (hlast : n ≤ last) :
      Evaluates σ (.interval first last) (some (.scalar (.integer n)))
  | read {p : Path} (hp : p.isVariable = true) : Evaluates σ (.read p) (σ p.name)

end Expression

namespace Statement

/-- The statement changes no more than one plain variable. -/
def isScalar : Statement → Bool
  | nop | enter | exit | echo _ | branch _ => true
  | unset p => p.isVariable
  | assign p value => p.isVariable && value.isScalar
  | _ => false

/-- What a statement does to the variables. -/
inductive Runs (σ : Store) : Statement → Store → Prop
  | nop : Runs σ .nop σ
  | enter : Runs σ .enter σ
  | exit : Runs σ .exit σ
  | echo (value : Expression) : Runs σ (.echo value) σ
  | branch (condition : Expression) : Runs σ (.branch condition) σ
  | unset {p : Path} (hp : p.isVariable = true) : Runs σ (.unset p) (σ.set p.name none)
  | assign {p : Path} {value : Expression} {x : Option RuntimeValue} (hp : p.isVariable = true)
      (hx : value.Evaluates σ x) : Runs σ (.assign p value) (σ.set p.name x)

end Statement

namespace Graph

/-- Along some path from the entry of the graph, execution gets past a node with the variables as
they are in the store. -/
inductive Executes (g : Graph) : Nat → Store → Prop
  | entry {st : Statement} {σ : Store} (hst : g.statement? g.entry = some st)
      (hrun : st.Runs .blank σ) : Executes g g.entry σ
  | edge {i j : Nat} {st : Statement} {σ σ' : Store} (h : Executes g i σ) (he : (i, j) ∈ g.edges)
      (hst : g.statement? j = some st) (hrun : st.Runs σ σ') : Executes g j σ'

end Graph

/-- Every statement of the function is scalar. -/
def Function.IsScalar (f : Function) : Prop :=
  ∀ node ∈ f.graph.nodes, node.statement.isScalar = true

theorem Function.IsScalar.statement {f : Function} (h : f.IsScalar) {node : Nat} {st : Statement}
    (hst : f.graph.statement? node = some st) : st.isScalar = true := by
  obtain ⟨n, hn, rfl⟩ := Option.map_eq_some_iff.1 hst
  exact h n (List.mem_of_getElem? hn)

/-- No scalar statement is about a call. -/
theorem Statement.not_call_of_isScalar {st : Statement} (h : st.isScalar = true) :
    st.isCall = false ∧ st.isCallReturn = false := by
  cases st with
  | call name args => cases h
  | callReturn result => cases h
  | _ => exact ⟨rfl, rfl⟩

end ScriptMemory
