import ScriptMemory.ProgramError
import ScriptMemory.Statement

/-! Control-flow graphs of one function body, and the builder that checks them: labels are unique,
every edge and the entry name a node, there is one exit, and every call is paired with one
call-return. -/
namespace ScriptMemory

structure Node where
  label : Label
  statement : Statement
deriving DecidableEq

/-- Nodes are addressed by position; edges are kept in the order in which they were added. -/
structure Graph where
  nodes : List Node
  edges : List (Nat × Nat)
  entry : Nat
  exit : Nat
deriving DecidableEq

namespace Graph

def size (g : Graph) : Nat :=
  g.nodes.length

def node? (g : Graph) (position : Nat) : Option Node :=
  g.nodes[position]?

def statement? (g : Graph) (position : Nat) : Option Statement :=
  (g.node? position).map (·.statement)

def label? (g : Graph) (position : Nat) : Option Label :=
  (g.node? position).map (·.label)

def positionOf? (g : Graph) (label : Label) : Option Nat :=
  g.nodes.findIdx? (·.label = label)

/-- The targets of the edges from a node, the newest edge first. -/
def successors (g : Graph) (position : Nat) : List Nat :=
  ((g.edges.filter (·.1 = position)).map (·.2)).reverse

/-- The sources of the edges to a node, the newest edge first. -/
def predecessors (g : Graph) (position : Nat) : List Nat :=
  ((g.edges.filter (·.2 = position)).map (·.1)).reverse

/-- The call-return node paired with a call node. -/
def callReturnOf? (g : Graph) (position : Nat) : Option Nat :=
  if (g.statement? position).any Statement.isCall then (g.successors position).head? else none

/-- The call node paired with a call-return node. -/
def callOf? (g : Graph) (position : Nat) : Option Nat :=
  if (g.statement? position).any Statement.isCallReturn then (g.predecessors position).head?
  else none

/-- The first call or call-return node that is not paired. -/
def unpaired? (g : Graph) : Option ProgramError :=
  g.nodes.zipIdx.findSome? fun (node, i) =>
    if node.statement.isCall then
      match g.successors i with
      | [j] => if (g.statement? j).any Statement.isCallReturn then none
        else some (.danglingCall node.label)
      | _ => some (.danglingCall node.label)
    else if node.statement.isCallReturn then
      match g.predecessors i with
      | [j] => if (g.statement? j).any Statement.isCall then none
        else some (.danglingCallReturn node.label)
      | _ => some (.danglingCallReturn node.label)
    else none

/-- A graph being assembled. Edges and the entry may name nodes that are added later. -/
structure Builder where
  nodes : List Node := []
  edges : List (Label × Label) := []
  entry : Option Label := none

namespace Builder

def addNode (b : Builder) (label : Label) (statement : Statement) : Builder :=
  { b with nodes := b.nodes ++ [⟨label, statement⟩] }

def addEdge (b : Builder) (source target : Label) : Builder :=
  { b with edges := b.edges ++ [(source, target)] }

/-- Overrides the entry, which is the first node otherwise. -/
def setEntry (b : Builder) (label : Label) : Builder :=
  { b with entry := some label }

/-- The first label, in order, that an earlier node has as well. -/
def repeatedLabel? (seen : List Label) : List Label → Option Label
  | [] => none
  | l :: rest => if l ∈ seen then some l else repeatedLabel? (l :: seen) rest

/-- The position of a label among `nodes`. -/
def resolve (nodes : List Node) (label : Label) : Except ProgramError Nat :=
  match nodes.findIdx? (·.label = label) with
  | some i => .ok i
  | none => .error (.unknownLabel label)

/-- The edges by position, each pair once where it first occurs. -/
def resolveEdges (nodes : List Node) (edges : List (Label × Label)) :
    Except ProgramError (List (Nat × Nat)) :=
  edges.foldlM (fun found (source, target) => do
    let edge := (← resolve nodes source, ← resolve nodes target)
    pure (if edge ∈ found then found else found ++ [edge])) []

/-- The positions of the exit statements. -/
def exits (nodes : List Node) : List Nat :=
  (nodes.zipIdx.filter (·.1.statement.isExit)).map (·.2)

def build (b : Builder) : Except ProgramError Graph := do
  if let some label := repeatedLabel? [] (b.nodes.map (·.label)) then
    throw (.duplicateLabel label)
  let edges ← resolveEdges b.nodes b.edges
  let some entryLabel := b.entry <|> b.nodes.head?.map (·.label) | throw .emptyGraph
  let entry ← resolve b.nodes entryLabel
  match exits b.nodes with
  | [exit] =>
    let g : Graph := ⟨b.nodes, edges, entry, exit⟩
    match g.unpaired? with
    | some e => throw e
    | none => pure g
  | positions => throw (.exitCount positions.length)

end Builder

/-- The straight-line graph of some statements, labelled from zero. -/
def ofSequence (statements : List Statement) : Except ProgramError Graph :=
  let labels := (List.range statements.length).map UInt64.ofNat
  Builder.build {
    nodes := List.zipWith Node.mk labels statements
    edges := labels.zip (labels.drop 1) }

end Graph
end ScriptMemory
