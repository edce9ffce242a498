import ScriptMemory.Analysis.Worklist
import ScriptMemory.Evaluation

/-! The forward analysis: it keeps one snapshot per program point and processes points until none
of them changes. A function is analysed anew for every call site that leads to it; calls of unknown
functions, recursive calls and calls nested too deep are approximated instead. -/
namespace ScriptMemory
open Std

structure AnalysisConfig where
  limits : Limits := { widening := some 5, simplify := some 16 }
  /-- Points processed before the analysis gives up. -/
  maxSteps : Nat := 100000
  /-- Nested calls that are analysed. -/
  maxCallDepth : Nat := 8
deriving DecidableEq

inductive AnalysisError where
  | contract (cause : ContractError)
  | program (cause : ProgramError)
  | noFixpoint (steps : Nat)
deriving DecidableEq

def AnalysisError.message : AnalysisError → String
  | contract _ => "memory model contract violated"
  | program _ => "malformed program"
  | noFixpoint steps => "no fixpoint after " ++ toString steps ++ " steps"

/-- Where a call transfers control. -/
inductive CallTarget where
  | context (id : ContextId)
  /-- The call is not analysed; what it may change becomes unknown. -/
  | approximated (cause : Cause) (message : String) (callee : Option Function)
deriving DecidableEq

/-- What the memory of a point is made from. -/
inductive Input where
  /-- The join of the points before it. -/
  | join (sources : List Snapshot)
  /-- The memory at the call, with a new frame. -/
  | call (caller : Snapshot)
  /-- The memory at the end of the function called. -/
  | callReturn (exit : Snapshot)

structure AnalysisState where
  contexts : List Context
  /-- The contexts by the call nodes they were entered from. -/
  calls : OrdMap Point ContextId := ∅
  snapshots : OrdMap Point Snapshot := ∅
  worklist : Worklist := {}

structure Analysis where
  program : Program
  config : AnalysisConfig := {}

/-- Where a node stands, as findings and allocation sites name it. -/
def Function.location (f : Function) (node : Nat) : String :=
  f.name ++ ":" ++ toString ((f.graph.label? node).getD 0).toNat

namespace AnalysisState

/-- The context and those of its callers, innermost first. A caller is older than what it calls,
so the number of contexts bounds the chain. -/
def chain (s : AnalysisState) : Nat → ContextId → List Context
  | 0, _ => []
  | bound + 1, id =>
    match s.contexts[id]? with
    | none => []
    | some c => c :: ((c.caller.map fun p => s.chain bound p.context).getD [])

/-- The call node paired with a call-return node. -/
def callPoint (f : Function) (p : Point) : Except AnalysisError Point :=
  match f.graph.callOf? p.node with
  | some node => .ok { p with node }
  | none => .error (.program (.danglingCallReturn ((f.graph.label? p.node).getD 0)))

/-- What a point sees of another one. A point that is processed sees its own content from before;
on the first visit that is a blank snapshot. -/
def lookUp (s : AnalysisState) (current : Point) (previous : Snapshot) (p : Point) :
    Option Snapshot :=
  if p = current then some previous else s.snapshots[p]?

end AnalysisState

namespace Analysis

/-- Finds or makes the context that a call node enters. -/
def resolveCall (a : Analysis) (s : AnalysisState) (call : Point) (name : String) :
    AnalysisState × CallTarget :=
  match s.calls[call]? with
  | some id => (s, .context id)
  | none =>
    match a.program.function? name with
    | none =>
      (s, .approximated .unknownFunction ("call to undefined function " ++ name) none)
    | some f =>
      -- a function that is running already is not entered again
      let chain := s.chain s.contexts.length call.context
      let depth := ((chain.head?.map (·.depth)).getD 0) + 1
      if chain.any (·.function.name = name) then
        (s, .approximated .recursiveCall ("recursive call to " ++ name) (some f))
      else if depth > a.config.maxCallDepth then
        (s, .approximated .callDepthExceeded
          ("call to " ++ name ++ " nested deeper than " ++ toString a.config.maxCallDepth)
          (some f))
      else
        let id := s.contexts.length
        ({ s with
            contexts := s.contexts ++ [{ function := f, caller := some call, depth }]
            calls := s.calls.insert call id }, .context id)

/-- The call that a call or call-return node is about, with its target. -/
def targetOf (a : Analysis) (s : AnalysisState) (f : Function) (p : Point) :
    Statement → Except AnalysisError (AnalysisState × Option CallTarget)
  | .call name _ =>
    let (s, target) := a.resolveCall s p name
    .ok (s, some target)
  | .callReturn _ => do
    let call ← AnalysisState.callPoint f p
    match f.graph.statement? call.node with
    | some (.call name _) =>
      let (s, target) := a.resolveCall s call name
      return (s, some target)
    | _ => return (s, none)
  | _ => .ok (s, none)

/-- The function that a call calls, as far as it is known. -/
def callee? (s : AnalysisState) : Option CallTarget → Option Function
  | some (.context id) => s.contexts[id]?.map (·.function)
  | some (.approximated _ _ callee) => callee
  | none => none

/-- The input of a point, if it is there already. The script starts from a blank snapshot. -/
def input? (a : Analysis) (s : AnalysisState) (c : Context) (p : Point)
    (statement : Statement) (target : Option CallTarget) (previous : Snapshot) :
    Except AnalysisError (Option Input) := do
  let g := c.function.graph
  let seen := s.lookUp p previous
  -- the entry of a called function looks at its call only, not at edges that lead back to it
  if p.node = g.entry ∧ p.context ≠ .main then
    return (c.caller.bind seen).map .call
  match statement, target with
  | .callReturn _, some (.context id) =>
    let exit := s.contexts[id]?.bind fun callee => seen ⟨id, callee.function.graph.exit⟩
    return exit.map .callReturn
  | .callReturn _, some (.approximated ..) =>
    return (seen (← AnalysisState.callPoint c.function p)).map fun source => .join [source]
  | _, _ =>
    let before := (g.predecessors p.node).filterMap fun node => seen { p with node }
    -- the script starts at its entry, whatever leads back there
    let sources := if p.node = g.entry then before ++ [{ limits := a.config.limits }] else before
    return if sources.isEmpty then none else some (.join sources)

/-- Binds the parameters of the function entered in a context to the arguments of its call, which
are evaluated in the frame of the caller. -/
def bindParameters (a : Analysis) (s : AnalysisState) (c : Context) : Transact Unit := do
  let some call := c.caller | return
  let some caller := s.contexts[call.context]? | return
  let some (.call _ args) := caller.function.graph.statement? call.node | return
  let e : Evaluator := {
    program := a.program
    location := caller.function.location call.node
    level := (← get).memory.level - 1
    quiet := true }
  (c.function.params.zip args).forM fun (param, arg) => do
    let target := Path.ofVariable param.name
    -- only a path can be referred to; anything else is passed by value
    match param.byReference, arg with
    | true, .read source => Snapshot.bindReference target source
    | _, _ => Snapshot.assign target (← e.evaluate arg) true

/-- Takes the input of a point over into its snapshot. -/
def take (a : Analysis) (s : AnalysisState) (c : Context) (statement : Statement) :
    Input → Transact Unit
  | .join sources => Snapshot.extend sources
  | .call caller => do
    Snapshot.extendAsCall caller
    a.bindParameters s c
  | .callReturn exit =>
    let result := match statement with
      | .callReturn result => result
      | _ => none
    Snapshot.mergeWithCall result [exit]

/-- Makes unknown what a call that is not analysed may change: its result, and the arguments that
it takes by reference. -/
def approximate (result : Option Path) (callee : Option Function) (args : List Expression) :
    Transact Unit := do
  let any := Entry.ofValue (← Snapshot.create .any)
  if let some p := result then Snapshot.assign p any false
  if let some f := callee then
    (f.params.zip args).forM fun (param, arg) => do
      if let (true, .read p) := (param.byReference, arg) then Snapshot.assign p any false

/-- The effect of the statement of a point. -/
def apply (a : Analysis) (s : AnalysisState) (f : Function) (p : Point)
    (target : Option CallTarget) (statement : Statement) : Transact Unit := do
  let e : Evaluator := {
    program := a.program
    location := f.location p.node
    level := (← get).memory.level }
  match statement with
  | .nop | .enter | .exit => return
  | .assign path value => Snapshot.assign path (← e.evaluate value) false
  | .assignAlias path source => Snapshot.assignAlias path source
  | .unset path => Snapshot.unset path
  | .echo value | .branch value => discard (e.evaluate value)
  | .call _ args =>
    let params := ((callee? s target).map (·.params)).getD []
    args.zipIdx.forM fun (arg, i) => do
      -- Passing by reference creates the variable and does not read it.
      let bound := params[i]?.any (·.byReference) && arg matches .read _
      if !bound then discard (e.evaluate arg)
  | .callReturn result =>
    if let some (.approximated cause message callee) := target then
      e.warn cause message
      let args := match (f.graph.callOf? p.node).bind f.graph.statement? with
        | some (.call _ args) => args
        | _ => []
      approximate result callee args
  | .returnValue value =>
    let entry ← match value with
      | some value => e.evaluate value
      | none => do pure (.ofValue (← Snapshot.create (.scalar .null)))
    Snapshot.assignReturn entry

/-- One visit of a point: a transaction that takes the input over and applies the statement. -/
def visit (a : Analysis) (s : AnalysisState) (c : Context) (p : Point) (statement : Statement)
    (target : Option CallTarget) (input : Input) : Transact Bool := do
  Snapshot.start
  a.take s c statement input
  a.apply s c.function p target statement
  Snapshot.commit

/-- The points that depend on a point directly. -/
def successors (s : AnalysisState) (c : Context) (p : Point) (target : Option CallTarget) :
    List Point :=
  let g := c.function.graph
  -- the end of a called function hands over to its caller, whatever edges leave it
  match if p.node = g.exit then c.caller else none with
  | some call =>
    let caller := s.contexts[call.context]?
    ((caller.bind (·.function.graph.callReturnOf? call.node)).map (⟨call.context, ·⟩)).toList
  | none =>
    -- a call that is analysed leads into the function, any other one past it
    match if (g.statement? p.node).any Statement.isCall then target else none with
    | some (.context id) =>
      (s.contexts[id]?.map fun callee => ⟨id, callee.function.graph.entry⟩).toList
    | _ => (g.successors p.node).map (⟨p.context, ·⟩)

/-- Processes one point. Nothing changes while its input is not there; otherwise the points that
depend on it are queued if its memory has changed or is new. -/
def step (a : Analysis) (s : AnalysisState) (p : Point) : Except AnalysisError AnalysisState := do
  let some c := s.contexts[p.context]? | return s
  let some statement := c.function.graph.statement? p.node
    | throw (.program (.noNode p.node c.function.name))
  let (s, target) ← a.targetOf s c.function p statement
  let old := s.snapshots[p]?
  let previous := old.getD { limits := a.config.limits }
  match ← a.input? s c p statement target previous with
  | none => return s
  | some input =>
    match (a.visit s c p statement target input).run previous with
    | .error e _ => throw (.contract e)
    | .ok changed snapshot =>
      let s := { s with snapshots := s.snapshots.insert p snapshot }
      -- a new snapshot counts as changed even if the visit left it blank
      if changed || old.isNone then
        return { s with worklist := s.worklist.pushAll (successors s c p target) }
      else return s

end Analysis

/-- The frozen snapshots of a finished analysis. -/
structure Report where
  contexts : List Context
  snapshots : OrdMap Point Snapshot
  /-- The number of points processed, repetitions included. -/
  steps : Nat

namespace Analysis

/-- Processes points until none waits, at most as many as `remaining` says. -/
def drive (a : Analysis) : (remaining steps : Nat) → AnalysisState →
    Except AnalysisError (AnalysisState × Nat)
  | remaining, steps, s =>
    match s.worklist.pop?, remaining with
    | none, _ => .ok (s, steps)
    | some _, 0 => .error (.noFixpoint steps)
    | some (p, worklist), remaining + 1 => do
      drive a remaining (steps + 1) (← a.step { s with worklist } p)

/-- Freezes every snapshot. -/
def freezeAll (snapshots : OrdMap Point Snapshot) :
    Except AnalysisError (OrdMap Point Snapshot) :=
  snapshots.toList.foldlM (fun frozen (p, s) =>
    match Snapshot.freeze.run s with
    | .ok _ s => .ok (frozen.insert p s)
    | .error e _ => .error (.contract e)) ∅

/-- Runs the analysis to a fixpoint, with some points waiting beforehand. -/
def run (a : Analysis) (queued : Worklist) : Except AnalysisError Report := do
  let main ← match a.program.main with
    | .ok f => pure f
    | .error e => throw (.program e)
  let worklist := (queued.push ⟨.main, main.graph.entry⟩).1
  let contexts : List Context := [{ function := main, caller := none, depth := 0 }]
  let (s, steps) ← a.drive a.config.maxSteps 0 { contexts, worklist }
  return { contexts := s.contexts, snapshots := ← freezeAll s.snapshots, steps }

end Analysis

namespace Report

/-- The body of the script. -/
def main? (r : Report) : Option Function :=
  r.contexts.head?.map (·.function)

/-- The snapshot after a node of the script. -/
def mainSnapshot? (r : Report) (label : Label) : Option Snapshot :=
  ((r.main?.bind (·.graph.positionOf? label))).bind fun node => r.snapshots[Point.mk .main node]?

/-- The snapshot at the end of the script, if that is reachable. -/
def exit? (r : Report) : Option Snapshot :=
  r.main?.bind fun f => r.snapshots[Point.mk .main f.graph.exit]?

/-- Every finding that reaches the end of the script, in order. -/
def warnings (r : Report) : List Finding :=
  (r.exit?.map (·.memory.findings)).getD []

/-- The counters of all snapshots together. -/
def statistics (r : Report) : Statistics :=
  r.snapshots.toList.foldl (fun c (_, s) => c.absorb s.statistics) {}

end Report
end ScriptMemory
