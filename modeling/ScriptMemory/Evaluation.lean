import ScriptMemory.Program
import ScriptMemory.Snapshot

/-! Evaluation of expressions at one program point. Suspicious reads are reported to the
diagnostics of the snapshot. -/
namespace ScriptMemory

structure Evaluator where
  program : Program
  /-- Where findings are reported to come from, and where objects are allocated. -/
  location : String
  /-- The frame that reads look variables up in. -/
  level : Nat
  /-- Findings are dropped. -/
  quiet : Bool := false

/-- What one value says about a class constant. -/
inductive ConstantLookup where
  | found (value : Scalar)
  /-- The value may be an object of any class. -/
  | unknown
  | missing (className : String)
  | noObject
  /-- Reported elsewhere already, or no value of the program. -/
  | silent

namespace Evaluator

def warn (e : Evaluator) (cause : Cause) (message : String) : Transact Unit := do
  if !e.quiet then
    Snapshot.record .valueCreated
    Snapshot.report { cause, location := e.location, message }

/-- Reads a path and reports that it may be undefined. -/
def read (e : Evaluator) (p : Path) : Transact Entry := do
  let entry := (← get).memory.readAt p e.level
  if entry.hasUndefined then
    e.warn (if p.isVariable then .undefinedVariable else .undefinedIndex)
      (p.text ++ " may be undefined")
  return entry

/-- An object of a class with the default values of its declared fields, allocated here. -/
def newObject (e : Evaluator) (className : String) : Transact Entry := do
  let declared := ((e.program.class? className).map (·.fields)).getD []
  let fields ← declared.mapM fun (name, value) => do
    return (name, Entry.ofValue (← Snapshot.create (.scalar value)))
  return .ofValue (.object (← Snapshot.createObject className e.location fields))

def lookUp (e : Evaluator) (name : String) : Value → ConstantLookup
  | .any | .anyOf .object => .unknown
  | .object o => match e.program.constant? o.className name with
    | some value => .found value
    | none => .missing o.className
  | .anyOf _ | .scalar _ | .interval _ | .array _ | .resource _ => .noObject
  | .undefined | .reference _ | .info _ => .silent

/-- The constant of every class that the path may hold an object of. -/
def classConstant (e : Evaluator) (target : Path) (name : String) : Transact Entry := do
  let targets := (← e.read target).toList
  let result ← targets.foldlM (fun (result : Entry) v => do
    match e.lookUp name v with
    | .found value => return result.insert (← Snapshot.create (.scalar value))
    | .unknown => return result.insert (← Snapshot.create .any)
    | .missing className =>
      e.warn .classConstantDoesNotExist (className ++ "::" ++ name ++ " does not exist")
      return result
    | .noObject | .silent => return result) ∅
  if targets.any fun v => e.lookUp name v matches .noObject then
    e.warn .constantOnNonObject (target.text ++ " may not be an object")
  if result.isEmpty then return result.insert (← Snapshot.create .any) else return result

def evaluate (e : Evaluator) : Expression → Transact Entry
  | .literal value => return .ofValue (← Snapshot.create (.scalar value))
  | .any => return .ofValue (← Snapshot.create .any)
  | .anyOf k => return .ofValue (← Snapshot.create (.anyOf k))
  | .interval first last =>
    return .ofValue (← Snapshot.create (.interval (.integer ⟨.finite first, .finite last⟩)))
  | .newArray => return .ofValue (.array .freshArray)
  | .read p => e.read p
  | .newObject className => e.newObject className
  | .classConstant target name => e.classConstant target name

end Evaluator
end ScriptMemory
