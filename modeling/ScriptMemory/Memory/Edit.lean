import ScriptMemory.Memory.Draft
import ScriptMemory.Memory.Join

/-! The edits that a snapshot offers. An edit that breaks the contract stops with an error; the
draft it leaves then only tells how much was simplified on the way. -/
namespace ScriptMemory
open Std

abbrev Edit := EStateM ContractError Draft

namespace Memory

/-- Adds an alias edge between `i` and `target`, in both directions. Where the new edge makes the
older aliases of `i` uncertain, they are made so on both sides. -/
def link (m : Memory) (i target : Index) : Except ContractError Memory :=
  if i = target then .ok m
  else do
    let before := m.aliases i
    let (bound, strength) := before.bind target
    let m := m.setAliases i bound
    -- the older aliases of `i` learn here that they are no longer certain
    let m := match strength with
      | .must => m
      | .may => before.must.foldl (fun m j => m.modifyAliases j (·.set i .may)) m
    -- a certain edge must not contradict what the other end says
    match strength with
    | .must => return m.setAliases target (← (m.aliases target).insert i .must)
    | .may => return m.setAliases target ((m.aliases target).set i .may)

/-- Replaces the aliases of `i` by those that are defined, in both directions. -/
def realias (m : Memory) (i : Index) (a : AliasSet) : Memory :=
  let kept := a.filter fun j => j ≠ i && m.isDefined j
  let m := (m.aliases i).toList.foldl (fun m j => m.modifyAliases j (·.erase i)) m
  let m := kept.must.foldl (fun m j => m.modifyAliases j (·.set i .must)) m
  let m := kept.may.foldl (fun m j => m.modifyAliases j (·.set i .may)) m
  m.setAliases i kept

end Memory

namespace Edit

/-- References describe edges of the alias graph and are never stored. -/
def rejectReferences (e : Entry) : Edit Unit :=
  if e.hasReference then throw .referenceAsData else pure ()

def assign (p : Path) (e : Entry) (force : Bool) : Edit Unit := do
  rejectReferences e
  modify fun d => d.assign p d.memory.level e force

/-- Writes to one location, without regard to aliases. -/
def assignIndex (i : Index) (e : Entry) (strong : Bool) : Edit Unit := do
  rejectReferences e
  modify fun d => d.store i e (ArraySource.ofEntry d.memory e) strong

/-- The locations a path denotes for writing, before aliases of the last one. -/
def follow (p : Path) (level : Nat) : Edit Locations :=
  modifyGet fun d => (d.follow p level).swap

def link (i target : Index) : Edit Unit := do
  match (← get).memory.link i target with
  | .ok m => modify (·.update fun _ => m)
  | .error e => throw e

/-- Binds every location of one path to every location of another, and copies the values over. A
location that is referred to comes into being, as null. -/
def bindPaths (target : Path) (targetLevel : Nat) (source : Path) (sourceLevel : Nat) :
    Edit Unit := do
  let sources ← follow source sourceLevel
  let create (strong : Bool) (d : Draft) (i : Index) :=
    if d.memory.isDefined i then d else d.store i (.ofValue (.scalar .null)) [] strong
  modify fun d => sources.must.toList.foldl (create true) d
  modify fun d => sources.may.toList.foldl (create false) d
  -- the values are read before the targets come into being, which may change the sources
  let m := (← get).memory
  let e := (sources.toList.map m.readIndex).foldl Entry.join ∅
  let targets ← follow target targetLevel
  targets.toList.forM fun t => sources.toList.forM fun s => link t s
  modify fun d => d.storeAll targets e (ArraySource.ofEntry m e) true

/-- Makes one path of the running function a reference to another. -/
def assignAlias (target source : Path) : Edit Unit := do
  let level := (← get).memory.level
  bindPaths target level source level

/-- Binds a parameter to an argument of the caller, which is looked up one level above. -/
def bindReference (target source : Path) : Edit Unit := do
  match (← get).memory.level with
  | 0 => throw .noCallFrame
  | caller + 1 => bindPaths target (caller + 1) source caller

/-- Links two locations that have to be defined. -/
def createAlias (i target : Index) : Edit Unit := do
  [i, target].forM fun j => do
    if !(← get).memory.isDefined j then throw (.missingIndex j)
  link i target

/-- Stores an array without members. -/
def createArray (p : Path) : Edit Unit :=
  modify fun d =>
    let (d, targets) := d.resolve p d.memory.level
    d.storeAll targets (.ofValue (.array .freshArray)) [.blank] true

/-- Makes the object of an allocation site and writes its fields. On a later visit of the site the
fields are added to those of the object made before. -/
def createObject (className : String) (site : ObjectId) (fields : List (String × Entry)) :
    Edit ObjectValue := do
  let o : ObjectValue := { id := site, className }
  -- the object of an earlier visit may still be around, so its fields are kept
  let revisited := (← get).memory.objects.contains site
  modify (·.update (·.declareObject o))
  fields.forM fun (name, e) => assignIndex (o.index.member (.field name)) e !revisited
  pure o

def unset (p : Path) : Edit Unit :=
  modify (·.unset p)

/-- Adds a finding to the diagnostics. -/
def report (f : Finding) : Edit Unit :=
  modify fun d => d.write .diagnostics (((d.memory.entry? .diagnostics).getD ∅).insert (.info f))

/-- Takes over the memory of one source, or the join of several. -/
def extend : List Memory → Edit Unit
  | [] => throw .noSources
  | first :: rest =>
    match rest.find? (·.level ≠ first.level) with
    | some other => throw (.callLevelMismatch first.level other.level)
    | none =>
      if rest.isEmpty then modify (·.update fun _ => first)
      else modify fun d => (d.update fun _ => .join (first :: rest) first.level).simplifyAll

/-- Starts the frame of a called function. -/
def enterCall (caller : Memory) : Edit Unit :=
  modify (·.update fun _ => { caller with level := caller.level + 1 })

/-- Takes over the memory at the exits of a called function, closes its frame and writes what it
returns, null if nothing. -/
def leaveCall (result : Option Path) (outputs : List Memory) : Edit Unit := do
  extend outputs
  let m := (← get).memory
  match m.level with
  | 0 => throw .noCallFrame
  | level + 1 =>
    -- the return slot belongs to the frame that is closed, so it is read first
    let e := m.readIndex (.returnSlot (level + 1))
    let defined := e.erase .undefined
    let returned := if e.hasUndefined || defined.isEmpty then defined.insert (.scalar .null)
      else defined
    modify (·.update fun m => { m.discard (·.isRootedAtLevel (level + 1)) with level })
    if let some p := result then
      modify fun d =>
        let (d, targets) := d.resolve p level
        d.storeAll targets returned (ArraySource.ofEntry m returned) true

/-- Writes to one location what several locations of other memories hold together. An alias stays
certain where every source has it so, and is dropped where it is not defined here. -/
def mergeInto (output : Index) (sources : List (Index × Memory)) : Edit Unit := do
  if sources.isEmpty then throw .noSources
  let e := (sources.map fun (i, m) => m.entryOrUndefined i).foldl Entry.join ∅
  let arrays := sources.flatMap fun (i, m) =>
    ArraySource.ofEntry m (m.entryOrUndefined i)
  let aliases := AliasSet.merge (sources.map fun (i, m) => m.aliases i)
  modify fun d => d.store output e arrays true
  modify (·.update (·.realias output aliases))

end Edit
end ScriptMemory
