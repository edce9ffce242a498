import ScriptMemory.Memory.Edit
import ScriptMemory.Statistics

/-! Snapshots: the memory of one program point, changed in transactions only. A change that breaks
the contract ends the transaction and brings back the memory it started from. -/
namespace ScriptMemory
open Std

/-- What bounds the precision of a snapshot; nothing, if a limit is missing. -/
structure Limits where
  /-- Commits after which changed entries are widened. -/
  widening : Option Nat := none
  /-- Scalars and intervals an entry may hold before it is simplified. -/
  simplify : Option Nat := none
deriving DecidableEq

inductive Phase where
  | resting
  /-- A transaction is open; it started from `checkpoint`. -/
  | open (checkpoint : Memory)
  | frozen
deriving DecidableEq

structure Snapshot where
  limits : Limits := {}
  memory : Memory := .initial
  phase : Phase := .resting
  commits : Nat := 0
  /-- The last commit changed the memory. -/
  changed : Bool := false
  statistics : Statistics := {}
deriving DecidableEq

/-- An operation on a snapshot. An error leaves a snapshot, too. -/
abbrev Transact := EStateM ContractError Snapshot

namespace Snapshot

def isFrozen (s : Snapshot) : Bool :=
  s.phase = .frozen

/-- What a snapshot can be told to be in. -/
def stateName (s : Snapshot) : String :=
  match s.phase with
  | .open _ => "TransactionOpen"
  | .frozen => "Frozen"
  | .resting => if s.commits = 0 then "Fresh" else "Committed"

def record (s : Statistic) : Transact Unit :=
  modify fun t => { t with statistics := t.statistics.record s }

def start : Transact Unit := do
  match (← get).phase with
  | .frozen => throw .frozen
  | .open _ => throw .transactionAlreadyOpen
  | .resting =>
    modify fun s => { s with phase := .open s.memory }
    record .startTransaction

/-- The memory that the open transaction started from. -/
def checkpoint : Transact Memory := do
  match (← get).phase with
  | .frozen => throw .frozen
  | .resting => throw .transactionNotOpen
  | .open checkpoint => pure checkpoint

/-- Ends the transaction and tells whether the memory has changed. Beyond the widening limit a
changed memory is widened first. -/
def commit : Transact Bool := do
  let before ← checkpoint
  modify fun s => { s with commits := s.commits + 1 }
  record .commitTransaction
  modify fun s =>
    -- this commit is counted already, so a limit of zero widens the first one
    if s.memory ≠ before && s.limits.widening.any (· < s.commits) then
      let memory := s.memory.widen before
      { s with
        memory
        statistics := s.statistics.add .widening (s.memory.changedEntries memory) }
    else s
  modify fun s => { s with changed := s.memory ≠ before, phase := .resting }
  return (← get).changed

/-- Forbids further transactions. -/
def freeze : Transact Unit := do
  if let .open _ := (← get).phase then throw .freezeDuringTransaction
  modify fun s => { s with phase := .frozen }

/-- Runs an edit in the open transaction. If it fails, the memory is that of the checkpoint again
and the transaction is over; what was counted stays counted. -/
def mutate {α : Type} (kind : Statistic) (edit : Edit α) : Transact α := do
  let before ← checkpoint
  record kind
  let s ← get
  match edit.run { memory := s.memory, limit := s.limits.simplify } with
  | .ok result d =>
    set { s with
      memory := d.memory
      statistics := s.statistics.add .simplification d.simplified }
    return result
  | .error e d =>
    -- the statistics survive, the changes do not
    set { s with
      memory := before
      phase := .resting
      statistics := s.statistics.add .simplification d.simplified }
    throw e

/-- Writes an entry to every location a path denotes, and creates missing containers on the way.
Certain locations are replaced, possible ones added to. -/
def assign (p : Path) (e : Entry) (force : Bool) : Transact Unit :=
  mutate .assign (Edit.assign p e force)

/-- Writes to one location, without regard to aliases. -/
def assignIndex (i : Index) (e : Entry) (strong : Bool) : Transact Unit :=
  mutate .assign (Edit.assignIndex i e strong)

/-- Stores the return value of the running function. -/
def assignReturn (e : Entry) : Transact Unit := do
  assignIndex (.returnSlot (← get).memory.level) e true

/-- Makes one path a reference to another. -/
def assignAlias (target source : Path) : Transact Unit :=
  mutate .assignAlias (Edit.assignAlias target source)

/-- Binds a parameter of the running function to an argument of its caller. -/
def bindReference (target source : Path) : Transact Unit :=
  mutate .assignAlias (Edit.bindReference target source)

/-- Makes one defined location an alias of another. -/
def createAlias (i target : Index) : Transact Unit :=
  mutate .createAlias (Edit.createAlias i target)

/-- Stores an array without members. -/
def createArray (p : Path) : Transact Unit :=
  mutate .createArray (Edit.createArray p)

/-- Makes the object of an allocation site and writes its fields. -/
def createObject (className : String) (site : ObjectId) (fields : List (String × Entry)) :
    Transact ObjectValue :=
  mutate .createObject (Edit.createObject className site fields)

/-- Removes certain locations; possible ones become possibly undefined. -/
def unset (p : Path) : Transact Unit :=
  mutate .unset (Edit.unset p)

/-- Adds a finding to the diagnostics. -/
def report (f : Finding) : Transact Unit :=
  mutate .warning (Edit.report f)

/-- Takes over the memory of other snapshots, joined if there are several. -/
def extend (sources : List Snapshot) : Transact Unit :=
  mutate .extend (Edit.extend (sources.map (·.memory)))

/-- Starts the frame of a function called from `caller`. -/
def extendAsCall (caller : Snapshot) : Transact Unit :=
  mutate .extend (Edit.enterCall caller.memory)

/-- Takes over the memory at the exits of a called function and closes its frame. -/
def mergeWithCall (result : Option Path) (outputs : List Snapshot) : Transact Unit :=
  mutate .mergeWithCall (Edit.leaveCall result (outputs.map (·.memory)))

/-- Writes to one location what several locations of other snapshots hold together. -/
def mergeInto (output : Index) (sources : List (Index × Snapshot)) : Transact Unit :=
  mutate .merge (Edit.mergeInto output (sources.map fun (i, s) => (i, s.memory)))

/-- Counts a value made on behalf of the snapshot. No transaction is needed. -/
def create (v : Value) : Transact Value := do
  record .valueCreated
  return v

end Snapshot
end ScriptMemory
