import ScriptMemory.Memory.Reading

/-! Memory under edit. Entries over the limit are simplified on the way in, and arrays are copied
by value: a write names the arrays to copy by where they lie in memories that it leaves alone, so
source and target may overlap. -/
namespace ScriptMemory
open Std

/-- A memory being edited. -/
structure Draft where
  memory : Memory
  /-- The scalars and intervals an entry may hold, if that is bounded. -/
  limit : Option Nat
  /-- How many entries have been simplified. -/
  simplified : Nat := 0

/-- The array that `owner` owns in a memory. -/
structure ArraySource where
  memory : Memory
  owner : Index

namespace ArraySource

/-- An array without members. -/
def blank : ArraySource :=
  ⟨{}, .freshArray⟩

def segments (a : ArraySource) : OrdSet Segment :=
  (a.memory.cell a.owner).members

/-- The arrays that an entry of `m` holds. -/
def ofEntry (m : Memory) (e : Entry) : List ArraySource :=
  e.arrays.map (⟨m, ·⟩)

/-- The segments of the members that any of the arrays has. -/
def allSegments (arrays : List ArraySource) : OrdSet Segment :=
  .ofList (arrays.flatMap (·.segments.toList))

/-- What several arrays hold at one member together; it may be undefined where one of them lacks
the member. -/
def memberEntry (arrays : List ArraySource) (s : Segment) : Entry :=
  let held := (arrays.filter (·.segments.contains s)).map fun a =>
    a.memory.entryOrUndefined (a.owner.member s)
  let joined := held.foldl Entry.join ∅
  if held.length < arrays.length then joined.insert .undefined else joined

/-- The arrays that several arrays hold at one member. -/
def memberArrays (arrays : List ArraySource) (s : Segment) : List ArraySource :=
  (arrays.filter fun a =>
    a.segments.contains s && a.memory.holdsArray (a.owner.member s)).map fun a =>
      ⟨a.memory, a.owner.member s⟩

/-- How deep the arrays may be nested at most: every array on a way down is a defined location. -/
def depth (arrays : List ArraySource) : Nat :=
  (arrays.map (·.memory.cells.size)).foldl max 0

end ArraySource

namespace Draft

/-- Changes the memory, without regard to the limit. -/
def update (d : Draft) (f : Memory → Memory) : Draft :=
  { d with memory := f d.memory }

/-- The entry within the limit, if it has to be simplified. -/
def simplify? (d : Draft) (e : Entry) : Option Entry :=
  d.limit.bind e.simplify?

/-- Writes an entry, simplified if it is over the limit. -/
def write (d : Draft) (i : Index) (e : Entry) : Draft :=
  match d.simplify? e with
  | some s => { d.update (·.write i s) with simplified := d.simplified + 1 }
  | none => d.update (·.write i e)

/-- Simplifies every entry over the limit. -/
def simplifyAll (d : Draft) : Draft :=
  let memory := d.memory.mapEntries fun _ e => (d.simplify? e).getD e
  { d with memory, simplified := d.simplified + d.memory.changedEntries memory }

/-- Writes an entry at one location: a strong write replaces what was there together with all
members, a weak one adds to it. Arrays in the entry become the location's own array. -/
def place (d : Draft) (target : Index) (e : Entry) (hasArray strong : Bool) : Draft :=
  let others := e.filter fun v => v.arrayOwner?.isNone
  let values := if hasArray then others.insert (.array target) else others
  if strong then (d.update (·.clearMembers target)).write target values
  else d.write target ((d.memory.entryOrUndefined target).join values)

/-- Writes an entry and, below it, the members of the arrays to copy, to a bounded depth. -/
def copy : Nat → Draft → Index → Entry → List ArraySource → Bool → Draft
  | 0, d, target, e, arrays, strong => d.place target e (!arrays.isEmpty) strong
  | depth + 1, d, target, e, arrays, strong =>
    (ArraySource.allSegments arrays).toList.foldl
      (fun d s => copy depth d (target.member s) (ArraySource.memberEntry arrays s)
        (ArraySource.memberArrays arrays s) strong)
      (d.place target e (!arrays.isEmpty) strong)

/-- Writes an entry and copies the arrays that it holds. -/
def store (d : Draft) (target : Index) (e : Entry) (arrays : List ArraySource) (strong : Bool) :
    Draft :=
  copy (ArraySource.depth arrays) d target e arrays strong

/-- Writes an entry to every location a path denotes. A certain location is replaced unless an
unknown member was crossed; `force` replaces it even then. -/
def storeAll (d : Draft) (targets : Locations) (e : Entry) (arrays : List ArraySource)
    (force : Bool) : Draft :=
  let strong := force || !targets.unknown
  let d := targets.must.toList.foldl (fun d i => d.store i e arrays strong) d
  targets.may.toList.foldl (fun d i => d.store i e arrays false) d

/-- Makes sure that a segment below `i` can be written: `i` holds its own array for a key, or some
object for a field. What a certain location held before is replaced. -/
def prepare (d : Draft) (s : Segment) (certain : Bool) (i : Index) : Draft :=
  let add (d : Draft) (container : Value) :=
    d.write i (if certain then .ofValue container
      else (d.memory.entryOrUndefined i).insert container)
  -- an object made on the way is named after the location
  if s.isField then
    if (d.memory.objectsAt i).isEmpty then
      let o : ObjectValue := { id := i.text, className := ({} : ObjectDescriptor).className }
      add (d.update (·.declareObject o)) (.object o)
    else d
  else if d.memory.holdsArray i then d
  else add d (.array i)

/-- Follows one segment for writing: closes the locations under aliases, creates the containers
that are missing, and moves down. -/
def advance (s : Segment) : Draft × Locations → Draft × Locations
  | (d, l) =>
    -- the containers are made under every alias, since each of them leads to the member
    let l := d.memory.expand .all l
    let d := l.must.toList.foldl (prepare · s true) d
    let d := l.may.toList.foldl (prepare · s false) d
    (d, d.memory.step l s)

/-- The locations a path denotes for writing, before aliases of the last one. Missing containers
on the way come into being. -/
def follow (d : Draft) (p : Path) (level : Nat) : Draft × Locations :=
  p.segments.foldl (fun dl s => advance s dl) (d, .ofVariable p level)

/-- The locations a path denotes for writing, with all their aliases. -/
def resolve (d : Draft) (p : Path) (level : Nat) : Draft × Locations :=
  let (d, l) := d.follow p level
  (d, d.memory.expand .all l)

/-- Writes an entry to a path in the frame at a level, copying the arrays that it holds. -/
def assign (d : Draft) (p : Path) (level : Nat) (e : Entry) (force : Bool) : Draft :=
  let (d, targets) := d.resolve p level
  d.storeAll targets e (ArraySource.ofEntry d.memory e) force

/-- Removes the locations a path certainly denotes, and makes the possible ones possibly
undefined. -/
def unset (d : Draft) (p : Path) : Draft :=
  let targets := d.memory.follow .all p d.memory.level
  targets.may.toList.foldl
    (fun d i => if d.memory.isDefined i then d.store i .undefined [] false else d)
    (d.update (·.remove targets.must.toList))

end Draft
end ScriptMemory
