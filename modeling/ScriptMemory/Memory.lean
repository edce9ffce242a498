import ScriptMemory.Alias
import ScriptMemory.Entry

/-! The memory of a script at one point: what every defined location holds, which locations are
aliases, and which members an array or an object has. -/
namespace ScriptMemory
open Std

/-- One defined location. -/
structure Cell where
  /-- What the location may hold. A location that is only known as an alias has no entry. -/
  entry : Option Entry := none
  aliases : AliasSet := ∅
  /-- The members of the array that the location owns. -/
  members : OrdSet Segment := ∅

instance : DecidableEq Cell := fun c d =>
  decidable_of_iff (c.entry = d.entry ∧ c.aliases = d.aliases ∧ c.members = d.members)
    (by cases c; cases d; simp)

/-- The cell of `i` without any mention of the locations that are gone. -/
def Cell.forget (c : Cell) (i : Index) (gone : Index → Bool) : Cell :=
  { c with
    aliases := c.aliases.filter fun j => !gone j
    members := c.members.filter fun s => !gone (i.member s) }

/-- An abstract object: its class, and the fields written so far. An object that comes into being
by a write has no class of its own. -/
structure ObjectDescriptor where
  className : String := "stdClass"
  fields : OrdSet Segment := ∅
deriving DecidableEq

structure Memory where
  cells : OrdMap Index Cell := ∅
  objects : OrdMap ObjectId ObjectDescriptor := ∅
  /-- The number of calls the running function is deep. -/
  level : Nat := 0

instance : DecidableEq Memory := fun m n =>
  decidable_of_iff (m.cells = n.cells ∧ m.objects = n.objects ∧ m.level = n.level)
    (by cases m; cases n; simp)

namespace Memory

/-- The memory a script starts with: nothing but the slot for findings. -/
def initial : Memory :=
  { cells := (∅ : OrdMap Index Cell).insert .diagnostics { entry := some ∅ } }

def isDefined (m : Memory) (i : Index) : Bool :=
  m.cells.contains i

/-- The cell of a location; it is blank where nothing is defined. -/
def cell (m : Memory) (i : Index) : Cell :=
  m.cells[i]?.getD {}

def entry? (m : Memory) (i : Index) : Option Entry :=
  (m.cell i).entry

/-- What the location holds, for joining with more. -/
def entryOrUndefined (m : Memory) (i : Index) : Entry :=
  (m.entry? i).getD .undefined

def aliases (m : Memory) (i : Index) : AliasSet :=
  (m.cell i).aliases

/-- The location holds the array that it owns. -/
def holdsArray (m : Memory) (i : Index) : Bool :=
  (m.entry? i).any (·.contains (.array i))

/-- The members of the array that the location owns. -/
def members (m : Memory) (i : Index) : List Index :=
  (m.cell i).members.toList.map i.member

/-- The objects the location may hold. -/
def objectsAt (m : Memory) (i : Index) : List ObjectValue :=
  ((m.entry? i).map (·.objects)).getD []

/-- The listed fields of an object. -/
def fields (m : Memory) (id : ObjectId) : List Index :=
  match m.objects[id]? with
  | some d => d.fields.toList.map (Index.object id).member
  | none => []

/-- The location with the members below it, the members below those, and so on. The first argument
bounds the depth. -/
def subtree (m : Memory) : Nat → Index → List Index
  | 0, i => [i]
  | depth + 1, i => i :: (m.members i).flatMap (m.subtree depth)

/-- Every member below a location, at any depth: the indices along a way down are all defined. -/
def below (m : Memory) (i : Index) : List Index :=
  (m.members i).flatMap (m.subtree m.cells.size)

/-- Removes locations, and every mention of them as alias, member or field. -/
def discard (m : Memory) (gone : Index → Bool) : Memory :=
  { m with
    cells := m.cells.filterMap fun i c => if gone i then none else some (c.forget i gone)
    objects := m.objects.map fun id d =>
      { d with fields := d.fields.filter fun s => !gone ((Index.object id).member s) } }

/-- Removes locations together with all that lies below them. -/
def remove (m : Memory) (targets : List Index) : Memory :=
  let gone : OrdSet Index := .ofList (targets ++ targets.flatMap m.below)
  m.discard gone.contains

/-- Removes all that lies below a location. -/
def clearMembers (m : Memory) (i : Index) : Memory :=
  let gone : OrdSet Index := .ofList (m.below i)
  m.discard gone.contains

/-- Lists a member with its container: with the object below whose root it lies, or with the
location above it if that one holds its own array. -/
def register (m : Memory) : Index → Memory
  | .root _ => m
  | .member (.root (.object id)) s =>
    { m with objects := m.objects.modify id fun d => { d with fields := d.fields.insert s } }
  | .member parent s =>
    if m.holdsArray parent then
      { m with cells := m.cells.modify parent fun c => { c with members := c.members.insert s } }
    else m

/-- Replaces the entry of a location, which is defined from then on. -/
def put (m : Memory) (i : Index) (e : Entry) : Memory :=
  -- members are listed only as long as the location owns its array
  let members := if e.contains (.array i) then (m.cell i).members else ∅
  { m with cells := m.cells.insert i { m.cell i with entry := some e, members } }

/-- Writes an entry. The members of a location are gone as soon as it no longer holds its own
array, and the location is listed with its container. -/
def write (m : Memory) (i : Index) (e : Entry) : Memory :=
  ((if e.contains (.array i) then m else m.clearMembers i).register i).put i e

/-- Changes the aliases of a location if it is defined. -/
def modifyAliases (m : Memory) (i : Index) (f : AliasSet → AliasSet) : Memory :=
  { m with cells := m.cells.modify i fun c => { c with aliases := f c.aliases } }

/-- Replaces the aliases of a location, which is defined from then on. -/
def setAliases (m : Memory) (i : Index) (a : AliasSet) : Memory :=
  { m with cells := m.cells.insert i { m.cell i with aliases := a } }

/-- Introduces an object unless there is one of that identity already. -/
def declareObject (m : Memory) (o : ObjectValue) : Memory :=
  if m.objects.contains o.id then m
  else { m with objects := m.objects.insert o.id { className := o.className } }

/-- Applies a function to every entry. -/
def mapEntries (m : Memory) (f : Index → Entry → Entry) : Memory :=
  { m with cells := m.cells.map fun i c => { c with entry := c.entry.map (f i) } }

/-- How many locations have a different entry in `n`. -/
def changedEntries (m n : Memory) : Nat :=
  m.cells.keys.countP fun i => m.entry? i ≠ n.entry? i

/-- What a location is, apart from the values it holds. -/
structure Shape where
  aliases : AliasSet
  /-- Present exactly when the location holds its own array. -/
  members : Option (OrdSet Segment)
  objects : List ObjectValue
deriving DecidableEq

/-- The structure of memory: the shape of every defined location. -/
def shapes (m : Memory) : OrdMap Index Shape :=
  m.cells.map fun i c =>
    { aliases := c.aliases
      members := if m.holdsArray i then some c.members else none
      objects := m.objectsAt i }

/-- The data of memory: every entry. -/
def entries (m : Memory) : OrdMap Index Entry :=
  m.cells.filterMap fun _ c => c.entry

/-- The two memories differ in values at most. -/
def sameStructure (m n : Memory) : Bool :=
  m.shapes = n.shapes && m.objects = n.objects && m.level = n.level

/-- The two memories hold the same values. -/
def sameData (m n : Memory) : Bool :=
  m.entries = n.entries

/-- Every entry with the aliases of its location, one line each. -/
def dump (m : Memory) : String :=
  "call level " ++ toString m.level ++ "\n" ++
    String.join (m.entries.toList.map fun (i, e) =>
      let a := m.aliases i
      let aliases := a.must.map (fun j => "must " ++ j.text) ++ a.may.map fun j => "may " ++ j.text
      i.text ++ " = " ++ e.text ++
        (if a.isEmpty then "" else " aliases [" ++ ", ".intercalate aliases ++ "]") ++ "\n")

end Memory
end ScriptMemory
