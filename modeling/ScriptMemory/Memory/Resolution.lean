import ScriptMemory.Memory

/-! The locations a path denotes. A path is followed one segment at a time; between two segments
the locations are closed under aliases. Must-aliases always hold the same values and every write
reaches all aliases, so reading follows must-aliases only and writing follows all. -/
namespace ScriptMemory
open Std

/-- What is reached from `start` by at most as many steps as the first number says. -/
def reach {α : Type} [Ord α] [TransOrd α] [LawfulEqOrd α] (next : α → List α) :
    Nat → OrdSet α → OrdSet α
  | 0, start => start
  | rounds + 1, start =>
    let more := start.insertMany (start.toList.flatMap next)
    if more = start then start else reach next rounds more

/-- Locations that are certainly and possibly meant; none is both. -/
structure Locations where
  must : OrdSet Index := ∅
  may : OrdSet Index := ∅
  /-- An unknown key or field was crossed on the way. -/
  unknown : Bool := false
deriving DecidableEq

namespace Locations

def isEmpty (l : Locations) : Bool :=
  l.must.isEmpty && l.may.isEmpty

/-- The certain locations and then the possible ones. -/
def toList (l : Locations) : List Index :=
  l.must.toList ++ l.may.toList

/-- Some locations of which a part is certain. -/
def split (must all : OrdSet Index) (unknown : Bool) : Locations :=
  ⟨must, all \ must, unknown⟩

/-- The variable a path starts from, in the frame at a level. -/
def ofVariable (p : Path) (level : Nat) : Locations :=
  let table := match p.scope with
    | .global => .global
    | .current => Table.atLevel level
  { must := (∅ : OrdSet Index).insert (.ofVariable p.name table) }

end Locations

/-- The alias edges that are followed. -/
inductive AliasReach where
  | must
  | all
deriving DecidableEq

namespace Memory

/-- Closes locations under aliasing. What must-aliases reach from a certain location is certain;
whatever else is reached is possible. A shortest way to an alias leaves every defined location at
most once, which bounds the rounds. -/
def expand (m : Memory) (use : AliasReach) (l : Locations) : Locations :=
  let must := reach (fun i => (m.aliases i).must) m.cells.size l.must
  match use with
  | .must => .split must l.may l.unknown
  | .all =>
    .split must (reach (fun i => (m.aliases i).toList) m.cells.size (must ∪ l.may)) l.unknown

/-- Where a segment below `i` is looked up: at `i` itself for a key, at the objects that `i` may
hold for a field. A location that holds no object stands for itself, so that the look-up still
names a location. -/
def containersOf (m : Memory) (i : Index) (s : Segment) : List Index :=
  if s.isField && !(m.objectsAt i).isEmpty then (m.objectsAt i).map ObjectValue.index else [i]

/-- The listed members of a container: the fields of an object, or the members of an array. -/
def membersOf (m : Memory) (container : Index) (ofObject : Bool) : List Index :=
  match ofObject, container with
  | true, .root (.object id) => m.fields id
  | true, _ => []
  | false, _ => m.members container

/-- The members of `i` that a segment may name. -/
def membersNamed (m : Memory) (i : Index) (s : Segment) : List Index :=
  (m.containersOf i s).flatMap fun c =>
    -- an unknown segment names every listed member, and the unknown one besides
    (if s.isUnknown then m.membersOf c s.isField else []) ++ [c.member s]

/-- The one member of `i` that a segment names, if that is certain. -/
def memberNamed? (m : Memory) (i : Index) (s : Segment) : Option Index :=
  match m.containersOf i s with
  | [c] => if s.isUnknown then none else some (c.member s)
  | _ => none

/-- Moves every location one segment down. -/
def step (m : Memory) (l : Locations) (s : Segment) : Locations :=
  .split (.ofList (l.must.toList.filterMap fun i => m.memberNamed? i s))
    (.ofList (l.toList.flatMap fun i => m.membersNamed i s)) (l.unknown || s.isUnknown)

/-- The locations a path denotes from the frame at a level, before aliases of the last one. -/
def follow (m : Memory) (use : AliasReach) (p : Path) (level : Nat) : Locations :=
  p.segments.foldl (fun l s => m.step (m.expand use l) s) (.ofVariable p level)

/-- The locations a path denotes for reading. -/
def resolve (m : Memory) (p : Path) (level : Nat) : Locations :=
  m.expand .must (m.follow .must p level)

end Memory
end ScriptMemory
