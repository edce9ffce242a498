import ScriptMemory.Proofs.Memory.Books
import ScriptMemory.Proofs.Memory.Filed

/-! Reading the books. Paths are followed by the shapes and the objects alone, which tell aliases,
members and fields, and values are looked up in the entries alone. Over the books that memory tells
this is how memory is read. -/
namespace ScriptMemory
open Std

namespace Books

def isDefined (b : Books) (i : Index) : Bool :=
  b.shapes.contains i

def aliases (b : Books) (i : Index) : AliasSet :=
  (b.shapeAt i).aliases

/-- The location has an array descriptor. -/
def hasArray (b : Books) (i : Index) : Bool :=
  (b.shapeAt i).members.isSome

/-- The segments that the array descriptor of a location lists. -/
def segments (b : Books) (i : Index) : OrdSet Segment :=
  (b.shapeAt i).members.getD ∅

def members (b : Books) (i : Index) : List Index :=
  (b.segments i).toList.map i.member

def objectsAt (b : Books) (i : Index) : List ObjectValue :=
  (b.shapeAt i).objects

def fields (b : Books) (id : ObjectId) : List Index :=
  match b.objects[id]? with
  | some d => d.fields.toList.map (Index.object id).member
  | none => []

def entry? (b : Books) (i : Index) : Option Entry :=
  b.entries[i]?

def entryOrUndefined (b : Books) (i : Index) : Entry :=
  (b.entry? i).getD .undefined

def expand (b : Books) (use : AliasReach) (l : Locations) : Locations :=
  let must := reach (fun i => (b.aliases i).must) b.shapes.size l.must
  match use with
  | .must => .split must l.may l.unknown
  | .all =>
    .split must (reach (fun i => (b.aliases i).toList) b.shapes.size (must ∪ l.may)) l.unknown

def containersOf (b : Books) (i : Index) (s : Segment) : List Index :=
  if s.isField && !(b.objectsAt i).isEmpty then (b.objectsAt i).map ObjectValue.index else [i]

def membersOf (b : Books) (container : Index) (ofObject : Bool) : List Index :=
  match ofObject, container with
  | true, .root (.object id) => b.fields id
  | true, _ => []
  | false, _ => b.members container

def membersNamed (b : Books) (i : Index) (s : Segment) : List Index :=
  (b.containersOf i s).flatMap fun c =>
    (if s.isUnknown then b.membersOf c s.isField else []) ++ [c.member s]

def memberNamed? (b : Books) (i : Index) (s : Segment) : Option Index :=
  match b.containersOf i s with
  | [c] => if s.isUnknown then none else some (c.member s)
  | _ => none

def step (b : Books) (l : Locations) (s : Segment) : Locations :=
  .split (.ofList (l.must.toList.filterMap fun i => b.memberNamed? i s))
    (.ofList (l.toList.flatMap fun i => b.membersNamed i s)) (l.unknown || s.isUnknown)

def follow (b : Books) (use : AliasReach) (p : Path) (level : Nat) : Locations :=
  p.segments.foldl (fun l s => b.step (b.expand use l) s) (.ofVariable p level)

def isBelowOpaque (b : Books) (i : Index) : Bool :=
  match i with
  | .root _ => false
  | .member parent s =>
    (b.entry? parent).any fun e =>
      e.contains .any || e.contains (.anyOf (if s.isField then .object else .array))

def readAbsent (b : Books) (i : Index) : Entry :=
  let fallback := match i with
    | .member parent s =>
      if s.isUnknown then .undefined else b.entryOrUndefined (parent.member s.unknownLike)
    | .root _ => .undefined
  if b.isBelowOpaque i then fallback.insert .any else fallback

def readIndex (b : Books) (i : Index) : Entry :=
  (b.entry? i).getD (b.readAbsent i)

end Books

namespace Memory
variable {m n : Memory}

theorem isDefined_books (m : Memory) (i : Index) : m.books.isDefined i = m.isDefined i :=
  ExtTreeMap.contains_map

theorem size_books (m : Memory) : m.books.shapes.size = m.cells.size :=
  ExtTreeMap.size_map

theorem aliases_books (m : Memory) (i : Index) : m.books.aliases i = m.aliases i :=
  congrArg Shape.aliases (shapeAt_books m i)

theorem hasArray_books (m : Memory) (i : Index) : m.books.hasArray i = m.holdsArray i := by
  unfold Books.hasArray
  rw [shapeAt_books, shape]
  cases m.holdsArray i <;> rfl

/-- What memory lists is in the array descriptor, since only arrays list members. -/
theorem Consistent.segments_books (h : m.Consistent) (i : Index) :
    m.books.segments i = (m.cell i).members := by
  unfold Books.segments
  rw [shapeAt_books, shape]
  split
  · rfl
  · next ha =>
    symm
    apply ExtTreeSet.ext_mem
    intro s
    exact iff_of_false (fun hs => ha (h.member i s hs).1) ExtTreeSet.not_mem_empty

theorem Consistent.members_books (h : m.Consistent) (i : Index) :
    m.books.members i = m.members i := by
  unfold Books.members members
  rw [h.segments_books]

theorem objectsAt_books (m : Memory) (i : Index) : m.books.objectsAt i = m.objectsAt i :=
  congrArg Shape.objects (shapeAt_books m i)

theorem entry?_books (m : Memory) (i : Index) : m.books.entry? i = m.entry? i :=
  getElem?_entries m i

theorem entryOrUndefined_books (m : Memory) (i : Index) :
    m.books.entryOrUndefined i = m.entryOrUndefined i :=
  congrArg (Option.getD · _) (entry?_books m i)

theorem expand_books (m : Memory) (use : AliasReach) (l : Locations) :
    m.books.expand use l = m.expand use l := by
  unfold Books.expand expand
  cases use <;> simp only [aliases_books, size_books]

theorem containersOf_books (m : Memory) (i : Index) (s : Segment) :
    m.books.containersOf i s = m.containersOf i s := by
  unfold Books.containersOf containersOf
  rw [objectsAt_books]

theorem memberNamed?_books (m : Memory) (i : Index) (s : Segment) :
    m.books.memberNamed? i s = m.memberNamed? i s :=
  congrArg (fun containers : List Index =>
    match containers with
    | [c] => if s.isUnknown then none else some (c.member s)
    | _ => none) (containersOf_books m i s)

namespace Consistent
variable (h : m.Consistent)
include h

theorem membersOf_books (c : Index) (ofObject : Bool) :
    m.books.membersOf c ofObject = m.membersOf c ofObject := by
  cases ofObject with
  | false => exact h.members_books c
  | true =>
    cases c with
    | member parent s => rfl
    | root r => cases r <;> rfl

theorem membersNamed_books (i : Index) (s : Segment) :
    m.books.membersNamed i s = m.membersNamed i s := by
  unfold Books.membersNamed membersNamed
  simp only [containersOf_books, h.membersOf_books]

theorem step_books (l : Locations) (s : Segment) : m.books.step l s = m.step l s := by
  unfold Books.step step
  simp only [memberNamed?_books, h.membersNamed_books]

theorem follow_books (use : AliasReach) (p : Path) (level : Nat) :
    m.books.follow use p level = m.follow use p level := by
  unfold Books.follow follow
  simp only [expand_books, h.step_books]

end Consistent

theorem isBelowOpaque_books (m : Memory) (i : Index) :
    m.books.isBelowOpaque i = m.isBelowOpaque i := by
  cases i with
  | root r => rfl
  | member parent s => exact congrArg (Option.any _) (entry?_books m parent)

theorem readIndex_books (m : Memory) (i : Index) : m.books.readIndex i = m.readIndex i := by
  have habsent : m.books.readAbsent i = m.readAbsent i := by
    unfold Books.readAbsent readAbsent
    cases i with
    | root r => simp only [isBelowOpaque_books]
    | member parent s => simp only [entryOrUndefined_books, isBelowOpaque_books]
  unfold Books.readIndex readIndex
  rw [entry?_books, habsent]

end Memory
end ScriptMemory
