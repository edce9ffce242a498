import ScriptMemory.Memory.Reading

/-! Joining the memories of several program points: what any of them defines is defined, and holds
what any of them may hold there. -/
namespace ScriptMemory
open Std

/-- What several memories say about one location together. A memory that has no entry there adds
that the location may be undefined, and an alias is certain only where every memory has it so. -/
def Cell.join (cells : List Cell) : Cell where
  entry := some ((cells.map fun c => c.entry.getD .undefined).foldl Entry.join ∅)
  aliases := .merge (cells.map (·.aliases))
  members := .ofList (cells.flatMap (·.members.toList))

/-- The fields of one object in several memories; the class is that of the first. -/
def ObjectDescriptor.join (descriptors : List ObjectDescriptor) : ObjectDescriptor where
  className := (descriptors.head?.getD {}).className
  fields := .ofList (descriptors.flatMap (·.fields.toList))

namespace Memory

/-- The join of memories at one call level. -/
def join (sources : List Memory) (level : Nat) : Memory where
  cells := .tabulate (.ofList (sources.flatMap (·.cells.keys))) fun i =>
    Cell.join (sources.map (·.cell i))
  objects := .tabulate (.ofList (sources.flatMap (·.objects.keys))) fun id =>
    ObjectDescriptor.join (sources.filterMap (·.objects[id]?))
  level := level

/-- The values of one location now, widened against those it had in an earlier memory. -/
def widenEntry (previous : Memory) (i : Index) (e : Entry) : Entry :=
  match previous.entry? i with
  | some old => if old = e then e else e.widen old
  | none => e

/-- Widens every entry that has changed since an earlier memory. Only scalars and intervals are
affected, so the structure stays as it is. -/
def widen (m previous : Memory) : Memory :=
  m.mapEntries previous.widenEntry

end Memory
end ScriptMemory
