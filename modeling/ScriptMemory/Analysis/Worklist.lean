import ScriptMemory.Analysis.Point

/-! The points that wait to be processed, first come, first served. A point waits at most once. -/
namespace ScriptMemory
open Std

structure Worklist where
  queue : List Point := []
  waiting : OrdSet Point := ∅
deriving DecidableEq

namespace Worklist

def empty : Worklist := {}

/-- Adds a point and tells whether it was not waiting already. -/
def push (w : Worklist) (p : Point) : Worklist × Bool :=
  if w.waiting.contains p then (w, false)
  else (⟨w.queue ++ [p], w.waiting.insert p⟩, true)

def pushAll (w : Worklist) (points : List Point) : Worklist :=
  points.foldl (fun w p => (w.push p).1) w

def pop? (w : Worklist) : Option (Point × Worklist) :=
  match w.queue with
  | [] => none
  | p :: rest => some (p, ⟨rest, w.waiting.erase p⟩)

def size (w : Worklist) : Nat :=
  w.queue.length

end Worklist
end ScriptMemory
