import ScriptMemory.Scalar

/-! Numeric intervals with possibly infinite ends. Nothing requires the start to lie below the
stop. -/
namespace ScriptMemory
open Std

/-- An end of an interval: below everything, a number, or above everything. -/
inductive Bound (α : Type) where
  | negInf
  | finite (value : α)
  | posInf
deriving DecidableEq

namespace Bound
variable {α : Type}

def rank : Bound α → Nat
  | negInf => 0
  | finite _ => 1
  | posInf => 2

def compareWithin [Ord α] : Bound α → Bound α → Ordering
  | finite a, finite b => compare a b
  | _, _ => .eq

instance [Ord α] : Ord (Bound α) := ⟨compareRanked rank compareWithin⟩

instance [Ord α] [TransOrd α] : TransOrd (Bound α) := compareRanked_transCmp
  (by
    intro a b h
    cases a <;> cases b <;> simp [rank] at h <;> first | rfl | exact OrientedOrd.eq_swap)
  (by
    intro a b c hab hbc
    cases a <;> cases b <;> simp [rank] at hab <;> cases c <;> simp [rank] at hbc <;>
      first | exact fun _ _ => rfl | exact TransOrd.isLE_trans)

instance [Ord α] [LawfulEqOrd α] : LawfulEqOrd (Bound α) := compareRanked_lawfulEqCmp
  (by intro a; cases a <;> simp [compareWithin])
  (by
    intro a b h
    cases a <;> cases b <;> simp [rank] at h <;> simp [compareWithin])

variable [Ord α]

def least (a b : Bound α) : Bound α :=
  if (compare a b).isLE then a else b

def greatest (a b : Bound α) : Bound α :=
  if (compare a b).isLE then b else a

def text (number : α → String) : Bound α → String
  | negInf => "-inf"
  | finite a => number a
  | posInf => "+inf"

end Bound

/-- The numbers from `start` to `stop`. -/
structure Range (α : Type) where
  start : Bound α
  stop : Bound α
deriving DecidableEq

namespace Range
variable {α : Type}

/-- By the start and then by the stop. -/
def compareRange [Ord α] : Range α → Range α → Ordering :=
  compareLex (compareOn start) (compareOn stop)

instance [Ord α] : Ord (Range α) := ⟨compareRange⟩

instance [Ord α] [TransOrd α] : TransOrd (Range α) :=
  inferInstanceAs (TransCmp (compareLex (compareOn start) (compareOn stop)))

instance [Ord α] [LawfulEqOrd α] : LawfulEqOrd (Range α) where
  compare_self := compareLex_eq_iff.2 ⟨compareOn_eq_iff.2 rfl, compareOn_eq_iff.2 rfl⟩
  eq_of_compare {r s} h := by
    obtain ⟨hs, ht⟩ := compareLex_eq_iff.1 h
    cases r; cases s
    simp_all [compareOn_eq_iff]

/-- The range of exactly one number. -/
def point (a : α) : Range α :=
  ⟨.finite a, .finite a⟩

def unbounded : Range α :=
  ⟨.negInf, .posInf⟩

variable [Ord α]

/-- The smallest range that covers both. -/
def hull (r s : Range α) : Range α :=
  ⟨r.start.least s.start, r.stop.greatest s.stop⟩

def contains (r s : Range α) : Bool :=
  (compare r.start s.start).isLE && (compare s.stop r.stop).isLE

/-- An end that moved outwards since `previous` becomes infinite; otherwise the outer one of the
two ends stays. -/
def widen (r previous : Range α) : Range α :=
  ⟨if compare r.start previous.start = .lt then .negInf else previous.start.least r.start,
    if compare r.stop previous.stop = .gt then .posInf else previous.stop.greatest r.stop⟩

def text (number : α → String) (r : Range α) : String :=
  "[" ++ r.start.text number ++ ".." ++ r.stop.text number ++ "]"

end Range

inductive Interval where
  | integer (range : Range Int64)
  | float (range : Range Binary64)
deriving DecidableEq

namespace Interval

def kind : Interval → Kind
  | integer _ => .integer
  | float _ => .float

def compareWithin : Interval → Interval → Ordering
  | integer r, integer s => compare r s
  | float r, float s => compare r s
  | _, _ => .eq

instance : Ord Interval := ⟨compareRanked (·.kind.rank) compareWithin⟩

instance : TransOrd Interval := compareRanked_transCmp
  (by
    intro a b h
    cases a <;> cases b <;> simp [kind, Kind.rank] at h <;> exact OrientedOrd.eq_swap)
  (by
    intro a b c hab hbc
    cases a <;> cases b <;> simp [kind, Kind.rank] at hab <;>
      cases c <;> simp [kind, Kind.rank] at hbc <;> exact TransOrd.isLE_trans)

instance : LawfulEqOrd Interval := compareRanked_lawfulEqCmp
  (by intro a; cases a <;> simp [compareWithin])
  (by
    intro a b h
    cases a <;> cases b <;> simp [kind, Kind.rank] at h <;> simp [compareWithin])

/-- All numbers of a kind, if it is numeric. -/
def unbounded? : Kind → Option Interval
  | .integer => some (integer .unbounded)
  | .float => some (float .unbounded)
  | _ => none

/-- The interval of exactly one scalar, if it is a number. -/
def point? : Scalar → Option Interval
  | .integer n => some (integer (.point n))
  | .float x => some (float (.point x))
  | _ => none

def isUnbounded : Interval → Bool
  | integer r => r = .unbounded
  | float r => r = .unbounded

/-- The smallest interval that covers both, if they have one kind. -/
def hull? : Interval → Interval → Option Interval
  | integer r, integer s => some (integer (r.hull s))
  | float r, float s => some (float (r.hull s))
  | _, _ => none

def contains : Interval → Interval → Bool
  | integer r, integer s => r.contains s
  | float r, float s => r.contains s
  | _, _ => false

def containsScalar (i : Interval) (s : Scalar) : Bool :=
  (point? s).any i.contains

/-- Widening within one kind; a change of kind jumps to everything of the new kind. -/
def widen : Interval → Interval → Interval
  | integer r, integer previous => integer (r.widen previous)
  | float r, float previous => float (r.widen previous)
  | integer _, float _ => integer .unbounded
  | float _, integer _ => float .unbounded

def text : Interval → String
  | integer r => r.text fun n => toString n.toInt
  | float r => r.text Binary64.text

end Interval
end ScriptMemory
