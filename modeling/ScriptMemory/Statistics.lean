import ScriptMemory.Ordered

/-! Counters of what was done to a snapshot. A counter that was never recorded does not appear. -/
namespace ScriptMemory
open Std

inductive Statistic where
  | startTransaction | commitTransaction | assign | assignAlias | createAlias | createArray
  | createObject | extend | merge | mergeWithCall | unset | warning | valueCreated | widening
  | simplification
deriving DecidableEq

namespace Statistic

def rank : Statistic → Nat
  | startTransaction => 0 | commitTransaction => 1 | assign => 2 | assignAlias => 3
  | createAlias => 4 | createArray => 5 | createObject => 6 | extend => 7 | merge => 8
  | mergeWithCall => 9 | unset => 10 | warning => 11 | valueCreated => 12 | widening => 13
  | simplification => 14

def name : Statistic → String
  | startTransaction => "StartTransaction" | commitTransaction => "CommitTransaction"
  | assign => "Assign" | assignAlias => "AssignAlias" | createAlias => "CreateAlias"
  | createArray => "CreateArray" | createObject => "CreateObject" | extend => "Extend"
  | merge => "Merge" | mergeWithCall => "MergeWithCall" | unset => "Unset"
  | warning => "Warning" | valueCreated => "ValueCreated" | widening => "Widening"
  | simplification => "Simplification"

theorem rank_injective (s t : Statistic) (h : s.rank = t.rank) : s = t := by
  cases s <;> cases t <;> simp_all [rank]

instance : Ord Statistic := ⟨compareOn rank⟩
instance : TransOrd Statistic := inferInstanceAs (TransCmp (compareOn rank))
instance : LawfulEqOrd Statistic := compareOn_lawfulEqCmp rank_injective

end Statistic

structure Statistics where
  counts : OrdMap Statistic Nat := ∅
deriving DecidableEq

namespace Statistics

def count (c : Statistics) (s : Statistic) : Nat :=
  c.counts.getD s 0

/-- Counts something several times, possibly never. -/
def add (c : Statistics) (s : Statistic) (times : Nat) : Statistics :=
  if times = 0 then c else ⟨c.counts.insert s (c.count s + times)⟩

def record (c : Statistics) (s : Statistic) : Statistics :=
  c.add s 1

/-- The counters that were recorded, in order. -/
def toList (c : Statistics) : List (Statistic × Nat) :=
  c.counts.toList

/-- The sum of two sets of counters. -/
def absorb (c d : Statistics) : Statistics :=
  d.toList.foldl (fun c (s, n) => c.add s n) c

end Statistics
end ScriptMemory
