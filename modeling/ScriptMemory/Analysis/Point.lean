import ScriptMemory.Program

/-! Program points: the nodes of a function body, once for every call that leads there. -/
namespace ScriptMemory
open Std

/-- Numbers the analysed calls in the order in which they were found. -/
abbrev ContextId := Nat

/-- The context of the script itself. -/
def ContextId.main : ContextId := 0

structure Point where
  context : ContextId
  /-- The position of the node in the graph of the function. -/
  node : Nat
deriving DecidableEq

namespace Point

/-- By the context and then by the node. -/
def comparePoint : Point → Point → Ordering :=
  compareLex (compareOn context) (compareOn node)

instance : Ord Point := ⟨comparePoint⟩

instance : TransOrd Point :=
  inferInstanceAs (TransCmp (compareLex (compareOn context) (compareOn node)))

instance : LawfulEqOrd Point where
  compare_self := compareLex_eq_iff.2 ⟨compareOn_eq_iff.2 rfl, compareOn_eq_iff.2 rfl⟩
  eq_of_compare {p q} h := by
    obtain ⟨hc, hn⟩ := compareLex_eq_iff.1 h
    cases p; cases q
    simp_all [compareOn_eq_iff]

end Point

/-- One analysed call of a function, or the script itself. -/
structure Context where
  function : Function
  /-- The call node that the function was entered from; none for the script. -/
  caller : Option Point
  /-- The number of calls around this one. -/
  depth : Nat
deriving DecidableEq

end ScriptMemory
