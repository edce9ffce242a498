import ScriptMemory.Ordered

/-! The kinds of run-time values. -/
namespace ScriptMemory
open Std

inductive Kind where
  | integer | float | string | boolean | null | object | array | resource
deriving DecidableEq

namespace Kind

/-- Every kind, in order. -/
def all : List Kind :=
  [integer, float, string, boolean, null, object, array, resource]

def rank : Kind → Nat
  | integer => 0 | float => 1 | string => 2 | boolean => 3
  | null => 4 | object => 5 | array => 6 | resource => 7

def name : Kind → String
  | integer => "int" | float => "float" | string => "string" | boolean => "bool"
  | null => "null" | object => "object" | array => "array" | resource => "resource"

def ofName? (name : String) : Option Kind :=
  all.find? (·.name = name)

/-- A kind whose values have no memory of their own. -/
def isScalar : Kind → Bool
  | object | array | resource => false
  | _ => true

theorem rank_injective (k l : Kind) (h : k.rank = l.rank) : k = l := by
  cases k <;> cases l <;> simp_all [rank]

instance : Ord Kind := ⟨compareOn rank⟩
instance : TransOrd Kind := inferInstanceAs (TransCmp (compareOn rank))
instance : LawfulEqOrd Kind := compareOn_lawfulEqCmp rank_injective

end Kind
end ScriptMemory
