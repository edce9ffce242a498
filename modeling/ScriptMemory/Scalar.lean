import ScriptMemory.Kind
import ScriptMemory.Number.Shortest
import ScriptMemory.Text.Quoted

/-! Scalar constants: literals of the listing and known values of memory. -/
namespace ScriptMemory
open Std

inductive Scalar where
  | integer (value : Int64)
  | float (value : Binary64)
  | string (value : String)
  | boolean (value : Bool)
  | null
deriving DecidableEq

namespace Scalar

def kind : Scalar → Kind
  | integer _ => .integer
  | float _ => .float
  | string _ => .string
  | boolean _ => .boolean
  | null => .null

def text : Scalar → String
  | integer n => toString n.toInt
  | float x => x.text
  | string s => Text.quote s
  | boolean b => if b then "true" else "false"
  | null => "null"

/-- Scalars of one kind in the order of their values. -/
def compareWithin : Scalar → Scalar → Ordering
  | integer m, integer n => compare m n
  | float x, float y => compare x y
  | string s, string t => compare s t
  | boolean a, boolean b => compare a b
  | _, _ => .eq

instance : Ord Scalar := ⟨compareRanked (·.kind.rank) compareWithin⟩

instance : TransOrd Scalar := compareRanked_transCmp
  (by
    intro a b h
    cases a <;> cases b <;> simp [kind, Kind.rank] at h <;>
      first | rfl | exact OrientedOrd.eq_swap)
  (by
    intro a b c hab hbc
    cases a <;> cases b <;> simp [kind, Kind.rank] at hab <;>
      cases c <;> simp [kind, Kind.rank] at hbc <;>
      first | exact fun _ _ => rfl | exact TransOrd.isLE_trans)

instance : LawfulEqOrd Scalar := compareRanked_lawfulEqCmp
  (by intro a; cases a <;> simp [compareWithin])
  (by
    intro a b h
    cases a <;> cases b <;> simp [kind, Kind.rank] at h <;> simp [compareWithin])

end Scalar
end ScriptMemory
