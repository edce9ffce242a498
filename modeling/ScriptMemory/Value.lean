import ScriptMemory.Index
import ScriptMemory.Interval

/-! Abstract values: what a location may hold, from one known scalar up to anything at all. -/
namespace ScriptMemory
open Std

/-- A reference to an abstract object. -/
structure ObjectValue where
  id : ObjectId
  className : String
deriving DecidableEq

namespace ObjectValue

/-- By the site and then by the class. -/
def compareObject : ObjectValue → ObjectValue → Ordering :=
  compareLex (compareOn id) (compareOn className)

instance : Ord ObjectValue := ⟨compareObject⟩

instance : TransOrd ObjectValue :=
  inferInstanceAs (TransCmp (compareLex (compareOn id) (compareOn className)))

instance : LawfulEqOrd ObjectValue where
  compare_self := compareLex_eq_iff.2 ⟨compareOn_eq_iff.2 rfl, compareOn_eq_iff.2 rfl⟩
  eq_of_compare {a b} h := by
    obtain ⟨hi, hc⟩ := compareLex_eq_iff.1 h
    cases a; cases b
    simp_all [compareOn_eq_iff]

/-- Where the fields of the object live. -/
def index (o : ObjectValue) : Index :=
  .object o.id

def text (o : ObjectValue) : String :=
  o.className ++ "#" ++ o.id

end ObjectValue

/-- Why a finding is reported. -/
inductive Cause where
  | undefinedVariable
  | undefinedIndex
  | classConstantDoesNotExist
  | constantOnNonObject
  | unknownFunction
  | recursiveCall
  | callDepthExceeded
deriving DecidableEq

namespace Cause

def rank : Cause → Nat
  | undefinedVariable => 0
  | undefinedIndex => 1
  | classConstantDoesNotExist => 2
  | constantOnNonObject => 3
  | unknownFunction => 4
  | recursiveCall => 5
  | callDepthExceeded => 6

theorem rank_injective (a b : Cause) (h : a.rank = b.rank) : a = b := by
  cases a <;> cases b <;> simp_all [rank]

instance : Ord Cause := ⟨compareOn rank⟩
instance : TransOrd Cause := inferInstanceAs (TransCmp (compareOn rank))
instance : LawfulEqOrd Cause := compareOn_lawfulEqCmp rank_injective

def text : Cause → String
  | undefinedVariable => "undefined variable"
  | undefinedIndex => "undefined index"
  | classConstantDoesNotExist => "class constant does not exist"
  | constantOnNonObject => "constant access on non-object"
  | unknownFunction => "unknown function"
  | recursiveCall => "recursive call approximated"
  | callDepthExceeded => "call depth exceeded"

end Cause

/-- Something the analysis has found; it travels through memory like any other value. -/
structure Finding where
  cause : Cause
  location : String
  message : String
deriving DecidableEq

namespace Finding

/-- By the cause, then by the location, then by the message. -/
def compareFinding : Finding → Finding → Ordering :=
  compareLex (compareOn cause) (compareLex (compareOn location) (compareOn message))

instance : Ord Finding := ⟨compareFinding⟩

instance : TransOrd Finding := inferInstanceAs (TransCmp
  (compareLex (compareOn cause) (compareLex (compareOn location) (compareOn message))))

instance : LawfulEqOrd Finding where
  compare_self := compareLex_eq_iff.2
    ⟨compareOn_eq_iff.2 rfl, compareLex_eq_iff.2 ⟨compareOn_eq_iff.2 rfl, compareOn_eq_iff.2 rfl⟩⟩
  eq_of_compare {a b} h := by
    obtain ⟨hc, h⟩ := compareLex_eq_iff.1 h
    obtain ⟨hl, hm⟩ := compareLex_eq_iff.1 h
    cases a; cases b
    simp_all [compareOn_eq_iff]

def text (f : Finding) : String :=
  f.location ++ ": " ++ f.cause.text ++ " (" ++ f.message ++ ")"

end Finding

inductive Value where
  /-- The location holds nothing on some path. -/
  | undefined
  /-- Any value at all. -/
  | any
  | anyOf (kind : Kind)
  | scalar (value : Scalar)
  | interval (value : Interval)
  /-- The array whose members lie below `owner`. -/
  | array (owner : Index)
  | object (value : ObjectValue)
  | resource (name : String)
  /-- A reference to a location; it is never stored. -/
  | reference (target : Index)
  | info (finding : Finding)
deriving DecidableEq

namespace Value

def rank : Value → Nat
  | undefined => 0
  | any => 1
  | anyOf _ => 2
  | scalar _ => 3
  | interval _ => 4
  | array _ => 5
  | object _ => 6
  | resource _ => 7
  | reference _ => 8
  | info _ => 9

def compareWithin : Value → Value → Ordering
  | anyOf k, anyOf l => compare k l
  | scalar s, scalar t => compare s t
  | interval i, interval j => compare i j
  | array i, array j => compare i j
  | object o, object p => compare o p
  | resource f, resource g => compare f g
  | reference i, reference j => compare i j
  | info f, info g => compare f g
  | _, _ => .eq

instance : Ord Value := ⟨compareRanked rank compareWithin⟩

instance : TransOrd Value := compareRanked_transCmp
  (by
    intro a b h
    cases a <;> cases b <;> simp [rank] at h <;> first | rfl | exact OrientedOrd.eq_swap)
  (by
    intro a b c hab hbc
    cases a <;> cases b <;> simp [rank] at hab <;> cases c <;> simp [rank] at hbc <;>
      first | exact fun _ _ => rfl | exact TransOrd.isLE_trans)

instance : LawfulEqOrd Value := compareRanked_lawfulEqCmp
  (by intro a; cases a <;> simp [compareWithin])
  (by
    intro a b h
    cases a <;> cases b <;> simp [rank] at h <;> simp [compareWithin])

/-- The run-time kind of everything the value describes, when there is exactly one. -/
def kind? : Value → Option Kind
  | anyOf k => some k
  | scalar s => some s.kind
  | interval i => some i.kind
  | array _ => some .array
  | object _ => some .object
  | resource _ => some .resource
  | undefined | any | reference _ | info _ => none

def isComposite : Value → Bool
  | array _ | object _ => true
  | _ => false

/-- Scalar detail that simplification and widening may fold into a kind. -/
def isSimplifiable : Value → Bool
  | scalar _ | interval _ => true
  | _ => false

def isReference : Value → Bool
  | reference _ => true
  | _ => false

def arrayOwner? : Value → Option Index
  | array owner => some owner
  | _ => none

def object? : Value → Option ObjectValue
  | object o => some o
  | _ => none

def isInterval : Value → Bool
  | interval _ => true
  | _ => false

/-- The interval that a number or an interval covers. -/
def interval? : Value → Option Interval
  | interval i => some i
  | scalar s => Interval.point? s
  | _ => none

def finding? : Value → Option Finding
  | info f => some f
  | _ => none

/-- The first value describes everything the second one does, so that the second adds nothing to
a set that has the first. No value absorbs itself. -/
def absorbs : Value → Value → Bool
  | any, scalar _ | any, interval _ => true
  | any, anyOf k => k.isScalar
  | anyOf k, scalar s => s.kind = k
  | anyOf k, interval i => i.kind = k
  | interval outer, interval inner => outer ≠ inner && outer.contains inner
  | interval outer, scalar s => outer.containsScalar s
  | _, _ => false

theorem absorbs_self (v : Value) : v.absorbs v = false := by
  cases v <;> simp [absorbs]

def text : Value → String
  | undefined => "undefined"
  | any => "any"
  | anyOf k => "any<" ++ k.name ++ ">"
  | scalar s => s.text
  | interval i => i.text
  | array owner => "array(" ++ owner.text ++ ")"
  | object o => o.text
  | resource name => "resource(" ++ name ++ ")"
  | reference target => "&" ++ target.text
  | info f => "info(" ++ f.cause.text ++ ")"

end Value
end ScriptMemory
