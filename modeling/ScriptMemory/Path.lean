import ScriptMemory.Scalar

/-! Access paths: a variable followed by array keys and object fields, each known or unknown. -/
namespace ScriptMemory
open Std

/-- An array key. -/
inductive Key where
  | integer (value : Int64)
  | string (value : String)
deriving DecidableEq

namespace Key

def text : Key → String
  | integer n => toString n.toInt
  | string s => Text.quote s

def rank : Key → Nat
  | integer _ => 0
  | string _ => 1

def compareWithin : Key → Key → Ordering
  | integer m, integer n => compare m n
  | string s, string t => compare s t
  | _, _ => .eq

instance : Ord Key := ⟨compareRanked rank compareWithin⟩

instance : TransOrd Key := compareRanked_transCmp
  (by
    intro a b h
    cases a <;> cases b <;> simp [rank] at h <;> exact OrientedOrd.eq_swap)
  (by
    intro a b c hab hbc
    cases a <;> cases b <;> simp [rank] at hab <;> cases c <;> simp [rank] at hbc <;>
      exact TransOrd.isLE_trans)

instance : LawfulEqOrd Key := compareRanked_lawfulEqCmp
  (by intro a; cases a <;> simp [compareWithin])
  (by
    intro a b h
    cases a <;> cases b <;> simp [rank] at h <;> simp [compareWithin])

end Key

/-- One step below a container. -/
inductive Segment where
  | key (key : Key)
  /-- Stands for every key not otherwise present. -/
  | unknownKey
  | field (name : String)
  /-- Stands for every field not otherwise present. -/
  | unknownField
deriving DecidableEq

namespace Segment

def isUnknown : Segment → Bool
  | unknownKey | unknownField => true
  | _ => false

def isField : Segment → Bool
  | field _ | unknownField => true
  | _ => false

/-- The unknown member of the containers that `s` looks into. -/
def unknownLike (s : Segment) : Segment :=
  if s.isField then unknownField else unknownKey

def text : Segment → String
  | key k => "[" ++ k.text ++ "]"
  | unknownKey => "[?]"
  | field name => "->" ++ name
  | unknownField => "->?"

def rank : Segment → Nat
  | key _ => 0
  | unknownKey => 1
  | field _ => 2
  | unknownField => 3

def compareWithin : Segment → Segment → Ordering
  | key k, key l => compare k l
  | field f, field g => compare f g
  | _, _ => .eq

instance : Ord Segment := ⟨compareRanked rank compareWithin⟩

instance : TransOrd Segment := compareRanked_transCmp
  (by
    intro a b h
    cases a <;> cases b <;> simp [rank] at h <;> first | rfl | exact OrientedOrd.eq_swap)
  (by
    intro a b c hab hbc
    cases a <;> cases b <;> simp [rank] at hab <;> cases c <;> simp [rank] at hbc <;>
      first | exact fun _ _ => rfl | exact TransOrd.isLE_trans)

instance : LawfulEqOrd Segment := compareRanked_lawfulEqCmp
  (by intro a; cases a <;> simp [compareWithin])
  (by
    intro a b h
    cases a <;> cases b <;> simp [rank] at h <;> simp [compareWithin])

end Segment

/-- The variable table a path starts from. -/
inductive Scope where
  | global
  /-- The variables of the running function; at the top level these are the global ones. -/
  | current
deriving DecidableEq

def Scope.rank : Scope → Nat
  | global => 0
  | current => 1

instance : Ord Scope := ⟨compareOn Scope.rank⟩

structure Path where
  scope : Scope
  name : String
  segments : List Segment
deriving DecidableEq

namespace Path

/-- A variable of the running function. -/
def ofVariable (name : String) : Path :=
  ⟨.current, name, []⟩

def isVariable (p : Path) : Bool :=
  p.segments.isEmpty

/-- The path without its last segment. -/
def parent? (p : Path) : Option Path :=
  if p.segments.isEmpty then none else some { p with segments := p.segments.dropLast }

/-- The path one segment further down. -/
def member (p : Path) (s : Segment) : Path :=
  { p with segments := p.segments ++ [s] }

def text (p : Path) : String :=
  (match p.scope with
    | .global => "$::"
    | .current => "$") ++ p.name ++ String.join (p.segments.map Segment.text)

instance : Ord Path :=
  ⟨compareLex (compareOn (·.scope)) (compareLex (compareOn (·.name)) (compareOn (·.segments)))⟩

end Path
end ScriptMemory
