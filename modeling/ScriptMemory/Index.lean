import ScriptMemory.Path

/-! Storage locations: a root and the members below it. A location comes before everything below
it, since members are ordered after roots and then by parent and segment. -/
namespace ScriptMemory
open Std

/-- The identity of an abstract object: the site that allocates it. -/
abbrev ObjectId := String

/-- The variable table of a root: the global one, or that of the frame at a call level. -/
inductive Table where
  | global
  | frame (level : Nat)
deriving DecidableEq

namespace Table

/-- The table of the frame at a level. The frame at level zero is the top level of the script,
whose variables are the global ones. -/
def atLevel : Nat → Table
  | 0 => global
  | level => frame level

/-- The level counted from one; the global table counts as zero. -/
def place : Table → Nat
  | global => 0
  | frame level => level + 1

theorem place_injective (s t : Table) (h : s.place = t.place) : s = t := by
  cases s <;> cases t <;> simp_all [place]

instance : Ord Table := ⟨compareOn place⟩
instance : TransOrd Table := inferInstanceAs (TransCmp (compareOn place))
instance : LawfulEqOrd Table := compareOn_lawfulEqCmp place_injective

end Table

inductive Root where
  | var (name : String) (table : Table)
  /-- A reserved slot that is no program variable. -/
  | control (name : String)
  /-- The return value of the function running at a level. -/
  | returnSlot (level : Nat)
  /-- Where the fields of an object live. -/
  | object (id : ObjectId)
deriving DecidableEq

namespace Root

def rank : Root → Nat
  | var .. => 0
  | control _ => 1
  | returnSlot _ => 2
  | object _ => 3

def compareWithin : Root → Root → Ordering
  | var f s, var g t => (compare f g).then (compare s t)
  | control f, control g => compare f g
  | returnSlot m, returnSlot n => compare m n
  | object f, object g => compare f g
  | _, _ => .eq

def text : Root → String
  | .var name .global => "$" ++ name
  | .var name (.frame level) => "$" ++ name ++ "@" ++ toString level
  | .control name => "#" ++ name
  | .returnSlot level => "return@" ++ toString level
  | .object id => "obj(" ++ id ++ ")"

instance : Ord Root := ⟨compareRanked rank compareWithin⟩

/-- Variables in the order of their names, then of their tables. -/
abbrev compareVariable : String × Table → String × Table → Ordering :=
  compareLex (compareOn (·.1)) (compareOn (·.2))

instance : TransOrd Root := compareRanked_transCmp
  (by
    intro a b h
    cases a <;> cases b <;> simp [rank] at h
    case var.var f s g t =>
      exact (OrientedCmp.eq_swap : compareVariable (f, s) (g, t) = _)
    all_goals exact OrientedOrd.eq_swap)
  (by
    intro a b c hab hbc
    cases a <;> cases b <;> simp [rank] at hab <;> cases c <;> simp [rank] at hbc
    case var.var.var f s g t h u =>
      exact (TransCmp.isLE_trans : (compareVariable (f, s) (g, t)).isLE →
        (compareVariable (g, t) (h, u)).isLE → (compareVariable (f, s) (h, u)).isLE)
    all_goals exact TransOrd.isLE_trans)

instance : LawfulEqOrd Root := compareRanked_lawfulEqCmp
  (by intro a; cases a <;> simp [compareWithin])
  (by
    intro a b h
    cases a <;> cases b <;> simp [rank] at h <;> simp [compareWithin, Ordering.then_eq_eq])

end Root

inductive Index where
  | root (root : Root)
  | member (parent : Index) (segment : Segment)
deriving DecidableEq

namespace Index

def ofVariable (name : String) (table : Table) : Index :=
  root (.var name table)

def object (id : ObjectId) : Index :=
  root (.object id)

def returnSlot (level : Nat) : Index :=
  root (.returnSlot level)

/-- The reserved slot that findings are written to. -/
def diagnostics : Index :=
  root (.control "diagnostics")

/-- A reserved slot that never has members: storing an array owned by it makes an empty array. -/
def freshArray : Index :=
  root (.control "fresh-array")

/-- Roots come before members; members are compared by parent and then by segment. -/
def compareIndex : Index → Index → Ordering
  | root r, root s => compare r s
  | root _, member .. => .lt
  | member .., root _ => .gt
  | member i s, member j t => (compareIndex i j).then (compare s t)

instance : Ord Index := ⟨compareIndex⟩

theorem compareIndex_eq_swap (i j : Index) : compareIndex i j = (compareIndex j i).swap := by
  induction i generalizing j with
  | root r =>
    cases j with
    | root s => exact OrientedOrd.eq_swap
    | member j t => rfl
  | member i s ih =>
    cases j with
    | root r => rfl
    | member j t =>
      simp only [compareIndex, Ordering.swap_then, ← ih j]
      rw [OrientedOrd.eq_swap (a := s) (b := t)]

theorem compareIndex_eq_iff (i j : Index) : compareIndex i j = .eq ↔ i = j := by
  induction i generalizing j with
  | root r => cases j <;> simp [compareIndex]
  | member i s ih => cases j <;> simp [compareIndex, Ordering.then_eq_eq, ih]

theorem compareIndex_member_isLE_iff (i j : Index) (s t : Segment) :
    (compareIndex (member i s) (member j t)).isLE ↔
      compareIndex i j = .lt ∨ i = j ∧ (compare s t).isLE := by
  simp only [compareIndex]
  cases h : compareIndex i j with
  | lt => simp [Ordering.then]
  | eq => simp [Ordering.then, (compareIndex_eq_iff i j).1 h]
  | gt =>
    have hne : i ≠ j := fun he => by simp [(compareIndex_eq_iff i j).2 he] at h
    simp [Ordering.then, hne]

theorem compareIndex_isLE_trans (i j k : Index) (hij : (compareIndex i j).isLE)
    (hjk : (compareIndex j k).isLE) : (compareIndex i k).isLE := by
  induction i generalizing j k with
  | root r =>
    cases j with
    | root s =>
      cases k with
      | root t => exact TransOrd.isLE_trans hij hjk
      | member k t => rfl
    | member j t =>
      cases k with
      | root t => simp [compareIndex] at hjk
      | member k t => rfl
  | member i s ih =>
    cases j with
    | root r => simp [compareIndex] at hij
    | member j t =>
      cases k with
      | root r => simp [compareIndex] at hjk
      | member k u =>
        rw [compareIndex_member_isLE_iff] at hij hjk ⊢
        rcases hij with hij | ⟨rfl, hst⟩
        · rcases hjk with hjk | ⟨rfl, -⟩
          · have hle := ih j k (by simp [hij]) (by simp [hjk])
            cases h : compareIndex i k with
            | lt => exact .inl rfl
            | gt => simp [h] at hle
            | eq =>
              obtain rfl := (compareIndex_eq_iff i k).1 h
              rw [compareIndex_eq_swap, hjk] at hij
              cases hij
          · exact .inl hij
        · rcases hjk with hjk | ⟨rfl, htu⟩
          · exact .inl hjk
          · exact .inr ⟨rfl, TransOrd.isLE_trans hst htu⟩

instance : TransOrd Index where
  eq_swap := compareIndex_eq_swap _ _
  isLE_trans := compareIndex_isLE_trans _ _ _

instance : LawfulEqOrd Index where
  compare_self := (compareIndex_eq_iff _ _).2 rfl
  eq_of_compare := (compareIndex_eq_iff _ _).1

def parent? : Index → Option Index
  | root _ => none
  | member parent _ => some parent

def segment? : Index → Option Segment
  | root _ => none
  | member _ segment => some segment

/-- The root that an index hangs below. -/
def base : Index → Root
  | root r => r
  | member parent _ => parent.base

/-- A variable or return slot of the frame at `level`, or something below one. -/
def isRootedAtLevel (i : Index) (level : Nat) : Bool :=
  match i.base with
  | .var _ (.frame l) => l = level
  | .returnSlot l => l = level
  | _ => false

/-- The stand-in for all members of a container that are not otherwise present. -/
def isUnknownMember (i : Index) : Bool :=
  i.segment?.any Segment.isUnknown

/-- `j` lies below `i`. -/
def isAncestorOf (i : Index) : Index → Bool
  | root _ => false
  | member parent _ => i = parent || i.isAncestorOf parent

def text : Index → String
  | root r => r.text
  | member parent segment => parent.text ++ segment.text

end Index
end ScriptMemory
