import ScriptMemory.ContractError

/-! The aliases of one location. A must-alias is always the same location, a may-alias possibly;
no index is both. -/
namespace ScriptMemory
open Std

inductive Strength where
  | must
  | may
deriving DecidableEq

structure AliasSet where
  /-- Each alias with its strength. -/
  edges : OrdMap Index Strength := ∅
deriving DecidableEq

namespace AliasSet

def empty : AliasSet := {}

instance : EmptyCollection AliasSet := ⟨empty⟩

def strength? (a : AliasSet) (i : Index) : Option Strength :=
  a.edges[i]?

def contains (a : AliasSet) (i : Index) : Bool :=
  a.edges.contains i

def isEmpty (a : AliasSet) : Bool :=
  a.edges.isEmpty

/-- The aliases of one strength, in order. -/
def ofStrength (a : AliasSet) (s : Strength) : List Index :=
  (a.edges.toList.filter (·.2 = s)).map (·.1)

def must (a : AliasSet) : List Index :=
  a.ofStrength .must

def may (a : AliasSet) : List Index :=
  a.ofStrength .may

/-- The must-aliases and then the may-aliases. -/
def toList (a : AliasSet) : List Index :=
  a.must ++ a.may

/-- Records an alias with exactly the given strength. -/
def set (a : AliasSet) (i : Index) (s : Strength) : AliasSet :=
  ⟨a.edges.insert i s⟩

def erase (a : AliasSet) (i : Index) : AliasSet :=
  ⟨a.edges.erase i⟩

/-- Adds an alias that must not have the other strength already. -/
def insert (a : AliasSet) (i : Index) (s : Strength) : Except ContractError AliasSet :=
  match a.strength? i with
  | some t => if t = s then .ok a else .error (.conflictingAlias i)
  | none => .ok (a.set i s)

/-- The aliases that pass a test. -/
def filter (a : AliasSet) (p : Index → Bool) : AliasSet :=
  ⟨a.edges.filter fun i _ => p i⟩

/-- Every alias becomes a may-alias. -/
def degrade (a : AliasSet) : AliasSet :=
  ⟨a.edges.map fun _ _ => .may⟩

/-- Binds the location to `target`, and tells how strongly. The first binding is certain. A
later one leaves every alias uncertain, except that binding a must-alias again changes nothing. -/
def bind (a : AliasSet) (target : Index) : AliasSet × Strength :=
  if a.strength? target = some .must then (a, .must)
  else if a.isEmpty then (a.set target .must, .must)
  else (a.degrade.set target .may, .may)

/-- The aliases of one location in several states of memory: an alias is certain where it is in
all of them, and possible where any of them has it. -/
def merge (sources : List AliasSet) : AliasSet :=
  ⟨.tabulate (.ofList (sources.flatMap (·.edges.keys))) fun i =>
    if sources.all (·.strength? i = some .must) then .must else .may⟩

end AliasSet
end ScriptMemory
