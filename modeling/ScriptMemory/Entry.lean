import ScriptMemory.Value

/-! Entries: the set of values one location may hold. A value that another one absorbs is left
out, so an entry has no member that adds nothing to the rest. -/
namespace ScriptMemory
open Std

structure Entry where
  values : OrdSet Value
  /-- No member absorbs a member. -/
  irredundant : ∀ v ∈ values, ∀ w ∈ values, v.absorbs w = false

namespace Entry

@[ext]
theorem ext {e f : Entry} (h : e.values = f.values) : e = f := by
  cases e; cases f; cases h; rfl

instance : DecidableEq Entry := fun e f =>
  decidable_of_iff (e.values = f.values) ⟨ext, congrArg values⟩

/-- The values in increasing order. -/
def toList (e : Entry) : List Value :=
  e.values.toList

def size (e : Entry) : Nat :=
  e.values.size

def isEmpty (e : Entry) : Bool :=
  e.values.isEmpty

def contains (e : Entry) (v : Value) : Bool :=
  e.values.contains v

/-- Some member absorbs `v`. -/
def absorbs (e : Entry) (v : Value) : Bool :=
  e.toList.any (·.absorbs v)

/-- The location holds nothing on some path. -/
def hasUndefined (e : Entry) : Bool :=
  e.contains .undefined

def hasReference (e : Entry) : Bool :=
  e.toList.any Value.isReference

/-- The owners of the arrays. -/
def arrays (e : Entry) : List Index :=
  e.toList.filterMap Value.arrayOwner?

/-- The objects, in order. -/
def objects (e : Entry) : List ObjectValue :=
  e.toList.filterMap Value.object?

def findings (e : Entry) : List Finding :=
  e.toList.filterMap Value.finding?

/-- Every value of `e` is in `f`, or `f` absorbs it. -/
def isSubsumedBy (e f : Entry) : Bool :=
  e.toList.all fun v => f.contains v || f.absorbs v

/-- How many scalars and intervals there are. -/
def simplifiableCount (e : Entry) : Nat :=
  e.toList.countP Value.isSimplifiable

def empty : Entry :=
  ⟨∅, fun _ h => absurd h ExtTreeSet.not_mem_empty⟩

instance : EmptyCollection Entry := ⟨empty⟩

/-- The values that pass a test. -/
def filter (e : Entry) (p : Value → Bool) : Entry :=
  ⟨e.values.filter p, fun v hv w hw =>
    e.irredundant v (OrdSet.mem_filter.1 hv).1 w (OrdSet.mem_filter.1 hw).1⟩

def erase (e : Entry) (v : Value) : Entry :=
  ⟨e.values.erase v, fun w hw x hx =>
    e.irredundant w (OrdSet.mem_erase.1 hw).2 x (OrdSet.mem_erase.1 hx).2⟩

/-- Adds a value unless a member absorbs it, and drops the members that it absorbs. -/
def insert (e : Entry) (v : Value) : Entry :=
  if h : e.absorbs v then e
  else ⟨(e.values.filter fun w => !v.absorbs w).insert v, by
    intro w hw x hx
    rcases OrdSet.mem_insert.1 hw with rfl | hw <;> rcases OrdSet.mem_insert.1 hx with rfl | hx
    · exact Value.absorbs_self _
    · simpa using (OrdSet.mem_filter.1 hx).2
    · have hmem : w ∈ e.toList := by simpa [toList] using (OrdSet.mem_filter.1 hw).1
      exact Bool.eq_false_iff.2 fun hwv => h (List.any_eq_true.2 ⟨w, hmem, hwv⟩)
    · exact e.irredundant w (OrdSet.mem_filter.1 hw).1 x (OrdSet.mem_filter.1 hx).1⟩

/-- The values of a list, inserted one by one. -/
def ofList (values : List Value) : Entry :=
  values.foldl insert ∅

def ofValue (v : Value) : Entry :=
  insert ∅ v

/-- The location holds nothing. -/
def undefined : Entry :=
  ofValue .undefined

/-- Everything that either entry describes. -/
def join (e f : Entry) : Entry :=
  f.toList.foldl insert e

/-- Folds every scalar and interval into its kind when there are more than `limit` of them. -/
def simplify? (e : Entry) (limit : Nat) : Option Entry :=
  if e.simplifiableCount ≤ limit then none
  else some (ofList (e.toList.map fun v =>
    match v.kind? with
    | some k => if v.isSimplifiable then .anyOf k else v
    | none => v))

/-- The scalars and intervals of one kind, in order. -/
def group (e : Entry) (k : Kind) : List Value :=
  e.toList.filter fun v => v.isSimplifiable && v.kind? = some k

/-- The smallest interval that covers all the numbers of a list, if they have one kind. -/
def hull? : List Value → Option Interval
  | [] => none
  | v :: rest => do
    rest.foldlM (fun hull w => do hull.hull? (← w.interval?)) (← v.interval?)

/-- One kind's values against those at the same place before. What has not changed stays. A
changed group with an interval becomes one interval, widened against the hull of the previous
group; any other changed group becomes its kind. -/
def widenGroup (k : Kind) (group previous : List Value) : List Value :=
  if group.isEmpty || group = previous then group
  else
    -- scalars alone are not widened to an interval
    match if group.any Value.isInterval then hull? group else none with
    | some hull => [.interval (((hull? previous).map hull.widen).getD hull)]
    | none => [.anyOf k]

/-- Keeps what is neither scalar nor interval, and widens the rest kind by kind. -/
def widen (e previous : Entry) : Entry :=
  (Kind.all.flatMap fun k => widenGroup k (e.group k) (previous.group k)).foldl insert
    (e.filter fun v => !v.isSimplifiable)

/-- The order by what is described: `.lt` when the second entry covers the first. -/
def compare? (e f : Entry) : Option Ordering :=
  if e = f then some .eq
  else if e.isSubsumedBy f then some .lt
  else if f.isSubsumedBy e then some .gt
  else none

def text (e : Entry) : String :=
  "\x7b" ++ ", ".intercalate (e.toList.map Value.text) ++ "\x7d"

end Entry
end ScriptMemory
