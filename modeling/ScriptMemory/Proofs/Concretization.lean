import ScriptMemory.Proofs.Widening

/-! What abstract values stand for at run time. A value that absorbs another one describes all that
the other one does, so joining, simplifying and widening entries loses nothing. -/
namespace ScriptMemory
open Std

/-- A value at run time. Objects, arrays and resources are told apart by their handles. -/
inductive RuntimeValue where
  | scalar (value : Scalar)
  | object (handle : Nat)
  | array (handle : Nat)
  | resource (handle : Nat)
deriving DecidableEq

def RuntimeValue.kind : RuntimeValue → Kind
  | scalar s => s.kind
  | object _ => .object
  | array _ => .array
  | resource _ => .resource

namespace Interval
variable {i j : Interval} {s : Scalar}

theorem containsScalar_iff : i.containsScalar s = true ↔
    ∃ j, point? s = some j ∧ i.contains j = true := by
  unfold containsScalar
  cases point? s with
  | none => simp
  | some j => simp

theorem containsScalar_of_contains (h : i.contains j = true) (hs : j.containsScalar s = true) :
    i.containsScalar s = true := by
  obtain ⟨k, hk, hjk⟩ := containsScalar_iff.1 hs
  exact containsScalar_iff.2 ⟨k, hk, contains_trans h hjk⟩

theorem containsScalar_point (h : point? s = some i) : i.containsScalar s = true :=
  containsScalar_iff.2 ⟨i, h, contains_refl i⟩

end Interval

namespace Value
variable {v w : Value} {x : Option RuntimeValue} {i j : Interval} {k : Kind}

/-- The value describes what a location holds at run time; an unset location holds nothing. -/
def describes : Value → Option RuntimeValue → Bool
  | undefined, none => true
  | any, some _ => true
  | anyOf k, some y => y.kind = k
  | scalar s, some (.scalar t) => s = t
  | interval i, some (.scalar t) => i.containsScalar t
  | _, _ => false

/-- An interval describes scalars only, those that it contains. -/
theorem describes_interval_iff : (interval i).describes x = true ↔
    ∃ s, x = some (.scalar s) ∧ i.containsScalar s = true := by
  cases x with
  | none => simp [describes]
  | some y => cases y <;> simp [describes]

theorem describes_scalar_iff {s : Scalar} :
    (scalar s).describes x = true ↔ x = some (.scalar s) := by
  cases x with
  | none => simp [describes]
  | some y =>
    cases y with
    | scalar t => simp [describes, eq_comm]
    | _ => simp [describes]

theorem describes_interval_of_contains (h : j.contains i = true)
    (hx : (interval i).describes x = true) : (interval j).describes x = true := by
  obtain ⟨s, rfl, hs⟩ := describes_interval_iff.1 hx
  exact describes_interval_iff.2 ⟨s, rfl, Interval.containsScalar_of_contains h hs⟩

/-- A number and its interval describe the same. -/
theorem describes_interval_of_interval? (hi : v.interval? = some i) (hx : v.describes x = true) :
    (interval i).describes x = true := by
  cases v with
  | interval j =>
    cases hi
    exact hx
  | scalar s =>
    rw [describes_scalar_iff] at hx
    exact describes_interval_iff.2 ⟨s, hx, Interval.containsScalar_point hi⟩
  | _ => cases hi

theorem kind_of_containsScalar {s : Scalar} (h : i.containsScalar s = true) :
    s.kind = i.kind := by
  obtain ⟨j, hj, hij⟩ := Interval.containsScalar_iff.1 h
  have hk : (Value.scalar s).kind? = some j.kind := Entry.kind_of_interval? hj
  rw [Entry.kind_eq_of_contains hij]
  exact Option.some.inj hk

/-- What a scalar or an interval describes is of its kind. -/
theorem describes_anyOf (hs : v.isSimplifiable = true) (hk : v.kind? = some k)
    (hx : v.describes x = true) : (anyOf k).describes x = true := by
  cases v with
  | scalar s =>
    cases hk
    rw [describes_scalar_iff] at hx
    subst hx
    simp [describes, RuntimeValue.kind]
  | interval i =>
    cases hk
    obtain ⟨s, rfl, hi⟩ := describes_interval_iff.1 hx
    simp [describes, RuntimeValue.kind, kind_of_containsScalar hi]
  | _ => cases hs

/-- A value describes everything that a value it absorbs does. -/
theorem describes_of_absorbs (h : v.absorbs w = true) (hx : w.describes x = true) :
    v.describes x = true := by
  cases v with
  | any =>
    cases x with
    | some y => rfl
    | none =>
      cases w with
      | undefined => cases h
      | _ => cases hx
  -- a kind absorbs the scalars and the intervals of its kind
  | anyOf k =>
    cases w with
    | scalar s =>
      have hk : s.kind = k := by simpa [absorbs] using h
      subst hk
      exact describes_anyOf rfl rfl hx
    | interval i =>
      have hk : i.kind = k := by simpa [absorbs] using h
      subst hk
      exact describes_anyOf rfl rfl hx
    | _ => cases h
  | interval outer =>
    cases w with
    | interval inner =>
      have hc : outer ≠ inner ∧ outer.contains inner = true := by simpa [absorbs] using h
      exact describes_interval_of_contains hc.2 hx
    | scalar s =>
      rw [describes_scalar_iff] at hx
      exact describes_interval_iff.2 ⟨s, hx, h⟩
    | _ => cases h
  | _ => cases h

end Value

namespace Entry
variable {e f previous : Entry} {v : Value} {x : Option RuntimeValue}

/-- Some value of the entry describes what a location holds at run time. -/
def Describes (e : Entry) (x : Option RuntimeValue) : Prop :=
  ∃ v ∈ e, v.describes x = true

theorem describes_insert (hx : v.describes x = true) : (e.insert v).Describes x := by
  rcases mem_or_absorbs_insert (e := e) (v := v) with hmem | ⟨w, hw, ha⟩
  · exact ⟨v, hmem, hx⟩
  · exact ⟨w, hw, Value.describes_of_absorbs ha hx⟩

theorem Describes.insert (h : e.Describes x) (v : Value) : (e.insert v).Describes x := by
  obtain ⟨w, hw, hx⟩ := h
  by_cases ha : v.absorbs w = true
  · exact describes_insert (Value.describes_of_absorbs ha hx)
  · -- what is not absorbed stays
    exact ⟨w, mem_insert_of_mem hw (by simpa using ha), hx⟩

theorem describes_ofValue (hx : v.describes x = true) : (ofValue v).Describes x :=
  describes_insert hx

theorem describes_undefined : undefined.Describes none :=
  describes_ofValue rfl

theorem Describes.foldl_insert (h : e.Describes x) (l : List Value) :
    (l.foldl Entry.insert e).Describes x := by
  induction l generalizing e with
  | nil => exact h
  | cons v l ih => exact ih (h.insert v)

theorem describes_foldl_insert {l : List Value} (hv : v ∈ l) (hx : v.describes x = true) :
    (l.foldl Entry.insert e).Describes x := by
  induction l generalizing e with
  | nil => cases hv
  | cons w l ih =>
    rcases List.mem_cons.1 hv with rfl | hv
    · exact (describes_insert hx).foldl_insert l
    · exact ih hv

theorem Describes.join_left (h : e.Describes x) (f : Entry) : (e.join f).Describes x :=
  h.foldl_insert _

theorem Describes.join_right (h : f.Describes x) (e : Entry) : (e.join f).Describes x := by
  obtain ⟨v, hv, hx⟩ := h
  exact describes_foldl_insert (mem_toList.2 hv) hx

theorem Describes.foldl_join (h : e.Describes x) (l : List Entry) :
    (l.foldl Entry.join e).Describes x := by
  induction l generalizing e with
  | nil => exact h
  | cons f l ih => exact ih (h.join_left f)

/-- The join of several entries describes everything that one of them does. -/
theorem describes_foldl_join {l : List Entry} (hf : f ∈ l) (h : f.Describes x) :
    (l.foldl Entry.join e).Describes x := by
  induction l generalizing e with
  | nil => cases hf
  | cons g l ih =>
    rcases List.mem_cons.1 hf with rfl | hf
    · exact (h.join_right e).foldl_join l
    · exact ih hf

theorem describes_foldToKind (hx : v.describes x = true) : (foldToKind v).describes x = true := by
  cases hs : v.isSimplifiable with
  | false =>
    rw [foldToKind_of_not_isSimplifiable hs]
    exact hx
  | true =>
    obtain ⟨k, hk, hfold⟩ := foldToKind_of_isSimplifiable hs
    rw [hfold]
    exact Value.describes_anyOf hs hk hx

theorem Describes.simplify {limit : Nat} (h : e.Describes x) (hs : e.simplify? limit = some f) :
    f.Describes x := by
  obtain ⟨v, hv, hx⟩ := h
  rw [simplify?_eq_some hs]
  exact describes_foldl_insert (List.mem_map.2 ⟨v, mem_toList.2 hv, rfl⟩) (describes_foldToKind hx)

/-- A widened group still describes what a value of the group does. -/
theorem exists_describes_widenGroup {k : Kind} (hv : v ∈ e.group k) (old : List Value)
    (hx : v.describes x = true) : ∃ w ∈ widenGroup k (e.group k) old, w.describes x = true := by
  rcases widenGroup_cases k (e.group k) old with ⟨heq, -⟩ | ⟨-, -, hull, hh, heq⟩ | ⟨-, -, -, heq⟩
  · rw [heq]
    exact ⟨v, hv, hx⟩
  · -- the value is within the hull, and the hull within the interval that the group became
    obtain ⟨i, hi, hcover⟩ := hull?_contains (hull?_of_if hh) hv
    have hwide := getD_widen_contains hull (hull? old)
    rw [heq]
    refine ⟨_, List.mem_singleton_self _, ?_⟩
    apply Value.describes_interval_of_contains (Interval.contains_trans hwide hcover)
    exact Value.describes_interval_of_interval? hi hx
  · obtain ⟨-, hs, hk⟩ := mem_group.1 hv
    rw [heq]
    exact ⟨_, List.mem_singleton_self _, Value.describes_anyOf hs hk hx⟩

/-- Widening loses nothing, whatever the entry is widened against. -/
theorem Describes.widen (h : e.Describes x) (previous : Entry) :
    (e.widen previous).Describes x := by
  obtain ⟨v, hv, hx⟩ := h
  cases hs : v.isSimplifiable with
  | false => exact ⟨v, mem_widen_of_mem hv hs, hx⟩
  | true =>
    obtain ⟨k, hk, -⟩ := foldToKind_of_isSimplifiable hs
    obtain ⟨w, hw, hxw⟩ :=
      exists_describes_widenGroup (mem_group.2 ⟨hv, hs, hk⟩) (previous.group k) hx
    exact ⟨w, mem_widen.2 (.inl (mem_widenedGroups.2 ⟨k, hw⟩)), hxw⟩

end Entry
end ScriptMemory
