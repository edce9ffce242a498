import Mathlib.Order.Defs.Unbundled
import ScriptMemory.Proofs.Assignment

/-! The order of locations against what lies below what. Members come after roots, and among members
the parents decide first, so a location comes before each of its members, and then before all that
lies below it. A set of locations that is gone through in order is therefore gone through from
containers to members. -/
namespace ScriptMemory
open Std

namespace Index
variable {i j k : Index}

/-- The parents of the two differ by one member in the same way, down to a root. -/
theorem compare_member (i : Index) (s : Segment) : compare i (i.member s) = .lt := by
  induction i generalizing s with
  | root r => rfl
  | member p t ih =>
    change (compare p (p.member t)).then (compare t s) = .lt
    rw [ih t]
    rfl

theorem compare_of_isAncestorOf (h : i.isAncestorOf j = true) : compare i j = .lt := by
  induction j with
  | root r => cases h
  | member p s ih =>
    have hmember := compare_member p s
    rcases Bool.or_eq_true_iff.1 h with hp | hp
    · exact of_decide_eq_true hp ▸ hmember
    · exact TransCmp.lt_trans (ih hp) hmember

theorem ne_of_compare (h : compare i j = .lt) : i ≠ j := by
  rintro rfl
  rw [ReflOrd.compare_self] at h
  cases h

theorem not_isAncestorOf_of_compare (h : compare i j = .lt) : j.isAncestorOf i = false := by
  refine Bool.eq_false_iff.2 fun hancestor => ?_
  exact OrientedCmp.not_lt_of_lt h (compare_of_isAncestorOf hancestor)

theorem isAncestorOf_trans (h : i.isAncestorOf j = true) (h' : j.isAncestorOf k = true) :
    i.isAncestorOf k = true := by
  have hlt : compare i k = .lt :=
    TransCmp.lt_trans (compare_of_isAncestorOf h) (compare_of_isAncestorOf h')
  have hcontains := (isAncestorOf_iff.1 h).1.trans (isAncestorOf_iff.1 h').1
  exact isAncestorOf_iff.2 ⟨hcontains, ne_of_compare hlt⟩

/-- The order of locations is strict and total. -/
theorem isStrictTotalOrder : IsStrictTotalOrder Index (compare · · = .lt) where
  irrefl i h := ne_of_compare h rfl
  trans i j k h h' := TransCmp.lt_trans h h'
  trichotomous i j h h' := by
    cases hc : compare i j with
    | lt => exact absurd hc h
    | eq => exact LawfulEqOrd.eq_of_compare hc
    | gt => exact absurd (OrientedCmp.lt_of_gt hc) h'

end Index

namespace Locations
variable {l : Locations}

/-- Within a set no location comes after one that lies below it. -/
theorem pairwise_toList (targets : OrdSet Index) :
    targets.toList.Pairwise fun i j => j.isAncestorOf i = false := by
  have hsorted : targets.toList.Pairwise fun i j => compare i j = .lt := ExtTreeSet.ordered_toList
  exact hsorted.imp Index.not_isAncestorOf_of_compare

/-- The certain locations are written first, in order, and then the possible ones. -/
theorem pairwise_visits (l : Locations) :
    l.visits.Pairwise fun v w => v.1 = w.1 → w.2.isAncestorOf v.2 = false := by
  have hset (c : Bool) (targets : OrdSet Index) : (targets.toList.map (c, ·)).Pairwise
      fun v w => v.1 = w.1 → w.2.isAncestorOf v.2 = false := by
    rw [List.pairwise_map]
    refine (pairwise_toList targets).imp ?_
    intro i j h _
    exact h
  refine List.pairwise_append.2 ⟨hset true l.must, hset false l.may, ?_⟩
  rintro v hv w hw heq
  obtain ⟨i, -, rfl⟩ := List.mem_map.1 hv
  obtain ⟨j, -, rfl⟩ := List.mem_map.1 hw
  cases heq

end Locations

namespace Index

/-- Locations are in a strict total order, in which only equal ones compare as equal. What lies
below a location comes after it and has the same root; nothing lies below itself, and what lies
below something below a location lies below the location. So a set of locations that is gone through
in order never has a member before its container, and neither have the certain targets of a write or
the possible ones. -/
theorem ancestors_come_first :
    IsStrictTotalOrder Index (compare · · = .lt) ∧
    (∀ i j : Index, compare i j = .eq ↔ i = j) ∧
    (∀ i j : Index, i.isAncestorOf j = true → compare i j = .lt ∧ i.base = j.base) ∧
    (∀ i : Index, i.isAncestorOf i = false) ∧
    (∀ i j k : Index, i.isAncestorOf j = true → j.isAncestorOf k = true →
      i.isAncestorOf k = true) ∧
    (∀ targets : OrdSet Index, targets.toList.Pairwise fun i j => j.isAncestorOf i = false) ∧
    ∀ (d : Draft) (l : Locations) (e : Entry) (arrays : List ArraySource) (force : Bool),
      d.storeAll l e arrays force = l.visits.foldl
        (fun d v => d.store v.2 e arrays (v.1 && (force || !l.unknown))) d ∧
      l.visits.Pairwise fun v w => v.1 = w.1 → w.2.isAncestorOf v.2 = false := by
  refine ⟨isStrictTotalOrder, fun i j => LawfulEqCmp.compare_eq_iff_eq, fun i j h => ?_,
    fun i => ?_,
    fun i j k => isAncestorOf_trans, Locations.pairwise_toList, fun d l e arrays force => ?_⟩
  · exact ⟨compare_of_isAncestorOf h, (isAncestorOf_iff.1 h).1.base_eq.symm⟩
  · exact Bool.eq_false_iff.2 fun h => ne_of_compare (compare_of_isAncestorOf h) rfl
  · have hfold := Locations.foldl_visits (l := l)
      (fun certain d i => d.store i e arrays (certain && (force || !l.unknown))) d
    exact ⟨hfold.symm, l.pairwise_visits⟩

/-- An array, an element of it that holds an object, and where a field of the element would be. -/
theorem ancestors_come_first_nested :
    let i : Index := .ofVariable "a" .global
    let j := i.member (.key (.integer 1))
    let k := j.member (.field "f")
    (i.isAncestorOf j = true ∧ j.isAncestorOf k = true) ∧
      i.isAncestorOf k = true ∧ compare i k = .lt ∧ i.base = k.base := by
  intro i j k
  obtain ⟨-, -, hbelow, -, htrans, -⟩ := ancestors_come_first
  have hij : i.isAncestorOf j = true := by decide
  have hjk : j.isAncestorOf k = true := by decide
  have hik := htrans i j k hij hjk
  exact ⟨⟨hij, hjk⟩, hik, hbelow i k hik⟩

end Index
end ScriptMemory
