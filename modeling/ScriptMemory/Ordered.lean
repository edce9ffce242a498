import Std.Data.ExtTreeMap
import Std.Data.ExtTreeSet

/-! Finite sets and maps that list their keys in increasing order, and the lawful orders their
keys need. A type with several forms is ordered by the rank of the form and then, within one
form, by content; `TransCmp` and `LawfulEqCmp` follow from the laws within a form. -/
namespace ScriptMemory
open Std

/-- A finite set in the order of its type; two of them are equal when they have the same members. -/
abbrev OrdSet (α : Type) [Ord α] := ExtTreeSet α compare

/-- A finite map in the order of its keys; two of them are equal when they agree everywhere. -/
abbrev OrdMap (κ : Type) [Ord κ] (ν : Type) := ExtTreeMap κ ν compare

/-- First the rank, then `within` for elements of one rank. -/
def compareRanked {α : Type} (rank : α → Nat) (within : α → α → Ordering) (a b : α) : Ordering :=
  (compare (rank a) (rank b)).then (within a b)

variable {α : Type} {rank : α → Nat} {within : α → α → Ordering}

theorem compareRanked_eq_swap
    (h : ∀ a b, rank a = rank b → within a b = (within b a).swap) (a b : α) :
    compareRanked rank within a b = (compareRanked rank within b a).swap := by
  unfold compareRanked
  rcases Nat.lt_trichotomy (rank a) (rank b) with hlt | heq | hgt
  · rw [Nat.compare_eq_lt.2 hlt, Nat.compare_eq_gt.2 hlt]; rfl
  · rw [h a b heq, heq]; simp [Ordering.then]
  · rw [Nat.compare_eq_gt.2 hgt, Nat.compare_eq_lt.2 hgt]; rfl

theorem rank_le_of_compareRanked_isLE {a b : α} (h : (compareRanked rank within a b).isLE) :
    rank a ≤ rank b := by
  unfold compareRanked at h
  rcases Nat.lt_or_ge (rank b) (rank a) with hgt | hle
  · rw [Nat.compare_eq_gt.2 hgt] at h; simp [Ordering.then] at h
  · exact hle

theorem within_isLE_of_compareRanked {a b : α} (he : rank a = rank b)
    (h : (compareRanked rank within a b).isLE) : (within a b).isLE := by
  simpa [compareRanked, he, Ordering.then] using h

theorem compareRanked_isLE_trans
    (h : ∀ a b c, rank a = rank b → rank b = rank c →
      (within a b).isLE → (within b c).isLE → (within a c).isLE) {a b c : α}
    (hab : (compareRanked rank within a b).isLE) (hbc : (compareRanked rank within b c).isLE) :
    (compareRanked rank within a c).isLE := by
  have hab' := rank_le_of_compareRanked_isLE hab
  have hbc' := rank_le_of_compareRanked_isLE hbc
  rcases Nat.lt_or_ge (rank a) (rank c) with hlt | hge
  · simp [compareRanked, Nat.compare_eq_lt.2 hlt]
  · have he : rank a = rank b := by omega
    have he' : rank b = rank c := by omega
    have hw := h a b c he he' (within_isLE_of_compareRanked he hab)
      (within_isLE_of_compareRanked he' hbc)
    simpa [compareRanked, he.trans he', Ordering.then] using hw

theorem compareRanked_transCmp
    (hs : ∀ a b, rank a = rank b → within a b = (within b a).swap)
    (ht : ∀ a b c, rank a = rank b → rank b = rank c →
      (within a b).isLE → (within b c).isLE → (within a c).isLE) :
    TransCmp (compareRanked rank within) where
  eq_swap := compareRanked_eq_swap hs _ _
  isLE_trans := compareRanked_isLE_trans ht

theorem compareRanked_lawfulEqCmp (hr : ∀ a, within a a = .eq)
    (he : ∀ a b, rank a = rank b → within a b = .eq → a = b) :
    LawfulEqCmp (compareRanked rank within) where
  compare_self := by simp [compareRanked, hr]
  eq_of_compare {a b} h := by
    simp only [compareRanked, Ordering.then_eq_eq, Nat.compare_eq_eq] at h
    exact he a b h.1 h.2

/-- An order read off an injective key is lawful. -/
theorem compareOn_lawfulEqCmp {β : Type} [Ord β] [LawfulEqOrd β] {key : α → β}
    (h : ∀ a b, key a = key b → a = b) : LawfulEqCmp (compareOn key) where
  compare_self := by simp [compareOn]
  eq_of_compare hc := h _ _ (LawfulEqOrd.eq_of_compare hc)

theorem compareOn_eq_iff {β : Type} [Ord β] [LawfulEqOrd β] {f : α → β} {a b : α} :
    compareOn f a b = .eq ↔ f a = f b := by
  simp [compareOn]

/-- Two elements that compare equal by one key and then by another agree on both. -/
theorem compareLex_eq_iff {c d : α → α → Ordering} {a b : α} :
    compareLex c d a b = .eq ↔ c a b = .eq ∧ d a b = .eq := by
  simp [compareLex, Ordering.then_eq_eq]

namespace OrdSet
variable {α : Type} [Ord α] [TransOrd α] [LawfulEqOrd α] {s t : OrdSet α} {a b : α}

theorem mem_filter {f : α → Bool} : a ∈ s.filter f ↔ a ∈ s ∧ f a = true := by
  rw [ExtTreeSet.mem_filter]
  constructor
  · rintro ⟨h, hf⟩
    exact ⟨h, ExtTreeSet.get_eq h ▸ hf⟩
  · rintro ⟨h, hf⟩
    exact ⟨h, (ExtTreeSet.get_eq h).symm ▸ hf⟩

theorem mem_insert : a ∈ s.insert b ↔ a = b ∨ a ∈ s := by
  rw [ExtTreeSet.mem_insert, LawfulEqCmp.compare_eq_iff_eq, eq_comm]

theorem mem_erase : a ∈ s.erase b ↔ a ≠ b ∧ a ∈ s := by
  rw [ExtTreeSet.mem_erase, ne_eq, LawfulEqCmp.compare_eq_iff_eq, ne_eq, eq_comm (a := a)]

end OrdSet

namespace OrdMap
variable {κ ν : Type} [Ord κ] [TransOrd κ] [LawfulEqOrd κ]

theorem getElem?_insert [DecidableEq κ] {m : OrdMap κ ν} {k l : κ} {v : ν} :
    (m.insert k v)[l]? = if l = k then some v else m[l]? := by
  rw [ExtTreeMap.getElem?_insert]
  simp only [LawfulEqCmp.compare_eq_iff_eq, eq_comm (a := k)]

theorem getElem?_erase [DecidableEq κ] {m : OrdMap κ ν} {k l : κ} :
    (m.erase k)[l]? = if l = k then none else m[l]? := by
  rw [ExtTreeMap.getElem?_erase]
  simp only [LawfulEqCmp.compare_eq_iff_eq, eq_comm (a := k)]

/-- The map with the given keys and the values of a function. -/
def tabulate (keys : OrdSet κ) (f : κ → ν) : OrdMap κ ν :=
  keys.toList.foldl (fun m k => m.insert k (f k)) ∅

theorem getElem?_foldl_insert [DecidableEq κ] (f : κ → ν) (keys : List κ) (m : OrdMap κ ν) (k : κ) :
    (keys.foldl (fun m k => m.insert k (f k)) m)[k]? =
      if k ∈ keys then some (f k) else m[k]? := by
  induction keys generalizing m with
  | nil => simp
  | cons l keys ih =>
    rw [List.foldl_cons, ih, getElem?_insert]
    by_cases hk : k ∈ keys <;> by_cases hl : k = l <;> simp [hk, hl]

theorem getElem?_tabulate [DecidableEq κ] {keys : OrdSet κ} {f : κ → ν} {k : κ} :
    (tabulate keys f)[k]? = if k ∈ keys then some (f k) else none := by
  simp [tabulate, getElem?_foldl_insert, ExtTreeSet.mem_toList]

end OrdMap
end ScriptMemory
