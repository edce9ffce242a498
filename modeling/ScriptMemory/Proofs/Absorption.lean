import ScriptMemory.Proofs.Concretization

/-! Entries up to absorption. What a value absorbs is absorbed by whatever absorbs that value, so an
entry built by insertions is settled by the values that it covers: the order and the grouping of the
insertions do not matter, and nothing inserted is lost. -/
namespace ScriptMemory
open Std

namespace Bound
variable {α : Type} [Ord α] [TransOrd α] [LawfulEqOrd α] {a b : Bound α}

theorem eq_of_isLE_of_isLE (h : (compare a b).isLE) (h' : (compare b a).isLE) : a = b := by
  rw [OrientedOrd.eq_swap] at h'
  cases hc : compare a b with
  | lt => simp [hc] at h'
  | eq => exact LawfulEqOrd.eq_of_compare hc
  | gt => simp [hc] at h

end Bound

theorem Range.eq_of_contains_of_contains {α : Type} [Ord α] [TransOrd α] [LawfulEqOrd α]
    {r s : Range α} (h : r.contains s = true) (h' : s.contains r = true) : r = s := by
  obtain ⟨hstart, hstop⟩ := contains_iff.1 h
  obtain ⟨hstart', hstop'⟩ := contains_iff.1 h'
  have hs : r.start = s.start := Bound.eq_of_isLE_of_isLE hstart hstart'
  have ht : r.stop = s.stop := Bound.eq_of_isLE_of_isLE hstop' hstop
  cases r; cases s
  dsimp only at hs ht
  rw [hs, ht]

theorem Interval.eq_of_contains_of_contains {i j : Interval} (h : i.contains j = true)
    (h' : j.contains i = true) : i = j := by
  cases i <;> cases j <;> simp only [contains, Bool.false_eq_true] at h h'
  · rw [Range.eq_of_contains_of_contains h h']
  · rw [Range.eq_of_contains_of_contains h h']

namespace Value
variable {u v w : Value}

/-- What a value that is absorbed absorbs in turn is absorbed as well. -/
theorem absorbs_trans (h : u.absorbs v = true) (h' : v.absorbs w = true) : u.absorbs w = true := by
  cases v with
  -- a kind is absorbed by the value for everything only
  | anyOf k =>
    have hu : u = any := eq_any_of_absorbs_anyOf h
    have hw : w.isSimplifiable = true := by
      cases w <;> simp_all [absorbs, isSimplifiable]
    rw [hu]
    exact any_absorbs hw
  | interval i =>
    have hw : w.isSimplifiable = true := by
      cases w <;> simp_all [absorbs, isSimplifiable]
    cases u with
    | any => exact any_absorbs hw
    | anyOf k =>
      have hk : (interval i).kind? = some k := by simpa [absorbs, kind?] using h
      have hsame : w.kind? = (interval i).kind? := kind_eq_of_absorbs (by simp) h'
      exact anyOf_absorbs hw (hsame.trans hk)
    | interval outer =>
      have ho : outer ≠ i ∧ outer.contains i = true := by simpa [absorbs] using h
      cases w with
      | scalar s => exact Interval.containsScalar_of_contains ho.2 h'
      | interval inner =>
        have hi : i ≠ inner ∧ i.contains inner = true := by simpa [absorbs] using h'
        have hne : outer ≠ inner := by
          intro he
          subst he
          exact ho.1 (Interval.eq_of_contains_of_contains ho.2 hi.2)
        simp [absorbs, hne, Interval.contains_trans ho.2 hi.2]
      | _ => cases hw
    | _ => cases h
  | any => cases u <;> simp [absorbs] at h
  | _ => cases h'

theorem undefined_isSolid : undefined.IsSolid := by
  intro w
  cases w <;> rfl

theorem any_isSolid : any.IsSolid := by
  intro w
  cases w <;> rfl

/-- The kinds that have members of their own are never absorbed. -/
theorem anyOf_isSolid {k : Kind} (h : k.isScalar = false) : (anyOf k).IsSolid := by
  intro w
  cases w <;> simp [absorbs, h]

/-- Whatever `v` describes `w` describes, too: it is the same value, or it absorbs it. -/
def Within (v w : Value) : Prop :=
  v = w ∨ w.absorbs v = true

theorem Within.refl (v : Value) : v.Within v :=
  .inl rfl

theorem Within.trans (h : u.Within v) (h' : v.Within w) : u.Within w := by
  rcases h with rfl | h
  · exact h'
  · rcases h' with rfl | h'
    · exact .inr h
    · exact .inr (absorbs_trans h' h)

theorem Within.antisymm (h : v.Within w) (h' : w.Within v) : v = w := by
  rcases h with rfl | h
  · rfl
  · rcases h' with rfl | h'
    · rfl
    · have hself : v.absorbs v = true := absorbs_trans h' h
      rw [absorbs_self] at hself
      cases hself

theorem within_undefined : v.Within .undefined ↔ v = .undefined := by
  refine ⟨fun h => h.elim id fun h => ?_, fun h => .inl h⟩
  cases v <;> cases h

end Value

namespace Entry
variable {e f : Entry} {v w : Value}

/-- The value is in the entry, or a member absorbs it. -/
def Covers (e : Entry) (v : Value) : Prop :=
  ∃ w ∈ e, v.Within w

theorem covers_of_mem (h : v ∈ e) : e.Covers v :=
  ⟨v, h, .refl v⟩

theorem Covers.within (h : e.Covers w) (hv : v.Within w) : e.Covers v := by
  obtain ⟨u, hu, hw⟩ := h
  exact ⟨u, hu, hv.trans hw⟩

theorem covers_iff : e.Covers v ↔ (e.contains v || e.absorbs v) = true := by
  rw [Bool.or_eq_true, contains_eq_true, absorbs_eq_true]
  constructor
  · rintro ⟨w, hw, rfl | ha⟩
    · exact .inl hw
    · exact .inr ⟨w, hw, ha⟩
  · rintro (h | ⟨w, hw, ha⟩)
    · exact covers_of_mem h
    · exact ⟨w, hw, .inr ha⟩

instance (e : Entry) (v : Value) : Decidable (e.Covers v) :=
  decidable_of_iff _ covers_iff.symm

/-- What nothing absorbs is covered only where it is held. -/
theorem covers_iff_of_isSolid (hv : v.IsSolid) : e.Covers v ↔ v ∈ e := by
  rw [covers_iff, not_absorbs_of_isSolid hv, Bool.or_false, contains_eq_true]

/-- One entry is subsumed by another that covers all its values. -/
theorem isSubsumedBy_iff : e.isSubsumedBy f = true ↔ ∀ v ∈ e, f.Covers v := by
  unfold isSubsumedBy
  rw [List.all_eq_true]
  simp only [mem_toList, covers_iff]

/-- An entry is settled by what it covers, since no member absorbs a member. -/
theorem ext_covers (h : ∀ v, e.Covers v ↔ f.Covers v) : e = f := by
  have hsub {e f : Entry} (h : ∀ v, e.Covers v ↔ f.Covers v) : ∀ v ∈ e, v ∈ f := by
    intro v hv
    obtain ⟨w, hw, hvw⟩ := (h v).1 (covers_of_mem hv)
    obtain ⟨u, hu, hwu⟩ := (h w).2 (covers_of_mem hw)
    -- `v` is within `u`, a member as well, so all three are the same
    have hvu : v = u := (hvw.trans hwu).resolve_right (by simp [absorbs_eq_false_of_mem hu hv])
    subst hvu
    rwa [hvw.antisymm hwu]
  apply ext_mem
  intro v
  exact ⟨hsub h v, hsub (fun w => (h w).symm) v⟩

theorem not_covers_empty : ¬(∅ : Entry).Covers v := by
  rintro ⟨w, hw, -⟩
  exact not_mem_empty hw

/-- An insertion covers what the entry covered, and what is within the value inserted. -/
theorem covers_insert : (e.insert v).Covers w ↔ w.Within v ∨ e.Covers w := by
  have hself : (e.insert v).Covers v := by
    rcases mem_or_absorbs_insert (e := e) (v := v) with h | ⟨u, hu, ha⟩
    · exact covers_of_mem h
    · exact ⟨u, hu, .inr ha⟩
  constructor
  · rintro ⟨u, hu, hw⟩
    rcases eq_or_mem_of_mem_insert hu with rfl | hu
    · exact .inl hw
    · exact .inr ⟨u, hu, hw⟩
  · rintro (hw | ⟨u, hu, hw⟩)
    · exact hself.within hw
    · -- a member that is dropped is within the value it was dropped for
      cases ha : v.absorbs u with
      | true => exact hself.within (hw.trans (.inr ha))
      | false => exact ⟨u, mem_insert_of_mem hu ha, hw⟩

theorem covers_foldl_insert {l : List Value} :
    (l.foldl insert e).Covers w ↔ (∃ v ∈ l, w.Within v) ∨ e.Covers w := by
  induction l generalizing e with
  | nil => simp
  | cons a l ih =>
    rw [List.foldl_cons, ih, covers_insert]
    simp only [List.mem_cons, exists_eq_or_imp]
    rw [or_left_comm, or_assoc]

theorem covers_join : (e.join f).Covers v ↔ e.Covers v ∨ f.Covers v := by
  rw [join, covers_foldl_insert, or_comm]
  simp only [mem_toList, Covers]

/-- A join of several entries covers what any of them covers, and nothing else. -/
theorem covers_foldl_join {l : List Entry} :
    (l.foldl join e).Covers v ↔ e.Covers v ∨ ∃ f ∈ l, f.Covers v := by
  induction l generalizing e with
  | nil => simp
  | cons a l ih =>
    rw [List.foldl_cons, ih, covers_join]
    simp only [List.mem_cons, exists_eq_or_imp, or_assoc]

theorem mem_ofValue : w ∈ ofValue v ↔ w = v := by
  have hnone : (∅ : Entry).absorbs v = false := by
    rw [Bool.eq_false_iff, Ne, absorbs_eq_true]
    rintro ⟨u, hu, -⟩
    exact not_mem_empty hu
  have hinsert : w ∈ (∅ : Entry).insert v ↔ w = v ∨ w ∈ (∅ : Entry) ∧ v.absorbs w = false :=
    mem_insert_of_not_absorbs hnone
  refine hinsert.trans ?_
  rw [or_iff_left]
  exact fun h => not_mem_empty h.1

theorem covers_undefined : undefined.Covers v ↔ v = .undefined := by
  unfold undefined ofValue
  rw [covers_insert, Value.within_undefined, or_iff_left not_covers_empty]

theorem isSimplifiable_foldToKind (v : Value) : (foldToKind v).isSimplifiable = false := by
  cases v <;> rfl

/-- Folding members into their kinds makes none of them absorb another: a kind of scalars absorbs
scalars and intervals only, and only the value for everything absorbs such a kind. -/
theorem absorbs_foldToKind (hv : v ∈ e) (hw : w ∈ e) :
    (foldToKind v).absorbs (foldToKind w) = false := by
  rw [Bool.eq_false_iff]
  intro ha
  cases hs : w.isSimplifiable with
  | false =>
    rw [foldToKind_of_not_isSimplifiable hs] at ha
    cases ht : v.isSimplifiable with
    | false =>
      rw [foldToKind_of_not_isSimplifiable ht, absorbs_eq_false_of_mem hv hw] at ha
      cases ha
    | true =>
      obtain ⟨k, -, hk⟩ := foldToKind_of_isSimplifiable ht
      rw [hk] at ha
      cases w <;> simp_all [Value.absorbs, Value.isSimplifiable]
  | true =>
    obtain ⟨k, -, hk⟩ := foldToKind_of_isSimplifiable hs
    rw [hk] at ha
    have hany := Value.eq_any_of_absorbs_anyOf ha
    -- what folds to the value for everything is that value, which leaves no scalar beside it
    have hv' : v = .any := by
      cases v <;> simp_all [foldToKind, Value.kind?, Value.isSimplifiable]
    have hnone := absorbs_eq_false_of_mem hv hw
    rw [hv', Value.any_absorbs hs] at hnone
    cases hnone

/-- A simplified entry holds the members, folded into their kinds, and nothing else. -/
theorem mem_simplify {limit : Nat} (h : e.simplify? limit = some f) :
    v ∈ f ↔ ∃ w ∈ e, foldToKind w = v := by
  have hlist {u : Value} : u ∈ e.toList.map foldToKind ↔ ∃ w ∈ e, foldToKind w = u := by
    simp only [List.mem_map, mem_toList]
  have hmem : v ∈ (e.toList.map foldToKind).foldl insert ∅ ↔
      v ∈ e.toList.map foldToKind ∨ v ∈ (∅ : Entry) := by
    apply mem_foldl_insert_of_irredundant
    rintro u u' (hu | hu) (hu' | hu')
    · obtain ⟨w, hw, rfl⟩ := hlist.1 hu
      obtain ⟨w', hw', rfl⟩ := hlist.1 hu'
      exact absorbs_foldToKind hw hw'
    all_goals exact absurd ‹_ ∈ (∅ : Entry)› not_mem_empty
  rw [simplify?_eq_some h]
  exact hmem.trans ((or_iff_left not_mem_empty).trans hlist)

/-- A value is within the kind that it folds into. -/
theorem within_foldToKind (v : Value) : v.Within (foldToKind v) := by
  cases hs : v.isSimplifiable with
  | false => exact .inl (foldToKind_of_not_isSimplifiable hs).symm
  | true =>
    obtain ⟨k, hk, hfold⟩ := foldToKind_of_isSimplifiable hs
    rw [hfold]
    exact .inr (Value.anyOf_absorbs hs hk)

/-- The entry `f` is `e` with every scalar and interval folded into its kind. -/
structure FoldsTo (e f : Entry) : Prop where
  isSubsumedBy : e.isSubsumedBy f = true
  isSimplifiable : ∀ v ∈ f, v.isSimplifiable = false
  mem_iff : ∀ v, v ∈ f ↔ v ∈ e ∧ v.isSimplifiable = false ∨
    ∃ w ∈ e, w.isSimplifiable = true ∧ ∃ k, w.kind? = some k ∧ v = .anyOf k

theorem foldsTo_of_simplify {limit : Nat} (h : e.simplify? limit = some f) : e.FoldsTo f where
  isSubsumedBy := isSubsumedBy_iff.2 fun v hv =>
    ⟨foldToKind v, (mem_simplify h).2 ⟨v, hv, rfl⟩, within_foldToKind v⟩
  isSimplifiable := by
    intro v hv
    obtain ⟨w, -, rfl⟩ := (mem_simplify h).1 hv
    exact isSimplifiable_foldToKind w
  mem_iff := by
    intro v
    rw [mem_simplify h]
    constructor
    · rintro ⟨w, hw, rfl⟩
      cases hs : w.isSimplifiable with
      | false =>
        rw [foldToKind_of_not_isSimplifiable hs]
        exact .inl ⟨hw, hs⟩
      | true =>
        obtain ⟨k, hk, hfold⟩ := foldToKind_of_isSimplifiable hs
        exact .inr ⟨w, hw, hs, k, hk, hfold⟩
    · rintro (⟨hv, hs⟩ | ⟨w, hw, hs, k, hk, rfl⟩)
      · exact ⟨v, hv, foldToKind_of_not_isSimplifiable hs⟩
      · obtain ⟨k', hk', hfold⟩ := foldToKind_of_isSimplifiable hs
        rw [hk] at hk'
        cases hk'
        exact ⟨w, hw, hfold⟩

/-- Only an entry over the limit is simplified. -/
theorem exists_simplify_iff {limit : Nat} :
    (∃ f, e.simplify? limit = some f) ↔ limit < e.simplifiableCount := by
  unfold simplify?
  split
  · next h => exact iff_of_false (fun ⟨_, hf⟩ => nomatch hf) (Nat.not_lt.2 h)
  · next h => exact iff_of_true ⟨_, rfl⟩ (Nat.not_le.1 h)

end Entry
end ScriptMemory
