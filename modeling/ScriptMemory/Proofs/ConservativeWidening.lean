import ScriptMemory.Proofs.Anonymity

/-! Widening of entries is conservative: what was covered is covered again, what is neither scalar
nor interval stays, no scalar or interval is added but the interval that takes the place of a group,
and that interval has room for the earlier group, too. -/
namespace ScriptMemory
open Std

namespace Range
variable {α : Type} [Ord α] [TransOrd α]

/-- The end of the earlier range that moved is infinite, the other one is the outer one of two. -/
theorem widen_contains_previous (r previous : Range α) :
    (r.widen previous).contains previous = true := by
  rw [contains_iff]
  unfold widen
  constructor
  · dsimp only
    split
    · exact Bound.negInf_isLE _
    · exact Bound.least_isLE_left
  · dsimp only
    split
    · exact Bound.isLE_posInf _
    · exact Bound.greatest_isGE_left

end Range

namespace Interval
variable {i j : Interval} {s : Scalar}

theorem widen_contains_previous (h : i.kind = j.kind) : (i.widen j).contains j = true := by
  cases i <;> cases j <;> first | exact Range.widen_contains_previous _ _ | cases h

theorem exists_hull? (h : i.kind = j.kind) : ∃ k, i.hull? j = some k ∧ k.kind = i.kind := by
  cases i <;> cases j <;> first | exact ⟨_, rfl, rfl⟩ | cases h

/-- Every number of a kind that has intervals is a point. -/
theorem exists_point? (h : s.kind = i.kind) : ∃ j, point? s = some j ∧ j.kind = i.kind := by
  cases i <;> cases s <;> first | exact ⟨_, rfl, rfl⟩ | cases h

end Interval

namespace Value
variable {v : Value} {i w : Interval}

theorem exists_interval? (hs : v.isSimplifiable = true) (hk : v.kind? = some i.kind) :
    ∃ j, v.interval? = some j ∧ j.kind = i.kind := by
  cases v with
  | scalar s => exact Interval.exists_point? (Option.some.inj hk)
  | interval j => exact ⟨j, rfl, Option.some.inj hk⟩
  | _ => cases hs

theorem within_interval (hi : v.interval? = some i) (hw : w.contains i = true) :
    v.Within (.interval w) := by
  cases v with
  | scalar s =>
    have hs : Interval.point? s = some i := hi
    exact .inr (by simp [absorbs, Interval.containsScalar, hs, hw])
  | interval j =>
    cases hi
    by_cases he : w = i
    · exact .inl (by rw [he])
    · exact .inr (by simp [absorbs, he, hw])
  | _ => cases hi

end Value

namespace Entry
variable {e p : Entry} {v : Value} {k : Kind} {group : List Value} {i hull : Interval}

/-- Numbers of one kind have a hull. -/
theorem exists_hull? (hne : group ≠ [])
    (h : ∀ v ∈ group, ∃ j, v.interval? = some j ∧ j.kind = k) :
    ∃ hull, hull? group = some hull ∧ hull.kind = k := by
  have hfold : ∀ (rest : List Value) (i : Interval), i.kind = k →
      (∀ v ∈ rest, ∃ j, v.interval? = some j ∧ j.kind = k) →
        ∃ hull, rest.foldlM (fun hull w => do hull.hull? (← w.interval?)) i = some hull ∧
          hull.kind = k := by
    intro rest
    induction rest with
    | nil => exact fun i hi _ => ⟨i, rfl, hi⟩
    | cons w rest ih =>
      intro i hi hrest
      obtain ⟨hw, hrest⟩ := List.forall_mem_cons.1 hrest
      obtain ⟨j, hj, hjk⟩ := hw
      obtain ⟨i', hi', hik⟩ := Interval.exists_hull? (hi.trans hjk.symm)
      obtain ⟨hull, hhull, hk⟩ := ih i' (hik.trans hi) hrest
      refine ⟨hull, ?_, hk⟩
      rw [List.foldlM_cons, hj]
      exact Option.bind_eq_some_iff.2 ⟨i', hi', hhull⟩
  cases group with
  | nil => exact absurd rfl hne
  | cons v rest =>
    obtain ⟨hv, hrest⟩ := List.forall_mem_cons.1 h
    obtain ⟨i, hi, hk⟩ := hv
    obtain ⟨hull, hhull, hkind⟩ := hfold rest i hk hrest
    exact ⟨hull, Option.bind_eq_some_iff.2 ⟨i, hi, hhull⟩, hkind⟩

theorem exists_interval?_of_mem_group (h : v ∈ e.group i.kind) :
    ∃ j, v.interval? = some j ∧ j.kind = i.kind :=
  Value.exists_interval? (mem_group.1 h).2.1 (mem_group.1 h).2.2

/-- The scalars of a kind give way to the kind: they have changed, and no interval is with them. -/
def Folds (e p : Entry) (k : Kind) : Prop :=
  e.group k ≠ [] ∧ e.group k ≠ p.group k ∧ ∀ i, .interval i ∈ e → i.kind ≠ k

/-- A group that holds an interval has a hull. -/
theorem exists_hull?_group (h : .interval i ∈ e) :
    ∃ hull, hull? (e.group i.kind) = some hull ∧ hull.kind = i.kind :=
  exists_hull? (List.ne_nil_of_mem (mem_group.2 ⟨h, rfl, rfl⟩)) fun _ =>
    exists_interval?_of_mem_group

theorem any_isInterval_group :
    (e.group k).any Value.isInterval = true ↔ ∃ i, .interval i ∈ e ∧ i.kind = k := by
  rw [List.any_eq_true]
  constructor
  · rintro ⟨v, hv, hi⟩
    obtain ⟨he, -, hk⟩ := mem_group.1 hv
    cases v with
    | interval i => exact ⟨i, he, Option.some.inj hk⟩
    | _ => cases hi
  · rintro ⟨i, hi, rfl⟩
    exact ⟨.interval i, mem_group.2 ⟨hi, rfl, rfl⟩, rfl⟩

/-- The three ways a group of an entry is widened, told by what the entry holds. -/
theorem widenGroup_group (e p : Entry) (k : Kind) :
    widenGroup k (e.group k) (p.group k) = e.group k ∧ (e.group k = [] ∨ e.group k = p.group k) ∨
    (∃ i, .interval i ∈ e ∧ i.kind = k ∧ e.group k ≠ p.group k ∧
      ∃ hull, hull? (e.group k) = some hull ∧ hull.kind = k ∧
        widenGroup k (e.group k) (p.group k) =
          [.interval (((hull? (p.group k)).map hull.widen).getD hull)]) ∨
    e.Folds p k ∧ widenGroup k (e.group k) (p.group k) = [.anyOf k] := by
  rcases widenGroup_cases k (e.group k) (p.group k) with
    hstays | ⟨-, hne, hull, hh, heq⟩ | ⟨hnil, hne, hh, heq⟩
  · exact .inl hstays
  · by_cases hany : (e.group k).any Value.isInterval = true
    · obtain ⟨i, hi, rfl⟩ := any_isInterval_group.1 hany
      obtain ⟨hull', hh', hkind⟩ := exists_hull?_group hi
      rw [if_pos hany] at hh
      cases hh.symm.trans hh'
      exact .inr (.inl ⟨i, hi, rfl, hne, hull, hh, hkind, heq⟩)
    · rw [if_neg hany] at hh
      cases hh
  · refine .inr (.inr ⟨⟨hnil, hne, ?_⟩, heq⟩)
    rintro i hi rfl
    obtain ⟨hull, hhull, -⟩ := exists_hull?_group hi
    rw [if_pos (any_isInterval_group.2 ⟨i, hi, rfl⟩), hhull] at hh
    cases hh

/-- A group is covered by what it becomes. -/
theorem exists_within_widenGroup (h : v ∈ e.group k) :
    ∃ w ∈ widenGroup k (e.group k) (p.group k), v.Within w := by
  rcases widenGroup_group e p k with ⟨heq, -⟩ | ⟨-, -, -, -, hull, hh, -, heq⟩ | ⟨-, heq⟩
  · rw [heq]
    exact ⟨v, h, .refl v⟩
  · obtain ⟨j, hj, hcover⟩ := hull?_contains hh h
    have hwide := getD_widen_contains hull (hull? (p.group k))
    rw [heq]
    exact ⟨_, List.mem_singleton.2 rfl,
      Value.within_interval hj (Interval.contains_trans hwide hcover)⟩
  · obtain ⟨-, hs, hk⟩ := mem_group.1 h
    rw [heq]
    exact ⟨_, List.mem_singleton.2 rfl, .inr (Value.anyOf_absorbs hs hk)⟩

theorem isSubsumedBy_widen (e p : Entry) : e.isSubsumedBy (e.widen p) = true := by
  rw [isSubsumedBy_iff]
  intro v hv
  by_cases hs : v.isSimplifiable = true
  · obtain ⟨k, hk, -⟩ := foldToKind_of_isSimplifiable hs
    obtain ⟨w, hw, hwithin⟩ := exists_within_widenGroup (p := p) (mem_group.2 ⟨hv, hs, hk⟩)
    exact (covers_of_mem (mem_widen.2 (.inl (mem_widenedGroups.2 ⟨k, hw⟩)))).within hwithin
  · exact covers_of_mem (mem_widen_of_mem hv (Bool.eq_false_iff.2 hs))

/-- What is neither scalar nor interval stays, and all that is added are kinds. -/
theorem mem_widen_iff_of_not_isSimplifiable (hs : v.isSimplifiable = false) :
    v ∈ e.widen p ↔ v ∈ e ∨ ∃ k, v = .anyOf k ∧ e.Folds p k := by
  rw [mem_widen, and_iff_left hs, mem_widenedGroups, or_comm]
  refine or_congr_right (exists_congr fun k => ?_)
  have hnot {w : Value} (hw : w.isSimplifiable = true) : v ≠ w := by
    rintro rfl
    rw [hs] at hw
    cases hw
  rcases widenGroup_group e p k with
    ⟨heq, hstays⟩ | ⟨i, hi, hik, -, hull, -, -, heq⟩ | ⟨hfolds, heq⟩
  · -- a group that stays holds scalars and intervals only
    refine iff_of_false (fun hv => ?_) ?_
    · rw [heq] at hv
      exact hnot (mem_group.1 hv).2.1 rfl
    · rintro ⟨-, hnil, hne, -⟩
      exact hstays.elim hnil hne
  · refine iff_of_false (fun hv => ?_) ?_
    · rw [heq, List.mem_singleton] at hv
      exact hnot rfl hv
    · rintro ⟨-, -, -, hnone⟩
      exact hnone i hi hik
  · rw [heq, List.mem_singleton, and_iff_left hfolds]

/-- A changed group with an interval becomes one interval, which covers the earlier group. -/
theorem exists_group_widen (hi : .interval i ∈ e) (hne : e.group i.kind ≠ p.group i.kind) :
    ∃ w, (e.widen p).group i.kind = [.interval w] ∧ ∀ v ∈ p.group i.kind,
      v.Within (.interval w) := by
  rcases widenGroup_group e p i.kind with ⟨-, hnil | hsame⟩ |
    ⟨-, -, -, -, hull, -, hk, heq⟩ | ⟨hfolds, -⟩
  · exact absurd hnil (List.ne_nil_of_mem (mem_group.2 ⟨hi, rfl, rfl⟩))
  · exact absurd hsame hne
  · refine ⟨_, by rw [group_widen, heq]; rfl, fun v hv => ?_⟩
    obtain ⟨old, hold, hkind⟩ :=
      exists_hull? (List.ne_nil_of_mem hv) fun _ => exists_interval?_of_mem_group (e := p) (i := i)
    obtain ⟨j, hj, hcover⟩ := hull?_contains hold hv
    rw [hold]
    exact Value.within_interval hj (Interval.contains_trans
      (Interval.widen_contains_previous (hk.trans hkind.symm)) hcover)
  · exact absurd rfl (hfolds.2.2 i hi)

/-- Widening covers the entry and keeps what is neither scalar nor interval, but for the kinds that
scalars are folded into; scalars and intervals become no more. It changes nothing where nothing has
changed, nor when it is repeated. And an interval that it makes covers all that the earlier entry
held of the kind. -/
theorem widen_conservative (e p : Entry) :
    e.isSubsumedBy (e.widen p) = true ∧
    (∀ v, v.isSimplifiable = false →
      (v ∈ e.widen p ↔ v ∈ e ∨ ∃ k, v = .anyOf k ∧ e.Folds p k)) ∧
    (e.widen p).simplifiableCount ≤ e.simplifiableCount ∧
    e.widen e = e ∧
    e.widen (e.widen p) = e.widen p ∧
    ∀ i, .interval i ∈ e → e.group i.kind ≠ p.group i.kind →
      ∃ w, (e.widen p).group i.kind = [.interval w] ∧
        (∀ j, .interval j ∈ p → j.kind = i.kind → w.contains j = true) ∧
        ∀ s, .scalar s ∈ p → s.kind = i.kind → w.containsScalar s = true := by
  refine ⟨isSubsumedBy_widen e p, fun v => mem_widen_iff_of_not_isSimplifiable,
    simplifiableCount_widen e p, widen_self e, widen_widen e p, fun i hi hne => ?_⟩
  obtain ⟨w, hw, hwithin⟩ := exists_group_widen hi hne
  refine ⟨w, hw, fun j hj hk => ?_, fun s hs hk => ?_⟩
  · rcases hwithin _ (mem_group.2 ⟨hj, rfl, congrArg some hk⟩) with heq | habsorbs
    · cases heq
      exact Interval.contains_refl w
    · exact (Bool.and_eq_true_iff.1 habsorbs).2
  · rcases hwithin _ (mem_group.2 ⟨hs, rfl, congrArg some hk⟩) with heq | habsorbs
    · cases heq
    · exact habsorbs

/-- An interval that grew at the top, and was lower at the bottom before: it ends at infinity, and
begins where the earlier one began. -/
theorem widen_conservative_grown :
    let between (first last : Int64) : Interval := .integer ⟨.finite first, .finite last⟩
    let e := ofList [.interval (between 0 3), .scalar (.integer 7), .scalar (.string "a")]
    let p := ofList [.interval (between 0 3), .scalar (.integer (-5))]
    .interval (between 0 3) ∈ e ∧ e.group .integer ≠ p.group .integer ∧
      e.isSubsumedBy (e.widen p) = true ∧
      ∃ w, (e.widen p).group .integer = [.interval w] ∧
        w.contains (between 0 3) = true ∧ w.containsScalar (.integer (-5)) = true := by
  intro between e p
  have hi : .interval (between 0 3) ∈ e := contains_eq_true.1 (by decide +kernel)
  have hne : e.group .integer ≠ p.group .integer := by decide +kernel
  obtain ⟨hcovers, -, -, -, -, hinterval⟩ := widen_conservative e p
  obtain ⟨w, hw, hj, hs⟩ := hinterval _ hi hne
  exact ⟨hi, hne, hcovers, w, hw, hj _ (contains_eq_true.1 (by decide +kernel)) rfl,
    hs _ (contains_eq_true.1 (by decide +kernel)) rfl⟩

end Entry
end ScriptMemory
