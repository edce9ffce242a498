import ScriptMemory.Proofs.Entry

/-! Widening. A widened range covers the range it came from and is stable: widening the same range
once more, now against the result, gives the result again. Both facts carry over from ranges to
entries, kind by kind. -/
namespace ScriptMemory
open Std

namespace Bound
variable {α : Type} [Ord α] [TransOrd α] {a b c : Bound α}

theorem least_isLE_left : (compare (least a b) a).isLE := by
  unfold least
  split
  · exact ReflOrd.isLE_rfl
  · next h =>
    have hg : compare a b = .gt := by simpa using h
    rw [OrientedOrd.eq_swap] at hg
    cases hc : compare b a <;> simp_all

theorem least_isLE_right : (compare (least a b) b).isLE := by
  unfold least
  split
  · next h => exact h
  · exact ReflOrd.isLE_rfl

theorem greatest_isGE_left : (compare a (greatest a b)).isLE := by
  unfold greatest
  split
  · next h => exact h
  · exact ReflOrd.isLE_rfl

theorem greatest_isGE_right : (compare b (greatest a b)).isLE := by
  unfold greatest
  split
  · exact ReflOrd.isLE_rfl
  · next h =>
    have hg : compare a b = .gt := by simpa using h
    rw [OrientedOrd.eq_swap] at hg
    cases hc : compare b a <;> simp_all

omit [TransOrd α] in
theorem negInf_isLE (a : Bound α) : (compare negInf a).isLE := by
  cases a <;> rfl

omit [TransOrd α] in
theorem isLE_posInf (a : Bound α) : (compare a posInf).isLE := by
  cases a <;> rfl

omit [TransOrd α] in
theorem least_of_isLE (h : (compare a b).isLE) : least a b = a :=
  if_pos h

theorem greatest_of_isGE [LawfulEqOrd α] (h : (compare b a).isLE) : greatest a b = a := by
  unfold greatest
  split
  · next hab =>
    rw [OrientedOrd.eq_swap] at hab
    have he : compare b a = .eq := by
      cases hc : compare b a <;> simp_all
    exact LawfulEqOrd.eq_of_compare he
  · rfl

end Bound

namespace Range
variable {α : Type} [Ord α] [TransOrd α] {r s t : Range α}

omit [TransOrd α] in
theorem contains_iff : r.contains s = true ↔
    (compare r.start s.start).isLE ∧ (compare s.stop r.stop).isLE := by
  simp [contains]

theorem contains_refl (r : Range α) : r.contains r = true :=
  contains_iff.2 ⟨ReflOrd.isLE_rfl, ReflOrd.isLE_rfl⟩

theorem contains_trans (h : r.contains s = true) (h' : s.contains t = true) :
    r.contains t = true := by
  rw [contains_iff] at *
  exact ⟨TransOrd.isLE_trans h.1 h'.1, TransOrd.isLE_trans h'.2 h.2⟩

theorem hull_contains_left (r s : Range α) : (r.hull s).contains r = true :=
  contains_iff.2 ⟨Bound.least_isLE_left, Bound.greatest_isGE_left⟩

theorem hull_contains_right (r s : Range α) : (r.hull s).contains s = true :=
  contains_iff.2 ⟨Bound.least_isLE_right, Bound.greatest_isGE_right⟩

theorem widen_contains (r previous : Range α) : (r.widen previous).contains r = true := by
  rw [contains_iff]
  unfold widen
  constructor
  · dsimp only
    split
    · exact Bound.negInf_isLE _
    · exact Bound.least_isLE_right
  · dsimp only
    split
    · exact Bound.isLE_posInf _
    · exact Bound.greatest_isGE_right

/-- A range within the earlier one moves no end, so the earlier one stays. -/
theorem widen_of_contains [LawfulEqOrd α] (h : s.contains r = true) : r.widen s = s := by
  obtain ⟨hstart, hstop⟩ := contains_iff.1 h
  have hlt : compare r.start s.start ≠ .lt := by
    intro hc
    rw [OrientedOrd.eq_swap, hc] at hstart
    cases hstart
  have hgt : compare r.stop s.stop ≠ .gt := by
    intro hc
    rw [hc] at hstop
    cases hstop
  unfold widen
  rw [if_neg hlt, if_neg hgt, Bound.least_of_isLE hstart, Bound.greatest_of_isGE hstop]

omit [TransOrd α] in
theorem unbounded_contains (r : Range α) : unbounded.contains r = true :=
  contains_iff.2 ⟨Bound.negInf_isLE _, Bound.isLE_posInf _⟩

end Range

namespace Interval
variable {i j k : Interval}

theorem contains_trans (h : i.contains j = true) (h' : j.contains k = true) :
    i.contains k = true := by
  cases i <;> cases j <;> cases k <;> simp only [contains, Bool.false_eq_true] at h h' ⊢
  · exact Range.contains_trans h h'
  · exact Range.contains_trans h h'

theorem contains_refl (i : Interval) : i.contains i = true := by
  cases i with
  | integer r => exact Range.contains_refl r
  | float r => exact Range.contains_refl r

theorem hull?_contains (h : i.hull? j = some k) : k.contains i = true ∧ k.contains j = true := by
  cases i <;> cases j <;> simp only [hull?, Option.some.injEq, reduceCtorEq] at h <;> subst h
  · exact ⟨Range.hull_contains_left _ _, Range.hull_contains_right _ _⟩
  · exact ⟨Range.hull_contains_left _ _, Range.hull_contains_right _ _⟩

theorem widen_contains (i previous : Interval) : (i.widen previous).contains i = true := by
  cases i <;> cases previous
  · exact Range.widen_contains _ _
  · exact Range.unbounded_contains _
  · exact Range.unbounded_contains _
  · exact Range.widen_contains _ _

theorem widen_of_contains (h : j.contains i = true) : i.widen j = j := by
  cases i <;> cases j <;> simp only [contains, Bool.false_eq_true] at h
  · exact congrArg integer (Range.widen_of_contains h)
  · exact congrArg float (Range.widen_of_contains h)

theorem kind_widen (i j : Interval) : (i.widen j).kind = i.kind := by
  cases i <;> cases j <;> rfl

end Interval

namespace Value
variable {v w : Value}

theorem any_absorbs (h : v.isSimplifiable = true) : any.absorbs v = true := by
  cases v <;> simp_all [isSimplifiable, absorbs]

theorem anyOf_absorbs {k : Kind} (h : v.isSimplifiable = true) (hk : v.kind? = some k) :
    (anyOf k).absorbs v = true := by
  cases v <;> simp_all [isSimplifiable, absorbs, kind?]

/-- Apart from scalars and intervals only kinds and the value for everything absorb anything. -/
theorem eq_anyOf_of_absorbs {k : Kind} (hs : v.isSimplifiable = false) (hk : v.kind? = some k)
    (h : v.absorbs w = true) : v = anyOf k := by
  cases v <;> simp_all [isSimplifiable, absorbs, kind?]

end Value

namespace Entry
variable {e previous : Entry} {v w : Value} {k : Kind} {group : List Value} {hull : Interval}

theorem mem_group :
    v ∈ e.group k ↔ v ∈ e ∧ v.isSimplifiable = true ∧ v.kind? = some k := by
  simp [group]

theorem group_eq_toList (e : Entry) (k : Kind) :
    e.group k = (e.filter fun v => v.isSimplifiable && v.kind? = some k).toList :=
  ExtTreeSet.toList_filter.symm

theorem toList_eq_singleton (h : ∀ w, w ∈ e ↔ w = v) : e.toList = [v] :=
  OrdSet.toList_eq_singleton h

/-- The hull of a group covers the interval of every member. -/
theorem hull?_contains (h : hull? group = some hull) (hv : v ∈ group) :
    ∃ i, v.interval? = some i ∧ hull.contains i = true := by
  -- the hull only grows, so it still covers what it covered before
  have hfold : ∀ (rest : List Value) (i : Interval),
      rest.foldlM (fun hull w => do hull.hull? (← w.interval?)) i = some hull →
        hull.contains i = true ∧ ∀ w ∈ rest, ∃ j, w.interval? = some j ∧
          hull.contains j = true := by
    intro rest
    induction rest with
    | nil =>
      intro i hi
      cases hi
      exact ⟨Interval.contains_refl _, by simp⟩
    | cons w rest ih =>
      intro i hi
      rw [List.foldlM_cons] at hi
      obtain ⟨i', hw, hrest⟩ := Option.bind_eq_some_iff.1 hi
      obtain ⟨j, hj, hij⟩ := Option.bind_eq_some_iff.1 hw
      obtain ⟨hi', hall⟩ := ih i' hrest
      obtain ⟨hleft, hright⟩ := Interval.hull?_contains hij
      refine ⟨Interval.contains_trans hi' hleft, ?_⟩
      intro w' hw'
      rcases List.mem_cons.1 hw' with rfl | hw'
      · exact ⟨j, hj, Interval.contains_trans hi' hright⟩
      · exact hall w' hw'
  cases group with
  | nil => cases hv
  | cons a rest =>
    obtain ⟨i, hi, hrest⟩ := Option.bind_eq_some_iff.1 h
    obtain ⟨hai, hall⟩ := hfold rest i hrest
    rcases List.mem_cons.1 hv with rfl | hv
    · exact ⟨i, hi, hai⟩
    · exact hall v hv

theorem kind_of_interval? {i : Interval} (h : v.interval? = some i) : v.kind? = some i.kind := by
  cases v with
  | interval j => cases h; rfl
  | scalar s =>
    cases s <;> simp only [Value.interval?, Interval.point?, Option.some.injEq,
      reduceCtorEq] at h <;>
      subst h <;> rfl
  | _ => cases h

theorem kind_eq_of_contains {i j : Interval} (h : i.contains j = true) : i.kind = j.kind := by
  cases i <;> cases j <;> simp_all [Interval.contains, Interval.kind]

/-- The three ways a group is widened: it stays, it becomes one interval, or it becomes its kind. -/
theorem widenGroup_cases (k : Kind) (group previous : List Value) :
    widenGroup k group previous = group ∧ (group = [] ∨ group = previous) ∨
    (group ≠ [] ∧ group ≠ previous ∧ ∃ hull,
      (if group.any Value.isInterval then hull? group else none) = some hull ∧
      widenGroup k group previous = [.interval (((hull? previous).map hull.widen).getD hull)]) ∨
    (group ≠ [] ∧ group ≠ previous ∧
      (if group.any Value.isInterval then hull? group else none) = none ∧
      widenGroup k group previous = [.anyOf k]) := by
  unfold widenGroup
  by_cases hstay : group.isEmpty || group = previous
  · left
    rw [if_pos hstay]
    simpa using hstay
  · have hne : group ≠ [] ∧ group ≠ previous := by simpa using hstay
    rw [if_neg hstay]
    cases hh : (if group.any Value.isInterval then hull? group else none) with
    | some hull => exact .inr (.inl ⟨hne.1, hne.2, hull, rfl, rfl⟩)
    | none => exact .inr (.inr ⟨hne.1, hne.2, rfl, rfl⟩)

theorem hull?_of_if (h : (if group.any Value.isInterval then hull? group else none) = some hull) :
    hull? group = some hull := by
  split at h
  · exact h
  · cases h

/-- The interval that a group becomes covers its hull. -/
theorem getD_widen_contains (hull : Interval) (old : Option Interval) :
    ((old.map hull.widen).getD hull).contains hull = true := by
  cases old with
  | none => exact Interval.contains_refl hull
  | some i => exact Interval.widen_contains hull i

/-- A group widened against what it became before stays what it became. -/
theorem widenGroup_widenGroup (k : Kind) (group previous : List Value)
    (hg : ∀ v ∈ group, v.isSimplifiable = true) :
    widenGroup k group ((widenGroup k group previous).filter Value.isSimplifiable) =
      widenGroup k group previous := by
  rcases widenGroup_cases k group previous with ⟨heq, -⟩ | ⟨hne, -, hull, hh, heq⟩ |
    ⟨hne, -, hh, heq⟩
  · -- the group stayed, and it stays again
    rw [heq, List.filter_eq_self.2 hg]
    rcases widenGroup_cases k group group with ⟨h, -⟩ | ⟨-, h, -⟩ | ⟨-, h, -⟩
    · exact h
    · exact absurd rfl h
    · exact absurd rfl h
  · -- it became an interval that covers its hull, so no end moves any more
    rw [heq]
    have hcover := getD_widen_contains hull (hull? previous)
    generalize ((hull? previous).map hull.widen).getD hull = widened at hcover ⊢
    have hf : [Value.interval widened].filter Value.isSimplifiable = [.interval widened] := rfl
    have hwide : hull? [Value.interval widened] = some widened := rfl
    rw [hf]
    rcases widenGroup_cases k group [.interval widened] with
      ⟨h, hnil | hsame⟩ | ⟨-, -, hull', hh', h⟩ | ⟨-, -, hh', -⟩
    · exact absurd hnil hne
    · rw [h, hsame]
    · rw [hh] at hh'
      cases hh'
      rw [h, hwide]
      simp [Interval.widen_of_contains hcover]
    · rw [hh] at hh'
      cases hh'
  · -- it became its kind, which is no member of any group
    rw [heq]
    have hf : [Value.anyOf k].filter Value.isSimplifiable = [] := rfl
    rw [hf]
    rcases widenGroup_cases k group [] with ⟨-, hnil | hnil⟩ | ⟨-, -, hull', hh', -⟩ | ⟨-, -, -, h⟩
    · exact absurd hnil hne
    · exact absurd hnil hne
    · rw [hh] at hh'
      cases hh'
    · exact h

/-- The groups of an entry after widening, one after the other. -/
def widenedGroups (e previous : Entry) : List Value :=
  Kind.all.flatMap fun k => widenGroup k (e.group k) (previous.group k)

theorem mem_kindAll (k : Kind) : k ∈ Kind.all := by
  cases k <;> decide

theorem mem_widenedGroups :
    v ∈ e.widenedGroups previous ↔ ∃ k, v ∈ widenGroup k (e.group k) (previous.group k) := by
  simp [widenedGroups, mem_kindAll]

/-- What a widened group holds is of its kind, and it is empty where the group was. -/
theorem kind_of_mem_widenGroup {old : List Value} (h : v ∈ widenGroup k (e.group k) old) :
    v.kind? = some k ∧ ∃ w, w ∈ e.group k := by
  rcases widenGroup_cases k (e.group k) old with ⟨heq, -⟩ | ⟨hne, -, hull, hh, heq⟩ |
    ⟨hne, -, -, heq⟩
  · rw [heq] at h
    exact ⟨(mem_group.1 h).2.2, v, h⟩
  · obtain ⟨w, hw⟩ := List.exists_mem_of_ne_nil _ hne
    obtain ⟨i, hi, hcover⟩ := hull?_contains (hull?_of_if hh) hw
    have hk : hull.kind = k := by
      have hkw := (mem_group.1 hw).2.2
      rw [kind_of_interval? hi] at hkw
      exact (kind_eq_of_contains hcover).trans (Option.some.inj hkw)
    rw [heq, List.mem_singleton] at h
    refine ⟨?_, w, hw⟩
    rw [h, ← hk]
    cases hull? old <;> simp [Value.kind?, Interval.kind_widen]
  · rw [heq, List.mem_singleton] at h
    exact ⟨h ▸ rfl, List.exists_mem_of_ne_nil _ hne⟩

theorem absorbs_self_in_widenGroup {old : List Value}
    (hv : v ∈ widenGroup k (e.group k) old) (hw : w ∈ widenGroup k (e.group k) old) :
    v.absorbs w = false := by
  rcases widenGroup_cases k (e.group k) old with ⟨heq, -⟩ | ⟨-, -, hull, -, heq⟩ | ⟨-, -, -, heq⟩
  · rw [heq] at hv hw
    exact absorbs_eq_false_of_mem (mem_group.1 hv).1 (mem_group.1 hw).1
  all_goals
    rw [heq, List.mem_singleton] at hv hw
    rw [hv, hw]
    exact Value.absorbs_self _

theorem ne_any_of_mem_widenedGroups (h : v ∈ e.widenedGroups previous) : v ≠ .any := by
  obtain ⟨k, hvk⟩ := mem_widenedGroups.1 h
  have hkind := (kind_of_mem_widenGroup hvk).1
  rintro rfl
  cases hkind

theorem absurd_of_mem (hv : v ∈ e) (hw : w ∈ e) (h : v.absorbs w = true) : False := by
  rw [absorbs_eq_false_of_mem hv hw] at h
  cases h

/-- What the widened groups hold is not absorbed. -/
theorem not_absorbs_of_mem_widenedGroups
    (hv : v ∈ e.widenedGroups previous ∨ v ∈ e ∧ v.isSimplifiable = false)
    (hw : w ∈ e.widenedGroups previous) : v.absorbs w = false := by
  rw [Bool.eq_false_iff]
  intro ha
  -- some member of the entry is in the group that `w` is made from
  obtain ⟨k, hwk⟩ := mem_widenedGroups.1 hw
  obtain ⟨hkind, g, hg⟩ := kind_of_mem_widenGroup hwk
  obtain ⟨hge, hgs, hgk⟩ := mem_group.1 hg
  by_cases hany : v = .any
  · subst hany
    rcases hv with hv | ⟨hv, -⟩
    · exact ne_any_of_mem_widenedGroups hv rfl
    · exact absurd_of_mem hv hge (Value.any_absorbs hgs)
  · have hvk : v.kind? = some k := (Value.kind_eq_of_absorbs hany ha).symm.trans hkind
    rcases hv with hv | ⟨hv, hvs⟩
    · obtain ⟨k', hvk'⟩ := mem_widenedGroups.1 hv
      have hkk : k' = k := Option.some.inj ((kind_of_mem_widenGroup hvk').1.symm.trans hvk)
      subst hkk
      simp [absorbs_self_in_widenGroup hvk' hwk] at ha
    · have hkindOf := Value.eq_anyOf_of_absorbs hvs hvk ha
      subst hkindOf
      exact absurd_of_mem hv hge (Value.anyOf_absorbs hgs hgk)

/-- What is kept beside the widened groups is not absorbed. -/
theorem not_absorbs_of_kept
    (hv : v ∈ e.widenedGroups previous ∨ v ∈ e ∧ v.isSimplifiable = false)
    (hw : w ∈ e) (hws : w.isSimplifiable = false) : v.absorbs w = false := by
  rw [Bool.eq_false_iff]
  intro ha
  -- of all that is neither scalar nor interval only a kind is ever absorbed
  by_cases hanyOf : ∃ k, w = .anyOf k
  · obtain ⟨k, rfl⟩ := hanyOf
    have hany := Value.eq_any_of_absorbs_anyOf ha
    subst hany
    rcases hv with hv | ⟨hv, -⟩
    · exact ne_any_of_mem_widenedGroups hv rfl
    · exact absurd_of_mem hv hw ha
  · have hsimple := Value.isSimplifiable_of_absorbed ha fun k hk => hanyOf ⟨k, hk⟩
    rw [hws] at hsimple
    cases hsimple

/-- Neither the widened groups nor what is kept beside them absorb one another. -/
theorem widened_irredundant (e previous : Entry) (v w : Value)
    (hv : v ∈ e.widenedGroups previous ∨ v ∈ e.filter fun v => !v.isSimplifiable)
    (hw : w ∈ e.widenedGroups previous ∨ w ∈ e.filter fun v => !v.isSimplifiable) :
    v.absorbs w = false := by
  simp only [mem_filter, Bool.not_eq_true'] at hv hw
  rcases hw with hw | ⟨hw, hws⟩
  · exact not_absorbs_of_mem_widenedGroups hv hw
  · exact not_absorbs_of_kept hv hw hws

theorem mem_widen : v ∈ e.widen previous ↔
    v ∈ e.widenedGroups previous ∨ v ∈ e ∧ v.isSimplifiable = false := by
  have h := mem_foldl_insert_of_irredundant (widened_irredundant e previous) (v := v)
  rw [mem_filter, Bool.not_eq_true'] at h
  exact h

theorem mem_group_widen : v ∈ (e.widen previous).group k ↔
    v ∈ widenGroup k (e.group k) (previous.group k) ∧ v.isSimplifiable = true := by
  rw [mem_group, mem_widen]
  constructor
  · rintro ⟨hv | ⟨-, hns⟩, hs, hk⟩
    · obtain ⟨k', hvk⟩ := mem_widenedGroups.1 hv
      have hkk : k' = k := Option.some.inj ((kind_of_mem_widenGroup hvk).1.symm.trans hk)
      exact ⟨hkk ▸ hvk, hs⟩
    · rw [hs] at hns
      cases hns
  · rintro ⟨hv, hs⟩
    exact ⟨.inl (mem_widenedGroups.2 ⟨k, hv⟩), hs, (kind_of_mem_widenGroup hv).1⟩

/-- The groups of a widened entry are the widened groups, kinds left out. -/
theorem group_widen (e previous : Entry) (k : Kind) :
    (e.widen previous).group k =
      (widenGroup k (e.group k) (previous.group k)).filter Value.isSimplifiable := by
  have hmem (v : Value) : v ∈ (e.widen previous).group k ↔
      v ∈ widenGroup k (e.group k) (previous.group k) ∧ v.isSimplifiable = true := mem_group_widen
  have hsimple : ∀ v ∈ e.group k, v.isSimplifiable = true := fun v hv => (mem_group.1 hv).2.1
  rcases widenGroup_cases k (e.group k) (previous.group k) with
    ⟨heq, -⟩ | ⟨-, -, hull, -, heq⟩ | ⟨-, -, -, heq⟩
  · rw [heq] at hmem ⊢
    -- a group that stayed has the same members, and it is listed in order
    rw [List.filter_eq_self.2 hsimple]
    have hsame : (e.widen previous).filter (fun v => v.isSimplifiable && v.kind? = some k) =
        e.filter fun v => v.isSimplifiable && v.kind? = some k := by
      apply ext_mem
      intro v
      rw [← mem_toList, ← mem_toList, ← group_eq_toList, ← group_eq_toList, hmem]
      exact and_iff_left_of_imp (hsimple v)
    rw [group_eq_toList, group_eq_toList, hsame]
  · rw [heq] at hmem ⊢
    rw [group_eq_toList]
    apply toList_eq_singleton
    intro w
    rw [← mem_toList, ← group_eq_toList, hmem, List.mem_singleton]
    exact and_iff_left_of_imp fun h => h ▸ rfl
  · -- a kind is no member of any group
    rw [heq] at hmem ⊢
    apply List.eq_nil_iff_forall_not_mem.2
    intro w hw
    obtain ⟨hw, hs⟩ := (hmem w).1 hw
    rw [List.mem_singleton.1 hw] at hs
    cases hs

/-- Widening the same entry again, against the widened one, changes nothing. -/
theorem widen_widen (e previous : Entry) : e.widen (e.widen previous) = e.widen previous := by
  have hgroups : e.widenedGroups (e.widen previous) = e.widenedGroups previous := by
    unfold widenedGroups
    congr 1
    funext k
    rw [group_widen]
    exact widenGroup_widenGroup k _ _ fun v hv => (mem_group.1 hv).2.1
  change (e.widenedGroups (e.widen previous)).foldl insert _ = _
  rw [hgroups]
  rfl

/-- Widening keeps what no value absorbs and what is neither scalar nor interval. -/
theorem mem_widen_of_mem (h : v ∈ e) (hs : v.isSimplifiable = false) : v ∈ e.widen previous :=
  mem_widen.2 (.inr ⟨h, hs⟩)

/-- What widening adds are intervals and kinds. -/
theorem mem_of_mem_widen (h : v ∈ e.widen previous) (hi : v.isInterval = false)
    (hk : ∀ k, v ≠ .anyOf k) : v ∈ e := by
  rcases mem_widen.1 h with hg | ⟨he, -⟩
  · obtain ⟨k, hvk⟩ := mem_widenedGroups.1 hg
    rcases widenGroup_cases k (e.group k) (previous.group k) with
      ⟨heq, -⟩ | ⟨-, -, hull, -, heq⟩ | ⟨-, -, -, heq⟩
    · rw [heq] at hvk
      exact (mem_group.1 hvk).1
    · rw [heq, List.mem_singleton] at hvk
      subst hvk
      cases hi
    · rw [heq, List.mem_singleton] at hvk
      exact absurd hvk (hk k)
  · exact he

end Entry
end ScriptMemory
