import Mathlib.Algebra.Order.BigOperators.Group.List
import Mathlib.Algebra.Order.Ring.Nat
import ScriptMemory.Proofs.Absorption
import ScriptMemory.Proofs.Memory.Draft

/-! Entries without names. A location holds an array, and an object that a write has made, under a
name of its own, so two locations with the same values hold them under different names. Leaving the
names out changes nothing of how values absorb one another, and so it goes along with every
operation on entries. -/
namespace ScriptMemory
open Std

namespace ObjectValue
variable {i : Index}

/-- The object is named like one that a write has made at a variable. -/
def isMade (o : ObjectValue) : Bool :=
  o.className = ({} : ObjectDescriptor).className && o.id.toList.head? = some '$'

/-- What all objects that writes have made look like without their names. -/
def unnamed : ObjectValue :=
  { id := "$", className := ({} : ObjectDescriptor).className }

theorem isMade_madeAt (name : String) (table : Table) :
    (madeAt (.ofVariable name table)).isMade = true := by
  cases table <;>
    simp [isMade, madeAt, Index.ofVariable, Index.text, Root.text, String.toList_append]

theorem isMade_unnamed : unnamed.isMade = true := by
  decide

end ObjectValue

namespace Value
variable {v w : Value}

/-- The value without the name of the location that it belongs to. -/
def anonymous : Value → Value
  | .array _ => .array .freshArray
  | .object o => .object (if o.isMade then .unnamed else o)
  | v => v

theorem anonymous_object (o : ObjectValue) :
    (object o).anonymous = .object (if o.isMade then .unnamed else o) :=
  rfl

/-- A value that is no array has no name, unless a write has made it. -/
theorem anonymous_eq_self (ha : v.arrayOwner? = none) (hv : v.anonymous ≠ .object .unnamed) :
    v.anonymous = v := by
  cases v with
  | array i => cases ha
  | object o =>
    rw [anonymous_object] at hv ⊢
    cases hm : o.isMade with
    | true =>
      rw [hm] at hv
      exact absurd rfl hv
    | false => rfl
  | _ => rfl

theorem isSimplifiable_anonymous (v : Value) : v.anonymous.isSimplifiable = v.isSimplifiable := by
  cases v <;> rfl

theorem anonymous_of_isSimplifiable (h : v.isSimplifiable = true) : v.anonymous = v := by
  cases v with
  | scalar s => rfl
  | interval i => rfl
  | _ => cases h

theorem kind?_anonymous (v : Value) : v.anonymous.kind? = v.kind? := by
  cases v <;> rfl

theorem isNone_arrayOwner?_anonymous (v : Value) :
    v.anonymous.arrayOwner?.isNone = v.arrayOwner?.isNone := by
  cases v <;> rfl

/-- Arrays and objects neither absorb nor are absorbed, under whatever name. -/
theorem absorbs_anonymous (v w : Value) : v.anonymous.absorbs w.anonymous = v.absorbs w := by
  cases v <;> cases w <;> rfl

theorem foldToKind_anonymous (v : Value) :
    Entry.foldToKind v.anonymous = (Entry.foldToKind v).anonymous := by
  cases hs : v.isSimplifiable with
  | true =>
    obtain ⟨k, -, hk⟩ := Entry.foldToKind_of_isSimplifiable hs
    rw [anonymous_of_isSimplifiable hs, hk]
    rfl
  | false =>
    have hs' : v.anonymous.isSimplifiable = false := (isSimplifiable_anonymous v).trans hs
    rw [Entry.foldToKind_of_not_isSimplifiable hs, Entry.foldToKind_of_not_isSimplifiable hs']

theorem arrayOwner?_anonymous (h : v.anonymous.arrayOwner? = none) : v.arrayOwner? = none := by
  rw [← Option.isNone_iff_eq_none, isNone_arrayOwner?_anonymous, Option.isNone_iff_eq_none] at h
  exact h

end Value

namespace Entry
variable {e f previous : Entry} {v w : Value} {l : List Value} {p : Value → Bool} {limit : Nat}

/-- Insertions in another order, or of a value more than once, come to the same. -/
theorem foldl_insert_congr {l' : List Value} (h : ∀ v, v ∈ l ↔ v ∈ l') (e : Entry) :
    l.foldl insert e = l'.foldl insert e := by
  apply ext_covers
  intro v
  rw [covers_foldl_insert, covers_foldl_insert]
  simp only [h]

/-- The values of an entry without the names of the locations that they belong to. -/
def anonymous (e : Entry) : Entry :=
  .ofList (e.toList.map Value.anonymous)

theorem mem_anonymous : w ∈ e.anonymous ↔ ∃ v ∈ e, v.anonymous = w := by
  have hmem (v : Value) : v ∈ e.toList.map Value.anonymous ∨ v ∈ (∅ : Entry) ↔
      ∃ u ∈ e, u.anonymous = v := by
    rw [or_iff_left not_mem_empty, List.mem_map]
    simp only [mem_toList]
  unfold anonymous ofList
  rw [mem_foldl_insert_of_irredundant, hmem]
  intro v w hv hw
  obtain ⟨x, hx, rfl⟩ := (hmem v).1 hv
  obtain ⟨y, hy, rfl⟩ := (hmem w).1 hw
  rw [Value.absorbs_anonymous]
  exact absorbs_eq_false_of_mem hx hy

theorem absorbs_anonymous (e : Entry) (v : Value) :
    e.anonymous.absorbs v.anonymous = e.absorbs v := by
  rw [Bool.eq_iff_iff, absorbs_eq_true, absorbs_eq_true]
  constructor
  · rintro ⟨w, hw, h⟩
    obtain ⟨u, hu, rfl⟩ := mem_anonymous.1 hw
    exact ⟨u, hu, Value.absorbs_anonymous u v ▸ h⟩
  · rintro ⟨w, hw, h⟩
    exact ⟨w.anonymous, mem_anonymous.2 ⟨w, hw, rfl⟩, (Value.absorbs_anonymous w v).trans h⟩

theorem anonymous_empty : (∅ : Entry).anonymous = ∅ := by
  apply ext_mem
  intro v
  refine iff_of_false ?_ not_mem_empty
  intro h
  obtain ⟨w, hw, -⟩ := mem_anonymous.1 h
  exact not_mem_empty hw

theorem anonymous_insert (e : Entry) (v : Value) :
    (e.insert v).anonymous = e.anonymous.insert v.anonymous := by
  have ha := absorbs_anonymous e v
  cases h : e.absorbs v with
  | true => rw [insert_of_absorbs h, insert_of_absorbs (ha.trans h)]
  | false =>
    apply ext_mem
    intro w
    rw [mem_anonymous, mem_insert_of_not_absorbs (ha.trans h), mem_anonymous]
    constructor
    · rintro ⟨u, hu, rfl⟩
      apply ((mem_insert_of_not_absorbs h).1 hu).imp (congrArg Value.anonymous)
      rintro ⟨hu, hvu⟩
      exact ⟨⟨u, hu, rfl⟩, (Value.absorbs_anonymous v u).trans hvu⟩
    · rintro (rfl | ⟨⟨u, hu, rfl⟩, hvu⟩)
      · exact ⟨v, (mem_insert_of_not_absorbs h).2 (.inl rfl), rfl⟩
      · rw [Value.absorbs_anonymous] at hvu
        exact ⟨u, (mem_insert_of_not_absorbs h).2 (.inr ⟨hu, hvu⟩), rfl⟩

theorem anonymous_ofValue (v : Value) : (ofValue v).anonymous = .ofValue v.anonymous := by
  unfold ofValue
  rw [anonymous_insert, anonymous_empty]

theorem anonymous_foldl_insert (l : List Value) (e : Entry) :
    (l.foldl insert e).anonymous = (l.map Value.anonymous).foldl insert e.anonymous := by
  induction l generalizing e with
  | nil => rfl
  | cons v l ih => rw [List.foldl_cons, ih, anonymous_insert, List.map_cons, List.foldl_cons]

/-- The values without their names, in the order of the names or in their own. -/
theorem foldl_insert_toList_anonymous (e f : Entry) (g : Value → Value) :
    ((e.toList.map Value.anonymous).map g).foldl insert f =
      (e.anonymous.toList.map g).foldl insert f := by
  apply foldl_insert_congr
  intro w
  simp only [List.mem_map, mem_toList, mem_anonymous]

theorem anonymous_join (e f : Entry) : (e.join f).anonymous = e.anonymous.join f.anonymous := by
  have hvalues := foldl_insert_toList_anonymous f e.anonymous id
  rw [List.map_id, List.map_id] at hvalues
  exact (anonymous_foldl_insert f.toList e).trans hvalues

theorem anonymous_foldl_join (l : List Entry) (e : Entry) :
    (l.foldl join e).anonymous = (l.map anonymous).foldl join e.anonymous := by
  induction l generalizing e with
  | nil => rfl
  | cons f l ih => rw [List.foldl_cons, ih, anonymous_join, List.map_cons, List.foldl_cons]

theorem anonymous_filter (hp : ∀ v : Value, p v.anonymous = p v) (e : Entry) :
    (e.filter p).anonymous = e.anonymous.filter p := by
  apply ext_mem
  intro w
  rw [mem_anonymous, mem_filter, mem_anonymous]
  constructor
  · rintro ⟨v, hv, rfl⟩
    obtain ⟨hv, hpv⟩ := mem_filter.1 hv
    exact ⟨⟨v, hv, rfl⟩, (hp v).trans hpv⟩
  · rintro ⟨⟨v, hv, rfl⟩, hpv⟩
    exact ⟨v, mem_filter.2 ⟨hv, (hp v).symm.trans hpv⟩, rfl⟩

/-- Values that have no name stay as they are. -/
theorem filter_anonymous (hp : ∀ v : Value, p v.anonymous = p v)
    (hfixed : ∀ v, p v = true → v.anonymous = v) (e : Entry) :
    e.anonymous.filter p = e.filter p := by
  rw [← anonymous_filter hp]
  apply ext_mem
  intro w
  rw [mem_anonymous]
  constructor
  · rintro ⟨v, hv, rfl⟩
    rwa [hfixed v (mem_filter.1 hv).2]
  · exact fun hw => ⟨w, hw, hfixed w (mem_filter.1 hw).2⟩

/-- An array without its name is the fresh one. -/
theorem eq_freshArray_of_mem_anonymous (h : v ∈ e.anonymous) (ha : v.arrayOwner? ≠ none) :
    v = .array .freshArray := by
  obtain ⟨w, -, rfl⟩ := mem_anonymous.1 h
  cases w with
  | array i => rfl
  | _ => exact absurd rfl ha

theorem array_mem_anonymous : .array .freshArray ∈ e.anonymous ↔ ∃ i, .array i ∈ e := by
  rw [mem_anonymous]
  constructor
  · rintro ⟨v, hv, ha⟩
    cases v with
    | array i => exact ⟨i, hv⟩
    | _ => cases ha
  · rintro ⟨i, hi⟩
    exact ⟨_, hi, rfl⟩

/-- Whatever a write has made looks alike. -/
theorem unnamed_mem_anonymous : .object .unnamed ∈ e.anonymous ↔
    ∃ o, o.isMade = true ∧ .object o ∈ e := by
  rw [mem_anonymous]
  constructor
  · rintro ⟨v, hv, ha⟩
    cases v with
    | object o =>
      refine ⟨o, ?_, hv⟩
      rw [Value.anonymous_object] at ha
      cases hm : o.isMade with
      | true => rfl
      | false =>
        rw [hm] at ha
        cases ha
        exact hm.symm.trans ObjectValue.isMade_unnamed
    | _ => cases ha
  · rintro ⟨o, hm, ho⟩
    refine ⟨_, ho, ?_⟩
    rw [Value.anonymous_object, hm]
    rfl

theorem objects_eq_nil_iff : e.objects = [] ↔ ∀ o, .object o ∉ e := by
  unfold objects
  rw [List.filterMap_eq_nil_iff]
  simp only [mem_toList]
  constructor
  · intro h o ho
    cases h _ ho
  · intro h v hv
    cases v with
    | object o => exact absurd hv (h o)
    | _ => rfl

theorem objects_anonymous_eq_nil : e.anonymous.objects = [] ↔ e.objects = [] := by
  rw [objects_eq_nil_iff, objects_eq_nil_iff]
  constructor
  · exact fun h o ho => h _ (mem_anonymous.2 ⟨_, ho, rfl⟩)
  · intro h o ho
    obtain ⟨v, hv, heq⟩ := mem_anonymous.1 ho
    cases v with
    | object o' => exact h o' hv
    | _ => cases heq

theorem group_anonymous (e : Entry) (k : Kind) : e.anonymous.group k = e.group k := by
  rw [group_eq_toList, group_eq_toList, filter_anonymous]
  · intro v
    rw [Value.isSimplifiable_anonymous, Value.kind?_anonymous]
  · exact fun v hv => Value.anonymous_of_isSimplifiable (Bool.and_eq_true_iff.1 hv).1

theorem simplifiableCount_eq_length (e : Entry) :
    e.simplifiableCount = (e.filter Value.isSimplifiable).toList.length := by
  unfold simplifiableCount
  rw [List.countP_eq_length_filter]
  exact congrArg List.length ExtTreeSet.toList_filter.symm

theorem simplifiableCount_anonymous (e : Entry) :
    e.anonymous.simplifiableCount = e.simplifiableCount := by
  rw [simplifiableCount_eq_length, simplifiableCount_eq_length,
    filter_anonymous Value.isSimplifiable_anonymous fun _ => Value.anonymous_of_isSimplifiable]

theorem simplify?_eq (e : Entry) (limit : Nat) : e.simplify? limit =
    if e.simplifiableCount ≤ limit then none else some (.ofList (e.toList.map foldToKind)) :=
  rfl

theorem simplify?_anonymous (e : Entry) (limit : Nat) :
    e.anonymous.simplify? limit = (e.simplify? limit).map anonymous := by
  have hfold : (ofList (e.toList.map foldToKind)).anonymous =
      .ofList (e.anonymous.toList.map foldToKind) := by
    have hswap : (e.toList.map foldToKind).map Value.anonymous =
        (e.toList.map Value.anonymous).map foldToKind := by
      rw [List.map_map, List.map_map]
      apply List.map_congr_left
      exact fun v _ => (Value.foldToKind_anonymous v).symm
    have hinserted : (ofList (e.toList.map foldToKind)).anonymous =
        ((e.toList.map foldToKind).map Value.anonymous).foldl insert (∅ : Entry).anonymous :=
      anonymous_foldl_insert _ _
    rw [hinserted, anonymous_empty, hswap, foldl_insert_toList_anonymous]
    rfl
  rw [simplify?_eq, simplify?_eq, simplifiableCount_anonymous]
  split
  · rfl
  · rw [Option.map_some, hfold]

/-- Widening against the same entry changes nothing. -/
theorem widen_self (e : Entry) : e.widen e = e := by
  have hsame (k : Kind) : widenGroup k (e.group k) (e.group k) = e.group k := by
    rcases widenGroup_cases k (e.group k) (e.group k) with ⟨h, -⟩ | ⟨-, h, -⟩ | ⟨-, h, -⟩
    · exact h
    · exact absurd rfl h
    · exact absurd rfl h
  apply ext_mem
  intro v
  rw [mem_widen, mem_widenedGroups]
  simp only [hsame, mem_group]
  constructor
  · rintro (⟨-, hv, -⟩ | ⟨hv, -⟩)
    · exact hv
    · exact hv
  · intro hv
    cases hs : v.isSimplifiable with
    | false => exact .inr ⟨hv, rfl⟩
    | true =>
      obtain ⟨k, hk, -⟩ := foldToKind_of_isSimplifiable hs
      exact .inl ⟨k, hv, rfl, hk⟩

/-- What a group is widened to has no name. -/
theorem anonymous_of_mem_widenedGroups (h : v ∈ e.widenedGroups previous) : v.anonymous = v := by
  obtain ⟨k, hv⟩ := mem_widenedGroups.1 h
  rcases widenGroup_cases k (e.group k) (previous.group k) with
    ⟨heq, -⟩ | ⟨-, -, hull, -, heq⟩ | ⟨-, -, -, heq⟩
  · rw [heq] at hv
    exact Value.anonymous_of_isSimplifiable (mem_group.1 hv).2.1
  · rw [heq, List.mem_singleton] at hv
    rw [hv]
    rfl
  · rw [heq, List.mem_singleton] at hv
    rw [hv]
    rfl

theorem anonymous_widen (e previous : Entry) :
    (e.widen previous).anonymous = e.anonymous.widen previous.anonymous := by
  have hgroups : e.anonymous.widenedGroups previous.anonymous = e.widenedGroups previous := by
    unfold widenedGroups
    simp only [group_anonymous]
  have hnames : (e.widenedGroups previous).map Value.anonymous = e.widenedGroups previous :=
    (List.map_congr_left fun v hv => anonymous_of_mem_widenedGroups hv).trans (List.map_id _)
  have hkept : (e.filter fun v => !v.isSimplifiable).anonymous =
      e.anonymous.filter fun v => !v.isSimplifiable :=
    anonymous_filter (fun v => by rw [Value.isSimplifiable_anonymous]) e
  change ((e.widenedGroups previous).foldl insert _).anonymous =
    (e.anonymous.widenedGroups previous.anonymous).foldl insert _
  rw [anonymous_foldl_insert, hnames, hkept, hgroups]

/-- The values that may be simplified are those of the groups together. -/
theorem simplifiableCount_eq_sum (e : Entry) :
    e.simplifiableCount = (Kind.all.map fun k => (e.group k).length).sum := by
  unfold simplifiableCount group
  induction e.toList with
  | nil => rfl
  | cons v l ih =>
    cases hs : v.isSimplifiable with
    | false =>
      rw [List.countP_cons_of_neg (by rw [hs]; exact Bool.false_ne_true), ih]
      simp only [List.filter_cons, hs, Bool.false_and, Bool.false_eq_true, if_false]
    | true =>
      obtain ⟨k, hk, -⟩ := foldToKind_of_isSimplifiable hs
      rw [List.countP_cons_of_pos hs, ih]
      simp only [List.filter_cons, hs, hk, Bool.true_and]
      cases k <;> simp only [Kind.all, List.map_cons, List.map_nil, List.sum_cons, List.sum_nil,
        Nat.add_zero, Option.some.injEq, decide_eq_true_eq, reduceCtorEq, if_true, if_false,
        List.length_cons] <;> omega

/-- Widening adds no value that may be simplified. -/
theorem simplifiableCount_widen (e previous : Entry) :
    (e.widen previous).simplifiableCount ≤ e.simplifiableCount := by
  rw [simplifiableCount_eq_sum, simplifiableCount_eq_sum]
  apply List.sum_le_sum
  intro k _
  rw [group_widen]
  refine Nat.le_trans (List.length_filter_le _ _) ?_
  rcases widenGroup_cases k (e.group k) (previous.group k) with
    ⟨heq, -⟩ | ⟨hne, -, hull, -, heq⟩ | ⟨hne, -, -, heq⟩
  · rw [heq]
  all_goals
    rw [heq]
    exact List.length_pos_of_ne_nil hne

end Entry
end ScriptMemory
