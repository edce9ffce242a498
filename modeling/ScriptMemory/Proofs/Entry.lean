import Mathlib.Tactic.Tauto
import ScriptMemory.Entry

/-! Membership in entries. An insertion drops a value only for a value that absorbs it, so what no
value absorbs, such as a finding, is kept by every operation. -/
namespace ScriptMemory
open Std

namespace OrdSet
variable {α : Type} [Ord α] [TransOrd α] [LawfulEqOrd α] {s : OrdSet α} {a : α}

theorem toList_eq_singleton (h : ∀ b, b ∈ s ↔ b = a) : s.toList = [a] := by
  have hd : s.toList.Pairwise (fun a b => ¬compare a b = .eq) := ExtTreeSet.distinct_toList
  have hall : ∀ b ∈ s.toList, b = a := fun b hb => (h b).1 (ExtTreeSet.mem_toList.1 hb)
  have ha : a ∈ s.toList := ExtTreeSet.mem_toList.2 ((h a).2 rfl)
  -- two members of the list would both be `a`, but the list has no element twice
  match hl : s.toList with
  | [] => simp [hl] at ha
  | [b] => rw [hall b (by simp [hl])]
  | b :: c :: rest =>
    rw [hl] at hd
    have hbc : b = c := (hall b (by simp [hl])).trans (hall c (by simp [hl])).symm
    have hne : ¬compare b c = .eq := List.rel_of_pairwise_cons hd List.mem_cons_self
    exact absurd (LawfulEqCmp.compare_eq_iff_eq.2 hbc) hne

end OrdSet

namespace Value
variable {v w : Value}

/-- No value absorbs `v`, so that an entry that gained `v` keeps it. -/
def IsSolid (v : Value) : Prop :=
  ∀ w : Value, w.absorbs v = false

theorem info_isSolid (f : Finding) : (info f).IsSolid := by
  intro w
  cases w <;> rfl

theorem isSimplifiable_of_absorbed (h : v.absorbs w = true) (hk : ∀ k, w ≠ anyOf k) :
    w.isSimplifiable = true := by
  cases v <;> cases w <;> simp_all [absorbs, isSimplifiable]

/-- Only the value for everything absorbs a kind. -/
theorem eq_any_of_absorbs_anyOf {k : Kind} (h : v.absorbs (anyOf k) = true) : v = any := by
  cases v <;> simp_all [absorbs]

/-- What a value that is no scalar or interval of its own absorbs is of one kind with it. -/
theorem kind_eq_of_absorbs (hv : v ≠ any) (h : v.absorbs w = true) : w.kind? = v.kind? := by
  cases v <;> cases w <;> simp_all [absorbs, kind?]
  case interval.scalar i s =>
    cases i <;> cases s <;> simp_all [Interval.containsScalar, Interval.point?, Interval.contains,
      Interval.kind, Scalar.kind]
  case interval.interval i j =>
    cases i <;> cases j <;> simp_all [Interval.contains, Interval.kind]

end Value

namespace Entry
variable {e f : Entry} {v w : Value}

instance : Membership Value Entry := ⟨fun e v => v ∈ e.values⟩

theorem mem_values : v ∈ e.values ↔ v ∈ e :=
  Iff.rfl

@[simp]
theorem contains_eq_true : e.contains v = true ↔ v ∈ e :=
  ExtTreeSet.contains_iff_mem

@[simp]
theorem mem_toList : v ∈ e.toList ↔ v ∈ e :=
  ExtTreeSet.mem_toList

theorem ext_mem (h : ∀ v, v ∈ e ↔ v ∈ f) : e = f :=
  ext (ExtTreeSet.ext_mem h)

theorem mem_arrays {i : Index} : i ∈ e.arrays ↔ .array i ∈ e := by
  unfold arrays
  rw [List.mem_filterMap]
  simp only [mem_toList]
  constructor
  · rintro ⟨v, hv, hi⟩
    cases v with
    | array j => exact Option.some.inj hi ▸ hv
    | _ => cases hi
  · exact fun h => ⟨_, h, rfl⟩

theorem not_mem_empty : v ∉ (∅ : Entry) :=
  ExtTreeSet.not_mem_empty

theorem absorbs_eq_true : e.absorbs v = true ↔ ∃ w ∈ e, w.absorbs v = true := by
  simp [absorbs, List.any_eq_true]

/-- A member absorbs no other member. -/
theorem absorbs_eq_false_of_mem (hv : v ∈ e) (hw : w ∈ e) : v.absorbs w = false :=
  e.irredundant v hv w hw

theorem not_absorbs_of_isSolid (h : v.IsSolid) : e.absorbs v = false := by
  rw [Bool.eq_false_iff]
  intro ha
  obtain ⟨w, -, hw⟩ := absorbs_eq_true.1 ha
  simp [h w] at hw

theorem insert_of_absorbs (h : e.absorbs v = true) : e.insert v = e := by
  simp [insert, h]

theorem mem_insert_of_not_absorbs (h : e.absorbs v = false) :
    w ∈ e.insert v ↔ w = v ∨ w ∈ e ∧ v.absorbs w = false := by
  have hn : ¬e.absorbs v = true := by simp [h]
  unfold insert
  rw [dif_neg hn]
  change w ∈ (e.values.filter fun w => !v.absorbs w).insert v ↔ _
  rw [OrdSet.mem_insert, OrdSet.mem_filter, mem_values]
  simp

/-- An insertion adds nothing but the value inserted. -/
theorem eq_or_mem_of_mem_insert (h : w ∈ e.insert v) : w = v ∨ w ∈ e := by
  cases ha : e.absorbs v with
  | true => exact .inr (insert_of_absorbs ha ▸ h)
  | false => exact ((mem_insert_of_not_absorbs ha).1 h).imp_right And.left

theorem mem_insert_of_mem (h : w ∈ e) (ha : v.absorbs w = false) : w ∈ e.insert v := by
  cases hv : e.absorbs v with
  | true => rwa [insert_of_absorbs hv]
  | false => exact (mem_insert_of_not_absorbs hv).2 (.inr ⟨h, ha⟩)

/-- After an insertion the value is a member, or a member absorbs it. -/
theorem mem_or_absorbs_insert : v ∈ e.insert v ∨ ∃ w ∈ e.insert v, w.absorbs v = true := by
  cases hv : e.absorbs v with
  | true =>
    rw [insert_of_absorbs hv]
    exact .inr (absorbs_eq_true.1 hv)
  | false => exact .inl ((mem_insert_of_not_absorbs hv).2 (.inl rfl))

theorem mem_insert_iff_of_isSolid (h : w.IsSolid) : w ∈ e.insert v ↔ w = v ∨ w ∈ e := by
  constructor
  · exact eq_or_mem_of_mem_insert
  · rintro (rfl | hw)
    · exact (mem_insert_of_not_absorbs (not_absorbs_of_isSolid h)).2 (.inl rfl)
    · exact mem_insert_of_mem hw (h v)

theorem mem_or_mem_of_mem_foldl_insert {l : List Value} (h : v ∈ l.foldl insert e) :
    v ∈ l ∨ v ∈ e := by
  induction l generalizing e with
  | nil => exact .inr h
  | cons a l ih =>
    rcases ih h with hl | he
    · exact .inl (List.mem_cons_of_mem a hl)
    · rcases eq_or_mem_of_mem_insert he with rfl | he
      · exact .inl List.mem_cons_self
      · exact .inr he

theorem mem_foldl_insert_iff_of_isSolid {l : List Value} (h : v.IsSolid) :
    v ∈ l.foldl insert e ↔ v ∈ l ∨ v ∈ e := by
  induction l generalizing e with
  | nil => simp
  | cons a l ih =>
    rw [List.foldl_cons, ih, mem_insert_iff_of_isSolid h, List.mem_cons]
    tauto

/-- Where no two of the values absorb one another, inserting them is forming the union. -/
theorem mem_foldl_insert_of_irredundant {l : List Value}
    (h : ∀ v w, v ∈ l ∨ v ∈ e → w ∈ l ∨ w ∈ e → v.absorbs w = false) :
    v ∈ l.foldl insert e ↔ v ∈ l ∨ v ∈ e := by
  induction l generalizing e with
  | nil => simp
  | cons a l ih =>
    have ha : e.absorbs a = false := by
      rw [Bool.eq_false_iff]
      intro hc
      obtain ⟨w, hw, hwa⟩ := absorbs_eq_true.1 hc
      simp [h w a (.inr hw) (.inl List.mem_cons_self)] at hwa
    -- nothing absorbs `a`, and `a` absorbs nothing, so it is simply added
    have hmem : ∀ w, w ∈ e.insert a ↔ w = a ∨ w ∈ e := by
      intro w
      rw [mem_insert_of_not_absorbs ha]
      constructor
      · exact fun hw => hw.imp_right And.left
      · exact fun hw => hw.imp_right fun he =>
          ⟨he, h a w (.inl List.mem_cons_self) (.inr he)⟩
    have hall : ∀ w, w ∈ l ∨ w ∈ e.insert a → w ∈ a :: l ∨ w ∈ e := by
      intro w hw
      rw [hmem] at hw
      rw [List.mem_cons]
      tauto
    rw [List.foldl_cons, ih fun v w hv hw => h v w (hall v hv) (hall w hw), hmem, List.mem_cons]
    tauto

theorem mem_or_mem_of_mem_join (h : v ∈ e.join f) : v ∈ e ∨ v ∈ f :=
  (mem_or_mem_of_mem_foldl_insert h).symm.imp_right mem_toList.1

theorem mem_join_iff_of_isSolid (h : v.IsSolid) : v ∈ e.join f ↔ v ∈ e ∨ v ∈ f := by
  rw [join, mem_foldl_insert_iff_of_isSolid h, mem_toList, or_comm]

/-- A value of the joined entries comes from one of them. -/
theorem exists_mem_of_mem_foldl_join {l : List Entry} (h : v ∈ l.foldl join e) :
    v ∈ e ∨ ∃ f ∈ l, v ∈ f := by
  induction l generalizing e with
  | nil => exact .inl h
  | cons a l ih =>
    rcases ih h with he | ⟨f, hf, hv⟩
    · rcases mem_or_mem_of_mem_join he with he | ha
      · exact .inl he
      · exact .inr ⟨a, List.mem_cons_self, ha⟩
    · exact .inr ⟨f, List.mem_cons_of_mem a hf, hv⟩

theorem mem_foldl_join_iff_of_isSolid {l : List Entry} (h : v.IsSolid) :
    v ∈ l.foldl join e ↔ v ∈ e ∨ ∃ f ∈ l, v ∈ f := by
  induction l generalizing e with
  | nil => simp
  | cons a l ih =>
    rw [List.foldl_cons, ih, mem_join_iff_of_isSolid h]
    simp only [List.mem_cons, exists_eq_or_imp, or_assoc]

@[simp]
theorem mem_filter {p : Value → Bool} : v ∈ e.filter p ↔ v ∈ e ∧ p v = true :=
  OrdSet.mem_filter

@[simp]
theorem mem_erase : v ∈ e.erase w ↔ v ≠ w ∧ v ∈ e :=
  OrdSet.mem_erase

/-- A value folded into its kind if it is a scalar or an interval. -/
def foldToKind (v : Value) : Value :=
  match v.kind? with
  | some k => if v.isSimplifiable then .anyOf k else v
  | none => v

theorem foldToKind_of_not_isSimplifiable (h : v.isSimplifiable = false) : foldToKind v = v := by
  unfold foldToKind
  cases v.kind? <;> simp [h]

theorem foldToKind_of_isSimplifiable (h : v.isSimplifiable = true) :
    ∃ k, v.kind? = some k ∧ foldToKind v = .anyOf k := by
  cases v with
  | scalar s => exact ⟨s.kind, rfl, rfl⟩
  | interval i => exact ⟨i.kind, rfl, rfl⟩
  | _ => simp [Value.isSimplifiable] at h

theorem simplify?_eq_some {limit : Nat} (h : e.simplify? limit = some f) :
    f = ofList (e.toList.map foldToKind) := by
  unfold simplify? at h
  split at h
  · cases h
  · exact (Option.some.inj h).symm

/-- Simplification keeps every value but scalars and intervals, and adds kinds only. -/
theorem mem_or_anyOf_of_mem_simplify {limit : Nat} (h : e.simplify? limit = some f) (hv : v ∈ f) :
    v ∈ e ∨ ∃ k, v = .anyOf k := by
  rw [simplify?_eq_some h] at hv
  rcases mem_or_mem_of_mem_foldl_insert hv with hl | he
  · obtain ⟨w, hw, rfl⟩ := List.mem_map.1 hl
    cases hs : w.isSimplifiable with
    | false =>
      rw [foldToKind_of_not_isSimplifiable hs]
      exact .inl (mem_toList.1 hw)
    | true =>
      obtain ⟨k, -, hk⟩ := foldToKind_of_isSimplifiable hs
      exact .inr ⟨k, hk⟩
  · exact absurd he not_mem_empty

theorem mem_simplify_of_isSolid {limit : Nat} (h : e.simplify? limit = some f) (hv : v.IsSolid)
    (hs : v.isSimplifiable = false) (he : v ∈ e) : v ∈ f := by
  rw [simplify?_eq_some h]
  refine (mem_foldl_insert_iff_of_isSolid hv).2 (.inl (List.mem_map.2 ⟨v, mem_toList.2 he, ?_⟩))
  exact foldToKind_of_not_isSimplifiable hs

end Entry
end ScriptMemory
