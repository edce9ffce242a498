import Mathlib.Order.Antichain
import Mathlib.Order.Lattice
import ScriptMemory.Proofs.Absorption

/-! Entries as a join-semilattice. Absorption orders the values strictly, an entry is an antichain
of that order, and one entry lies below another if the other one covers its values. Joining entries
is the least upper bound there. -/
namespace ScriptMemory

/-- Absorption is a strict order: intervals that contain each other are equal. -/
instance : IsStrictOrder Value fun v w => v.absorbs w = true where
  irrefl v h := by
    rw [Value.absorbs_self] at h
    cases h
  trans _ _ _ h h' := Value.absorbs_trans h h'

namespace Entry
variable {e f g : Entry} {v w : Value} {l : List Value}

theorem isAntichain (e : Entry) :
    IsAntichain (fun v w : Value => v.absorbs w = true) {v | v ∈ e} := by
  intro v hv w hw _ h
  rw [absorbs_eq_false_of_mem hv hw] at h
  cases h

/-- An entry that is built from a list has the maximal values of the list. -/
theorem mem_ofList : v ∈ ofList l ↔ v ∈ l ∧ ∀ w ∈ l, w.absorbs v = false := by
  have hlist {v : Value} (hv : v ∈ ofList l) : v ∈ l :=
    (mem_or_mem_of_mem_foldl_insert hv).resolve_right not_mem_empty
  have hcovers {v : Value} (hv : v ∈ l) : (ofList l).Covers v :=
    covers_foldl_insert.2 (.inl ⟨v, hv, .refl v⟩)
  constructor
  · intro hv
    refine ⟨hlist hv, fun w hw => Bool.eq_false_iff.2 fun h => ?_⟩
    -- what covers `w` would absorb `v`, and both are members
    obtain ⟨u, hu, hwu⟩ := hcovers hw
    have hvu : v = u := by
      apply ((Value.Within.trans (.inr h) hwu)).resolve_right
      rw [absorbs_eq_false_of_mem hu hv]
      exact Bool.false_ne_true
    have hback : v.absorbs v = true := by
      rcases hwu with rfl | ha
      · exact hvu ▸ h
      · exact Value.absorbs_trans (hvu ▸ ha) h
    rw [Value.absorbs_self] at hback
    cases hback
  · rintro ⟨hv, hmax⟩
    obtain ⟨u, hu, rfl | ha⟩ := hcovers hv
    · exact hu
    · rw [hmax u (hlist hu)] at ha
      cases ha

/-- The entries that can be built are all the finite antichains: each is built from its members. -/
theorem exists_ofList_iff {s : OrdSet Value} : (∃ l, (ofList l).values = s) ↔
    IsAntichain (fun v w : Value => v.absorbs w = true) {v | v ∈ s} := by
  constructor
  · rintro ⟨l, rfl⟩
    exact isAntichain (ofList l)
  intro h
  refine ⟨s.toList, ?_⟩
  apply Std.ExtTreeSet.ext_mem
  intro v
  rw [mem_values, mem_ofList, Std.ExtTreeSet.mem_toList, and_iff_left_iff_imp]
  intro hv w hw
  rw [Std.ExtTreeSet.mem_toList] at hw
  apply Bool.eq_false_iff.2
  intro ha
  by_cases hne : w = v
  · rw [hne, Value.absorbs_self] at ha
    cases ha
  · exact h hw hv hne ha

theorem Covers.of_isSubsumedBy (h : e.Covers v) (hf : e.isSubsumedBy f = true) : f.Covers v := by
  obtain ⟨w, hw, hv⟩ := h
  exact (isSubsumedBy_iff.1 hf w hw).within hv

theorem isSubsumedBy_iff_covers : e.isSubsumedBy f = true ↔ ∀ v, e.Covers v → f.Covers v :=
  ⟨fun h _ hv => hv.of_isSubsumedBy h, fun h => isSubsumedBy_iff.2 fun v hv =>
    h v (covers_of_mem hv)⟩

theorem isSubsumedBy_refl (e : Entry) : e.isSubsumedBy e = true :=
  isSubsumedBy_iff_covers.2 fun _ => id

instance : PartialOrder Entry where
  le e f := e.isSubsumedBy f = true
  le_refl := isSubsumedBy_refl
  le_trans _ _ _ h h' := isSubsumedBy_iff_covers.2 fun _ hv =>
    (hv.of_isSubsumedBy h).of_isSubsumedBy h'
  le_antisymm _ _ h h' := ext_covers fun _ =>
    ⟨fun hv => hv.of_isSubsumedBy h, fun hv => hv.of_isSubsumedBy h'⟩

theorem le_iff : e ≤ f ↔ ∀ v, e.Covers v → f.Covers v :=
  isSubsumedBy_iff_covers

instance : SemilatticeSup Entry where
  sup := join
  le_sup_left _ _ := le_iff.2 fun _ hv => covers_join.2 (.inl hv)
  le_sup_right _ _ := le_iff.2 fun _ hv => covers_join.2 (.inr hv)
  sup_le _ _ _ h h' := le_iff.2 fun _ hv => (covers_join.1 hv).elim (le_iff.1 h _) (le_iff.1 h' _)

/-- The comparison of entries is that of their order. -/
theorem compare?_eq_some_iff (e f : Entry) :
    (e.compare? f = some .eq ↔ e = f) ∧ (e.compare? f = some .lt ↔ e < f) ∧
      (e.compare? f = some .gt ↔ f < e) ∧ (e.compare? f = none ↔ ¬e ≤ f ∧ ¬f ≤ e) := by
  rw [lt_iff_le_and_ne, lt_iff_le_and_ne]
  change _ ∧ (_ ↔ e.isSubsumedBy f = true ∧ _) ∧ (_ ↔ f.isSubsumedBy e = true ∧ _) ∧
    (_ ↔ ¬e.isSubsumedBy f = true ∧ ¬f.isSubsumedBy e = true)
  unfold compare?
  by_cases heq : e = f
  · subst heq
    simp [isSubsumedBy_refl]
  · cases h : e.isSubsumedBy f with
    | true =>
      have h' : ¬f.isSubsumedBy e = true := fun h' => heq (le_antisymm h h')
      simp [heq, h']
    | false =>
      cases h' : f.isSubsumedBy e with
      | true => simp [heq, Ne.symm heq]
      | false => simp [heq]

/-- Absorption is a strict partial order. Every entry is an antichain of it, each finite antichain
can be built, and from a list the antichain of its maximal values is built. Entries are ordered by
what they cover, the join is the least upper bound in that order, and comparing two entries tells
how they lie to each other. -/
theorem joinSemilattice :
    IsStrictOrder Value (fun v w => v.absorbs w = true) ∧
    (∀ e : Entry, IsAntichain (fun v w : Value => v.absorbs w = true) {v | v ∈ e}) ∧
    (∀ s : OrdSet Value, (∃ l, (ofList l).values = s) ↔
      IsAntichain (fun v w : Value => v.absorbs w = true) {v | v ∈ s}) ∧
    (∀ l v, v ∈ ofList l ↔ v ∈ l ∧ ∀ w ∈ l, w.absorbs v = false) ∧
    IsPartialOrder Entry (fun e f => e.isSubsumedBy f = true) ∧
    (∀ e f g : Entry, (e.join f).isSubsumedBy g = true ↔
      e.isSubsumedBy g = true ∧ f.isSubsumedBy g = true) ∧
    (∀ e f : Entry, e.join f = f.join e) ∧
    (∀ e f g : Entry, (e.join f).join g = e.join (f.join g)) ∧
    (∀ e : Entry, e.join e = e) ∧
    ∀ e f : Entry, (e.compare? f = some .eq ↔ e = f) ∧
      (e.compare? f = some .lt ↔ e.isSubsumedBy f = true ∧ e ≠ f) ∧
      (e.compare? f = some .gt ↔ f.isSubsumedBy e = true ∧ f ≠ e) ∧
      (e.compare? f = none ↔ ¬e.isSubsumedBy f = true ∧ ¬f.isSubsumedBy e = true) := by
  refine ⟨inferInstance, isAntichain, fun _ => exists_ofList_iff, fun _ _ => mem_ofList, ?_, ?_,
    sup_comm, sup_assoc, sup_idem, fun e f => ?_⟩
  · exact inferInstanceAs (IsPartialOrder Entry (· ≤ ·))
  · intro e f g
    have h : e ⊔ f ≤ g ↔ e ≤ g ∧ f ≤ g := sup_le_iff
    exact h
  · have h := compare?_eq_some_iff e f
    rwa [lt_iff_le_and_ne, lt_iff_le_and_ne] at h

end Entry
end ScriptMemory
