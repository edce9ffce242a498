import ScriptMemory.Proofs.Memory.Lookup

/-! The alias graph. Every edge is stored on both of its ends with the same strength, and on a graph
like that a new edge never conflicts with an old one. -/
namespace ScriptMemory
open Std

namespace Memory
variable {m n : Memory} {i j target : Index} {gone : Index → Bool}

/-- Two locations record one another as aliases, with one strength. -/
def AliasesSymmetric (m : Memory) : Prop :=
  ∀ i j, (m.aliases i).strength? j = (m.aliases j).strength? i

theorem aliasesSymmetric_of_aliases_eq (h : m.AliasesSymmetric)
    (ha : ∀ i, n.aliases i = m.aliases i) : n.AliasesSymmetric := by
  intro i j
  rw [ha, ha, h i j]

theorem strength?_discard (m : Memory) (gone : Index → Bool) (i j : Index) :
    ((m.discard gone).aliases i).strength? j =
      if gone i || gone j then none else (m.aliases i).strength? j := by
  rw [aliases_discard]
  cases hi : gone i <;> cases hj : gone j <;> simp [hj]

theorem aliasesSymmetric_discard (h : m.AliasesSymmetric) (gone : Index → Bool) :
    (m.discard gone).AliasesSymmetric := by
  intro i j
  rw [strength?_discard, strength?_discard, h i j, Bool.or_comm]

theorem aliasesSymmetric_write (h : m.AliasesSymmetric) (i : Index) (e : Entry) :
    (m.write i e).AliasesSymmetric := by
  by_cases he : e.contains (.array i) = true
  · apply aliasesSymmetric_of_aliases_eq h
    intro j
    rw [aliases_write, if_pos he]
  · have hc : (m.clearMembers i).AliasesSymmetric := aliasesSymmetric_discard h _
    apply aliasesSymmetric_of_aliases_eq hc
    intro j
    rw [aliases_write, if_neg he]

/-- An edge of the joined graph is one of some source, and a certain one is certain in all. -/
theorem strength?_join (sources : List Memory) (level : Nat) (i j : Index) :
    ((join sources level).aliases i).strength? j =
      if sources.any fun m => (m.aliases i).contains j then
        some (if sources.all fun m => (m.aliases i).strength? j = some .must then .must else .may)
      else none := by
  rw [aliases_join]
  split
  · rw [AliasSet.strength?_merge, List.any_map, List.all_map]
    rfl
  · next hd =>
    rw [AliasSet.strength?_empty, if_neg]
    intro hany
    obtain ⟨m, hm, hc⟩ := List.any_eq_true.1 hany
    obtain ⟨s, hs⟩ := AliasSet.contains_iff.1 hc
    exact hd ⟨m, hm, isDefined_of_strength? hs⟩

theorem aliasesSymmetric_join {sources : List Memory} (h : ∀ m ∈ sources, m.AliasesSymmetric)
    (level : Nat) : (join sources level).AliasesSymmetric := by
  have hcontains : ∀ m ∈ sources, ∀ i j, (m.aliases i).contains j = (m.aliases j).contains i := by
    intro m hm i j
    rw [Bool.eq_iff_iff, AliasSet.contains_iff, AliasSet.contains_iff, h m hm i j]
  have hany (i j : Index) : (sources.any fun m => (m.aliases i).contains j) =
      sources.any fun m => (m.aliases j).contains i := by
    rw [Bool.eq_iff_iff, List.any_eq_true, List.any_eq_true]
    constructor
    · rintro ⟨m, hm, hc⟩
      exact ⟨m, hm, hcontains m hm i j ▸ hc⟩
    · rintro ⟨m, hm, hc⟩
      exact ⟨m, hm, hcontains m hm i j ▸ hc⟩
  have hall (i j : Index) :
      (sources.all fun m => (m.aliases i).strength? j = some .must) =
        sources.all fun m => (m.aliases j).strength? i = some .must := by
    rw [Bool.eq_iff_iff, List.all_eq_true, List.all_eq_true]
    constructor
    · intro hm m hms
      rw [← h m hms i j]
      exact hm m hms
    · intro hm m hms
      rw [h m hms i j]
      exact hm m hms
  intro i j
  rw [strength?_join, strength?_join, hany, hall]

section
variable (js : List Index) (f : AliasSet → AliasSet) (k : Index)

theorem entry?_foldl_modifyAliases (m : Memory) :
    Memory.entry? (js.foldl (fun m j => m.modifyAliases j f) m) k = m.entry? k := by
  induction js generalizing m with
  | nil => rfl
  | cons j js ih => rw [List.foldl_cons, ih, entry?_modifyAliases]

theorem members_foldl_modifyAliases (m : Memory) :
    ((js.foldl (fun m j => m.modifyAliases j f) m).cell k).members = (m.cell k).members := by
  induction js generalizing m with
  | nil => rfl
  | cons j js ih => rw [List.foldl_cons, ih, members_modifyAliases]

theorem isDefined_foldl_modifyAliases (m : Memory) :
    (js.foldl (fun m j => m.modifyAliases j f) m).isDefined k = m.isDefined k := by
  induction js generalizing m with
  | nil => rfl
  | cons j js ih => rw [List.foldl_cons, ih, isDefined_modifyAliases]

theorem level_foldl_modifyAliases (m : Memory) :
    (js.foldl (fun m j => m.modifyAliases j f) m).level = m.level := by
  induction js generalizing m with
  | nil => rfl
  | cons j js ih =>
    rw [List.foldl_cons, ih]
    rfl

theorem objects_foldl_modifyAliases (m : Memory) :
    (js.foldl (fun m j => m.modifyAliases j f) m).objects = m.objects := by
  induction js generalizing m with
  | nil => rfl
  | cons j js ih =>
    rw [List.foldl_cons, ih]
    rfl

/-- Several locations are told the same about `i`. -/
theorem strength?_foldl_modifyAliases {i : Index} {r : Option Strength}
    (hf : ∀ (x : AliasSet) b, (f x).strength? b = if b = i then r else x.strength? b) (m : Memory)
    (a b : Index) :
    ((js.foldl (fun m j => m.modifyAliases j f) m).aliases a).strength? b =
      if a ∈ js ∧ m.isDefined a ∧ b = i then r else (m.aliases a).strength? b := by
  induction js generalizing m with
  | nil => simp
  | cons j js ih =>
    rw [List.foldl_cons, ih, isDefined_modifyAliases, aliases_modifyAliases]
    by_cases haj : a = j
    · subst haj
      by_cases hd : m.isDefined a = true <;> by_cases hb : b = i <;> simp [hd, hb, hf]
    · simp [haj]

end

/-- The strength of an edge after `i` and `target` were bound with `strength`: a binding that is
not certain makes the older edges of `i` uncertain. -/
def strengthAfterLink (m : Memory) (i target : Index) (strength : Strength) (a b : Index) :
    Option Strength :=
  if (a = i ∧ b = target) ∨ (a = target ∧ b = i) then some strength
  else if strength = .may ∧ (a = i ∨ b = i) then ((m.aliases a).strength? b).map fun _ => .may
  else (m.aliases a).strength? b

theorem strengthAfterLink_symm (h : m.AliasesSymmetric) (i target : Index) (s : Strength)
    (a b : Index) : m.strengthAfterLink i target s a b = m.strengthAfterLink i target s b a := by
  have hends : (a = i ∧ b = target) ∨ (a = target ∧ b = i) ↔
      (b = i ∧ a = target) ∨ (b = target ∧ a = i) := by tauto
  have hside : a = i ∨ b = i ↔ b = i ∨ a = i := or_comm
  unfold strengthAfterLink
  simp only [hends, hside, h a b]

/-- A certain alias bound once more: both ends are written back as they are. -/
theorem link_of_must (h : m.AliasesSymmetric) (hne : i ≠ target)
    (hmust : (m.aliases i).strength? target = some .must) :
    m.link i target =
      .ok ((m.setAliases i (m.aliases i)).setAliases target (m.aliases target)) := by
  have hti : target ≠ i := fun he => hne he.symm
  have hb : (m.aliases i).bind target = (m.aliases i, .must) := if_pos hmust
  have hins : ((m.setAliases i (m.aliases i)).aliases target).insert i .must =
      .ok (m.aliases target) := by
    rw [aliases_setAliases, if_neg hti, AliasSet.insert, h target i, hmust]
    rfl
  unfold link
  rw [if_neg hne]
  simp only [hb, hins]
  rfl

/-- The first alias of a location: the edge is certain, and the other end cannot know `i` yet. -/
theorem link_of_isEmpty (h : m.AliasesSymmetric) (hne : i ≠ target)
    (hempty : (m.aliases i).isEmpty = true) :
    m.link i target = .ok ((m.setAliases i ((m.aliases i).set target .must)).setAliases target
      ((m.aliases target).set i .must)) := by
  have hti : target ≠ i := fun he => hne he.symm
  have hnone := AliasSet.isEmpty_iff.1 hempty
  have hb : (m.aliases i).bind target = ((m.aliases i).set target .must, .must) := by
    unfold AliasSet.bind
    rw [if_neg (by simp [hnone]), if_pos hempty]
  have hins : ((m.setAliases i ((m.aliases i).set target .must)).aliases target).insert i .must =
      .ok ((m.aliases target).set i .must) := by
    rw [aliases_setAliases, if_neg hti, AliasSet.insert, h target i, hnone]
  unfold link
  rw [if_neg hne]
  simp only [hb, hins]
  rfl

/-- The memory after another binding of a location that has aliases already. -/
def degradeAndLink (m : Memory) (i target : Index) : Memory :=
  let bound := m.setAliases i ((m.aliases i).degrade.set target .may)
  let degraded := (m.aliases i).must.foldl (fun m j => m.modifyAliases j (·.set i .may)) bound
  degraded.setAliases target ((degraded.aliases target).set i .may)

theorem link_of_degrade (hne : i ≠ target)
    (hmust : (m.aliases i).strength? target ≠ some .must)
    (hempty : ¬(m.aliases i).isEmpty = true) :
    m.link i target = .ok (m.degradeAndLink i target) := by
  have hb : (m.aliases i).bind target = ((m.aliases i).degrade.set target .may, .may) := by
    unfold AliasSet.bind
    rw [if_neg hmust, if_neg hempty]
  unfold link
  rw [if_neg hne]
  simp only [hb]
  rfl

/-- A certain alias of `i` is defined and knows `i`, so that marking it has an effect. -/
theorem isDefined_bound (h : m.AliasesSymmetric) (hne : i ≠ target) {j : Index}
    (hj : (m.aliases i).strength? j = some .must) :
    (m.setAliases i ((m.aliases i).degrade.set target .may)).isDefined j = true := by
  by_cases hji : j = i
  · subst hji
    have hs : (((m.setAliases j ((m.aliases j).degrade.set target .may)).aliases j).strength? j) =
        some .may := by
      rw [aliases_setAliases, if_pos rfl, AliasSet.strength?_set, if_neg hne,
        AliasSet.strength?_degrade, hj]
      rfl
    exact isDefined_of_strength? hs
  · have hs : ((m.setAliases i ((m.aliases i).degrade.set target .may)).aliases j).strength? i =
        some .must := by
      rw [aliases_setAliases, if_neg hji, h j i, hj]
    exact isDefined_of_strength? hs

/-- An edge that is not certain is degraded to itself. -/
theorem map_may_of_ne_must {o : Option Strength} (ho : o ≠ some .must) :
    o.map (fun _ => Strength.may) = o := by
  cases o with
  | none => rfl
  | some s =>
    cases s with
    | must => exact absurd rfl ho
    | may => rfl

theorem strength?_degradeAndLink (h : m.AliasesSymmetric) (hne : i ≠ target)
    (hmust : (m.aliases i).strength? target ≠ some .must) (a b : Index) :
    ((m.degradeAndLink i target).aliases a).strength? b =
      m.strengthAfterLink i target .may a b := by
  have hti : target ≠ i := fun he => hne he.symm
  have hset (x : AliasSet) (b : Index) :
      (x.set i .may).strength? b = if b = i then some .may else x.strength? b :=
    AliasSet.strength?_set
  unfold degradeAndLink strengthAfterLink
  rw [aliases_setAliases]
  by_cases ha : a = target
  · subst ha
    rw [if_pos rfl, AliasSet.strength?_set]
    by_cases hb : b = i
    · simp [hb]
    · rw [if_neg hb, strength?_foldl_modifyAliases _ _ hset, aliases_setAliases, if_neg hti]
      simp [hb, hti]
  · rw [if_neg ha, strength?_foldl_modifyAliases _ _ hset, aliases_setAliases]
    by_cases hb : b = i
    · -- the other end of an edge of `i`: it was marked if the edge was certain
      subst hb
      by_cases hma : (m.aliases b).strength? a = some .must
      · have hin : a ∈ (m.aliases b).must := AliasSet.mem_ofStrength.2 hma
        simp [hin, isDefined_bound h hne hma, ha, h a b, hma, hne]
      · have hnin : a ∉ (m.aliases b).must := fun hm => hma (AliasSet.mem_ofStrength.1 hm)
        by_cases hab : a = b
        · subst hab
          simp [hnin, ha]
        · have hmay : ((m.aliases a).strength? b).map (fun _ => Strength.may) =
              (m.aliases a).strength? b := map_may_of_ne_must (by rw [h a b]; exact hma)
          simp [hnin, ha, hab, hmay]
    · -- an edge of `i` itself was degraded, and every other edge stays
      by_cases hai : a = i
      · subst hai
        by_cases hbt : b = target
        · simp [hbt, hti]
        · simp [hb, hbt]
      · simp [hb, ha, hai]

/-- Writing a certain edge to both of its ends is all that a certain binding does. -/
theorem strength?_setAliases_must (hne : i ≠ target) {x y : AliasSet}
    (hx : ∀ b, x.strength? b = if b = target then some .must else (m.aliases i).strength? b)
    (hy : ∀ b, y.strength? b = if b = i then some .must else (m.aliases target).strength? b)
    (a b : Index) : (((m.setAliases i x).setAliases target y).aliases a).strength? b =
      m.strengthAfterLink i target .must a b := by
  have hti : target ≠ i := fun he => hne he.symm
  rw [aliases_setAliases, aliases_setAliases]
  unfold strengthAfterLink
  by_cases ha : a = target
  · subst ha
    simp [hy, hti]
  · by_cases hai : a = i
    · subst hai
      simp [hx, hne]
    · simp [ha, hai]

/-- How certain binding `i` to `target` is: the first binding is, and one made before stays so. -/
def bindingStrength (m : Memory) (i target : Index) : Strength :=
  if (m.aliases i).strength? target = some .must ∨ (m.aliases i).isEmpty = true then .must else .may

/-- The memory `n` is `m` with `i` bound to `target`. -/
structure LinkedTo (m : Memory) (i target : Index) (n : Memory) : Prop where
  level_eq : n.level = m.level
  entry?_eq : ∀ k, n.entry? k = m.entry? k
  members_eq : ∀ k, (n.cell k).members = (m.cell k).members
  isDefined_iff : ∀ k, n.isDefined k = true ↔ k = i ∨ k = target ∨ m.isDefined k = true
  strength?_eq : ∀ a b, (n.aliases a).strength? b =
    m.strengthAfterLink i target (m.bindingStrength i target) a b

theorem linkedTo_setAliases (hne : i ≠ target) (hs : m.bindingStrength i target = .must)
    {x y : AliasSet}
    (hx : ∀ b, x.strength? b = if b = target then some .must else (m.aliases i).strength? b)
    (hy : ∀ b, y.strength? b = if b = i then some .must else (m.aliases target).strength? b) :
    m.LinkedTo i target ((m.setAliases i x).setAliases target y) where
  level_eq := rfl
  entry?_eq := by
    intro k
    rw [entry?_setAliases, entry?_setAliases]
  members_eq := by
    intro k
    rw [members_setAliases, members_setAliases]
  isDefined_iff := by
    intro k
    rw [isDefined_setAliases, isDefined_setAliases]
    tauto
  strength?_eq := by
    rw [hs]
    exact strength?_setAliases_must hne hx hy

theorem linkedTo_degradeAndLink (h : m.AliasesSymmetric) (hne : i ≠ target)
    (hs : m.bindingStrength i target = .may)
    (hmust : (m.aliases i).strength? target ≠ some .must) :
    m.LinkedTo i target (m.degradeAndLink i target) where
  level_eq := level_foldl_modifyAliases _ _ _
  entry?_eq := by
    intro k
    unfold degradeAndLink
    rw [entry?_setAliases, entry?_foldl_modifyAliases, entry?_setAliases]
  members_eq := by
    intro k
    unfold degradeAndLink
    rw [members_setAliases, members_foldl_modifyAliases, members_setAliases]
  isDefined_iff := by
    intro k
    unfold degradeAndLink
    rw [isDefined_setAliases, isDefined_foldl_modifyAliases, isDefined_setAliases]
    tauto
  strength?_eq := by
    rw [hs]
    exact strength?_degradeAndLink h hne hmust

/-- Binding two locations of a symmetric graph never fails. -/
theorem exists_linkedTo (h : m.AliasesSymmetric) (hne : i ≠ target) :
    ∃ n, m.link i target = .ok n ∧ m.LinkedTo i target n := by
  -- the three cases are those of a binding: known, the first one, and one more
  by_cases hmust : (m.aliases i).strength? target = some .must
  · have hs : m.bindingStrength i target = .must := if_pos (.inl hmust)
    refine ⟨_, link_of_must h hne hmust, linkedTo_setAliases hne hs ?_ ?_⟩
    · intro b
      split
      · next hb => rw [hb, hmust]
      · rfl
    · intro b
      split
      · next hb => rw [hb, h target i, hmust]
      · rfl
  · by_cases hempty : (m.aliases i).isEmpty = true
    · have hs : m.bindingStrength i target = .must := if_pos (.inr hempty)
      refine ⟨_, link_of_isEmpty h hne hempty, linkedTo_setAliases hne hs ?_ ?_⟩
      · exact fun b => AliasSet.strength?_set ..
      · exact fun b => AliasSet.strength?_set ..
    · have hs : m.bindingStrength i target = .may := if_neg fun hor => hor.elim hmust hempty
      exact ⟨_, link_of_degrade hne hmust hempty, linkedTo_degradeAndLink h hne hs hmust⟩

/-- Every edge is the new one, or it was there before with some strength. -/
theorem LinkedTo.edge {a b : Index} {s : Strength} (hl : m.LinkedTo i target n)
    (hs : (n.aliases a).strength? b = some s) :
    (a = i ∧ b = target) ∨ (a = target ∧ b = i) ∨ ∃ t, (m.aliases a).strength? b = some t := by
  rw [hl.strength?_eq] at hs
  unfold strengthAfterLink at hs
  split at hs
  · next hends => exact hends.imp_right .inl
  · refine .inr (.inr ?_)
    split at hs
    · obtain ⟨t, ht, -⟩ := Option.map_eq_some_iff.1 hs
      exact ⟨t, ht⟩
    · exact ⟨s, hs⟩

/-- A new edge leaves a symmetric graph symmetric. -/
theorem LinkedTo.aliasesSymmetric (hl : m.LinkedTo i target n) (h : m.AliasesSymmetric) :
    n.AliasesSymmetric := by
  intro a b
  rw [hl.strength?_eq, hl.strength?_eq, strengthAfterLink_symm h]

end Memory
end ScriptMemory
