import Mathlib.Logic.Relation
import Mathlib.Tactic.ByContra
import ScriptMemory.Proofs.Memory.Draft

/-! What a bounded search reaches. Every round but the last one completes an element that leads
further, so as many rounds as there are such elements reach everything there is to reach. Aliases
lead on from defined locations only, whence closing locations under aliases is following the edges
of the alias graph as far as they go. -/
namespace ScriptMemory
open Std Relation

section
variable {α : Type} [Ord α] [TransOrd α] [LawfulEqOrd α] [DecidableEq α] {next : α → List α}
  {rounds : Nat} {start : OrdSet α} {a b : α}

theorem mem_reach_of_mem (h : a ∈ start) : a ∈ reach next rounds start := by
  induction rounds generalizing start with
  | zero => exact h
  | succ rounds ih =>
    unfold reach
    dsimp only
    split
    · exact h
    · exact ih (OrdSet.mem_insertMany.2 (.inl h))

theorem reachable_of_mem_reach (h : a ∈ reach next rounds start) :
    ∃ b ∈ start, ReflTransGen (fun x y => y ∈ next x) b a := by
  have hstep (x : α) (hx : ∃ b ∈ start, ReflTransGen (fun x y => y ∈ next x) b x) :
      ∀ y ∈ next x, ∃ b ∈ start, ReflTransGen (fun x y => y ∈ next x) b y := by
    obtain ⟨b, hb, hx⟩ := hx
    exact fun y hy => ⟨b, hb, hx.tail hy⟩
  exact forall_mem_reach hstep (fun b hb => ⟨b, hb, .refl⟩) a h

/-- The search ends with a closed set when there are rounds enough for the elements that lead on
and are not completed yet. -/
theorem reach_closed {keys : List α} (hkeys : ∀ a, next a ≠ [] → a ∈ keys) {done : OrdSet α}
    (hdone : ∀ a ∈ done, a ∈ start ∧ ∀ b ∈ next a, b ∈ start)
    (hrounds : (keys.filter fun a => a ∉ done).length ≤ rounds) :
    ∀ a ∈ reach next rounds start, ∀ b ∈ next a, b ∈ reach next rounds start := by
  induction rounds generalizing start done with
  | zero =>
    intro a ha b hb
    -- all that leads on is completed
    have hin : a ∈ done := by
      have hnil := List.filter_eq_nil_iff.1 (List.length_eq_zero_iff.1 (Nat.le_zero.1 hrounds)) a
        (hkeys a (List.ne_nil_of_mem hb))
      simpa using hnil
    exact (hdone a hin).2 b hb
  | succ rounds ih =>
    unfold reach
    dsimp only
    split
    · next hsame =>
      intro a ha b hb
      rw [← hsame]
      exact OrdSet.mem_insertMany.2 (.inr (List.mem_flatMap.2 ⟨a, ExtTreeSet.mem_toList.2 ha, hb⟩))
    · next hmore =>
      refine ih (fun a (ha : a ∈ start) => ?_) ?_
      · refine ⟨OrdSet.mem_insertMany.2 (.inl ha), fun b hb => OrdSet.mem_insertMany.2 (.inr ?_)⟩
        exact List.mem_flatMap.2 ⟨a, ExtTreeSet.mem_toList.2 ha, hb⟩
      · -- something new was found, from an element that was not completed before
        have hnew : ∃ a ∈ start, ∃ b ∈ next a, b ∉ start := by
          by_contra hnone
          apply hmore
          apply ExtTreeSet.ext_mem
          intro b
          rw [OrdSet.mem_insertMany]
          refine ⟨?_, .inl⟩
          rintro (hb | hb)
          · exact hb
          · obtain ⟨a, ha, hab⟩ := List.mem_flatMap.1 hb
            by_cases hbs : b ∈ start
            · exact hbs
            · exact absurd ⟨a, ExtTreeSet.mem_toList.1 ha, b, hab, hbs⟩ hnone
        obtain ⟨a, ha, b, hb, hbs⟩ := hnew
        have hnot : a ∉ done := fun h => hbs ((hdone a h).2 b hb)
        have hsub : keys.filter (fun a => a ∉ start) =
            (keys.filter fun a => a ∉ done).filter fun a => a ∉ start := by
          rw [List.filter_filter]
          apply List.filter_congr
          intro c _
          by_cases hc : c ∈ start
          · simp [hc]
          · have hcd : c ∉ done := fun h => hc (hdone c h).1
            simp [hc, hcd]
        have hin : a ∈ keys.filter fun a => a ∉ done :=
          List.mem_filter.2 ⟨hkeys a (List.ne_nil_of_mem hb), decide_eq_true hnot⟩
        have hout : ¬decide (a ∉ start) = true := by simpa using ha
        have hlt : ((keys.filter fun a => a ∉ done).filter fun a => a ∉ start).length <
            (keys.filter fun a => a ∉ done).length :=
          List.length_filter_lt_length_iff_exists.2 ⟨a, hin, hout⟩
        rw [← hsub] at hlt
        omega

theorem mem_reach {keys : List α} (hkeys : ∀ a, next a ≠ [] → a ∈ keys)
    (hrounds : keys.length ≤ rounds) : a ∈ reach next rounds start ↔
      ∃ b ∈ start, ReflTransGen (fun x y => y ∈ next x) b a := by
  refine ⟨reachable_of_mem_reach, ?_⟩
  rintro ⟨b, hb, h⟩
  have hfew : (keys.filter fun a => a ∉ (∅ : OrdSet α)).length ≤ rounds :=
    Nat.le_trans (List.length_filter_le _ _) hrounds
  have hclosed : ∀ a ∈ reach next rounds start, ∀ b ∈ next a, b ∈ reach next rounds start :=
    reach_closed hkeys (fun a ha => absurd ha ExtTreeSet.not_mem_empty) hfew
  induction h with
  | refl => exact mem_reach_of_mem hb
  | tail _ hlast ih => exact hclosed _ ih _ hlast

end

namespace Memory
variable {m : Memory} {l : Locations} {i j k : Index}

/-- One location is recorded as a certain alias of another. -/
def MustEdge (m : Memory) (i j : Index) : Prop :=
  (m.aliases i).strength? j = some .must

/-- One location is recorded as an alias of another. -/
def Edge (m : Memory) (i j : Index) : Prop :=
  ∃ s, (m.aliases i).strength? j = some s

/-- Certain edges lead from one location to the other. -/
def MustLinked (m : Memory) : Index → Index → Prop :=
  ReflTransGen m.MustEdge

/-- Edges of any strength lead from one location to the other. -/
def Linked (m : Memory) : Index → Index → Prop :=
  ReflTransGen m.Edge

theorem MustLinked.linked (h : m.MustLinked i j) : m.Linked i j :=
  ReflTransGen.mono (fun _ _ hs => ⟨_, hs⟩) _ _ h

theorem AliasesSymmetric.edge (h : m.AliasesSymmetric) (he : m.Edge i j) : m.Edge j i := by
  obtain ⟨s, hs⟩ := he
  exact ⟨s, (h j i).trans hs⟩

theorem AliasesSymmetric.linked (h : m.AliasesSymmetric) (hl : m.Linked i j) : m.Linked j i := by
  induction hl with
  | refl => exact .refl
  | tail _ hlast ih => exact ReflTransGen.head (h.edge hlast) ih

theorem AliasesSymmetric.mustLinked (h : m.AliasesSymmetric) (hl : m.MustLinked i j) :
    m.MustLinked j i := by
  induction hl with
  | refl => exact .refl
  | tail _ hlast ih => exact ReflTransGen.head ((h _ _).trans hlast) ih

/-- Both ends of an edge are defined. -/
theorem isDefined_of_edge (h : m.Edge i j) : m.isDefined i = true := by
  obtain ⟨s, hs⟩ := h
  exact isDefined_of_strength? hs

/-- Different locations are linked only if both are defined. -/
theorem Linked.isDefined (hsym : m.AliasesSymmetric) (h : m.Linked i j) (hne : i ≠ j) :
    m.isDefined j = true := by
  rcases ReflTransGen.cases_tail h with heq | ⟨k, -, hlast⟩
  · exact absurd heq.symm hne
  · exact isDefined_of_edge (hsym.edge hlast)

/-- Closing under certain aliases follows the certain edges. -/
theorem mem_must_expand {use : AliasReach} :
    i ∈ (m.expand use l).must ↔ ∃ j ∈ l.must, m.MustLinked j i := by
  have hrel : (fun x y => y ∈ (m.aliases x).must) = m.MustEdge := by
    funext x y
    exact propext AliasSet.mem_ofStrength
  have hkeys : ∀ a, (m.aliases a).must ≠ [] → a ∈ m.cells.keys := by
    intro a ha
    obtain ⟨b, hb⟩ := List.exists_mem_of_ne_nil _ ha
    have hd := isDefined_of_strength? (AliasSet.mem_ofStrength.1 hb)
    rwa [ExtTreeMap.mem_keys, ← ExtTreeMap.contains_iff_mem]
  have hreach : i ∈ reach (fun i => (m.aliases i).must) m.cells.size l.must ↔
      ∃ j ∈ l.must, ReflTransGen (fun x y => y ∈ (m.aliases x).must) j i :=
    mem_reach hkeys (Nat.le_of_eq ExtTreeMap.length_keys)
  rw [hrel] at hreach
  unfold expand
  cases use with
  | must => exact hreach
  | all => exact hreach

/-- Closing under all aliases follows all edges; what is not certain then is possible. -/
theorem mem_may_expand : i ∈ (m.expand .all l).may ↔
    (∃ j, (j ∈ l.must ∨ j ∈ l.may) ∧ m.Linked j i) ∧ i ∉ (m.expand .all l).must := by
  have hrel : (fun x y => y ∈ (m.aliases x).toList) = m.Edge := by
    funext x y
    exact propext AliasSet.mem_toList
  have hkeys : ∀ a, (m.aliases a).toList ≠ [] → a ∈ m.cells.keys := by
    intro a ha
    obtain ⟨b, hb⟩ := List.exists_mem_of_ne_nil _ ha
    obtain ⟨s, hs⟩ := AliasSet.mem_toList.1 hb
    have hd := isDefined_of_strength? hs
    rwa [ExtTreeMap.mem_keys, ← ExtTreeMap.contains_iff_mem]
  have hreach : i ∈ reach (fun i => (m.aliases i).toList) m.cells.size
        ((m.expand .all l).must ∪ l.may) ↔ ∃ j ∈ (m.expand .all l).must ∪ l.may,
          ReflTransGen (fun x y => y ∈ (m.aliases x).toList) j i :=
    mem_reach hkeys (Nat.le_of_eq ExtTreeMap.length_keys)
  rw [hrel] at hreach
  have hstart : (∃ j ∈ (m.expand .all l).must ∪ l.may, m.Linked j i) ↔
      ∃ j, (j ∈ l.must ∨ j ∈ l.may) ∧ m.Linked j i := by
    simp only [ExtTreeSet.mem_union_iff, mem_must_expand]
    constructor
    · rintro ⟨j, ⟨k, hk, hkj⟩ | hj, hji⟩
      · exact ⟨k, .inl hk, hkj.linked.trans hji⟩
      · exact ⟨j, .inr hj, hji⟩
    · rintro ⟨j, hj | hj, hji⟩
      · exact ⟨j, .inl ⟨j, hj, .refl⟩, hji⟩
      · exact ⟨j, .inr hj, hji⟩
  have hmay : i ∈ (m.expand .all l).may ↔
      i ∈ reach (fun i => (m.aliases i).toList) m.cells.size ((m.expand .all l).must ∪ l.may) ∧
        i ∉ (m.expand .all l).must := ExtTreeSet.mem_diff_iff
  rw [hmay, hreach]
  exact and_congr_left' hstart

end Memory
end ScriptMemory
