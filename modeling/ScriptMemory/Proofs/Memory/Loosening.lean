import ScriptMemory.Proofs.Memory.Complete

/-! Looser alias graphs. One graph is looser than another if it has all its edges and no certain
edge of its own. Whatever is done to two graphs, the looser one stays looser; where a location is
its own predecessor, it is enough that a certain edge comes from the graph before or from what was
made of it. -/
namespace ScriptMemory
open Std

namespace Memory
variable {o m n m' n' k : Memory} {i j t s : Index} {sources sources' : List Memory}
  {gone : Index → Bool} {limit : Option Nat}

/-- The aliases of `n` are looser than those of `m`, but for certain edges that are in `o`. -/
structure LooserUpTo (o m n : Memory) : Prop where
  edge : ∀ {i j}, m.Edge i j → n.Edge i j
  mustEdge : ∀ {i j}, n.MustEdge i j → m.MustEdge i j ∨ o.MustEdge i j

/-- The aliases of `n` are looser than those of `m`. -/
structure Looser (m n : Memory) : Prop where
  edge : ∀ {i j}, m.Edge i j → n.Edge i j
  mustEdge : ∀ {i j}, n.MustEdge i j → m.MustEdge i j

theorem looser_of_aliases (h : ∀ i, n.aliases i = m.aliases i) : m.Looser n where
  edge := by
    intro i j hij
    unfold Edge
    rwa [h]
  mustEdge := by
    intro i j hij
    unfold MustEdge at hij
    rwa [h] at hij

theorem Looser.trans (h : m.Looser n) (h' : n.Looser k) : m.Looser k where
  edge := fun hij => h'.edge (h.edge hij)
  mustEdge := fun hij => h.mustEdge (h'.mustEdge hij)

theorem Looser.upTo (h : m.Looser n) (o : Memory) : o.LooserUpTo m n where
  edge := h.edge
  mustEdge := fun hij => .inl (h.mustEdge hij)

theorem LooserUpTo.trans (h : o.LooserUpTo m n) (h' : n.Looser k) : o.LooserUpTo m k where
  edge := fun hij => h'.edge (h.edge hij)
  mustEdge := fun hij => h.mustEdge (h'.mustEdge hij)

/-- Where nothing is done, the two graphs are those of before. -/
theorem LooserUpTo.of_aliases (h : n.LooserUpTo m m') (hn : ∀ i, n.aliases i = m.aliases i)
    (hn' : ∀ i, n'.aliases i = m'.aliases i) : n.Looser n' where
  edge := fun hij =>
    (looser_of_aliases hn').edge (h.edge ((looser_of_aliases fun i => (hn i).symm).edge hij))
  mustEdge := by
    intro i j hij
    rcases h.mustEdge ((looser_of_aliases hn').mustEdge hij) with hm | hn
    · exact (looser_of_aliases fun i => (hn i).symm).mustEdge hm
    · exact hn

theorem bindingStrength_of_mustEdge (h : m.MustEdge t s) : m.bindingStrength t s = .must :=
  if_pos (.inl h)

theorem bindingStrength_of_unlinked (h : ∀ j, ¬m.Edge t j) : m.bindingStrength t s = .must := by
  refine if_pos (.inr (AliasSet.isEmpty_iff.2 fun j => ?_))
  cases hs : (m.aliases t).strength? j with
  | none => rfl
  | some r => exact absurd ⟨r, hs⟩ (h j)

/-- After a binding the edges are those from before, and the new one. -/
theorem Relinked.edge_iff (hb : m.Relinked t s n) (hne : t ≠ s) :
    n.Edge i j ↔ (i = t ∧ j = s ∨ i = s ∧ j = t) ∨ m.Edge i j := by
  refine ⟨?_, ?_⟩
  · rintro ⟨r, hr⟩
    rw [hb.strength?_eq hne] at hr
    unfold strengthAfterLink at hr
    split at hr
    · next hends => exact .inl hends
    · split at hr
      · obtain ⟨r', hr', -⟩ := Option.map_eq_some_iff.1 hr
        exact .inr ⟨r', hr'⟩
      · exact .inr ⟨r, hr⟩
  · rintro (hends | hij)
    · refine ⟨m.bindingStrength t s, ?_⟩
      rw [hb.strength?_eq hne]
      exact if_pos hends
    · exact hb.edge_of_edge hij

/-- Binding keeps a certain edge that it does not touch, and every one if it is certain itself. -/
theorem Relinked.mustEdge (hb : m.Relinked t s n) (hne : t ≠ s) (hij : m.MustEdge i j)
    (h : i ≠ t ∧ j ≠ t ∨ m.bindingStrength t s = .must) : n.MustEdge i j := by
  unfold MustEdge
  rw [hb.strength?_eq hne]
  unfold strengthAfterLink
  rcases h with ⟨hi, hj⟩ | hmust
  · rw [if_neg fun hends => hends.elim (fun h => hi h.1) fun h => hj h.2,
      if_neg fun hside => hside.2.elim hi hj]
    exact hij
  · rw [hmust]
    split
    · rfl
    · rw [if_neg fun hside => nomatch hside.1]
      exact hij

theorem Relinked.mustEdge_ends_iff (hb : m.Relinked t s n) (hne : t ≠ s)
    (hij : i = t ∧ j = s ∨ i = s ∧ j = t) : n.MustEdge i j ↔ m.bindingStrength t s = .must := by
  unfold MustEdge
  rw [hb.strength?_eq hne]
  unfold strengthAfterLink
  rw [if_pos hij, Option.some.injEq]

/-- The looser graph stays looser when the same locations are bound in both. -/
theorem Relinked.looser (hb : m.Relinked t s n) (hb' : m'.Relinked t s n')
    (h : n.LooserUpTo m m') : n.Looser n' := by
  by_cases hne : t = s
  · exact h.of_aliases (hb.aliases_eq hne) (hb'.aliases_eq hne)
  · -- a binding that is certain in the looser graph is certain in the other one
    have hcertain (hmust : m'.bindingStrength t s = .must) : m.bindingStrength t s = .must := by
      rcases bindingStrength_eq_must hmust with hts | hnone
      · rcases h.mustEdge hts with hm | hn
        · exact bindingStrength_of_mustEdge hm
        · exact (hb.mustEdge_ends_iff hne (.inl ⟨rfl, rfl⟩)).1 hn
      · exact bindingStrength_of_unlinked fun j hj => hnone j (h.edge hj)
    constructor
    · intro i j hij
      exact (hb'.edge_iff hne).2 (((hb.edge_iff hne).1 hij).imp_right h.edge)
    · intro i j hij
      have hends (hends : i = t ∧ j = s ∨ i = s ∧ j = t) : n.MustEdge i j :=
        (hb.mustEdge_ends_iff hne hends).2 (hcertain ((hb'.mustEdge_ends_iff hne hends).1 hij))
      rcases hb'.of_mustEdge hij with hts | hst | ⟨hold, hcase⟩
      · exact hends (.inl hts)
      · exact hends (.inr hst)
      · rcases h.mustEdge hold with hm | hn
        · exact hb.mustEdge hne hm (hcase.imp_right fun h => hcertain (h.resolve_left hne))
        · exact hn

theorem edge_discard : (m.discard gone).Edge i j ↔
    gone i = false ∧ gone j = false ∧ m.Edge i j := by
  unfold Edge
  rw [strength?_discard]
  cases hi : gone i <;> cases hj : gone j <;> simp

theorem LooserUpTo.discard (h : n.LooserUpTo m m')
    (hn : ∀ i, n.aliases i = (m.discard gone).aliases i)
    (hn' : ∀ i, n'.aliases i = (m'.discard gone).aliases i) : n.Looser n' where
  edge := by
    intro i j hij
    have hold := (looser_of_aliases fun i => (hn i).symm).edge hij
    obtain ⟨hi, hj, hold⟩ := edge_discard.1 hold
    exact (looser_of_aliases hn').edge (edge_discard.2 ⟨hi, hj, h.edge hold⟩)
  mustEdge := by
    intro i j hij
    obtain ⟨hi, hj, hold⟩ := mustEdge_discard.1 ((looser_of_aliases hn').mustEdge hij)
    rcases h.mustEdge hold with hm | hn'
    · exact (looser_of_aliases fun i => (hn i).symm).mustEdge (mustEdge_discard.2 ⟨hi, hj, hm⟩)
    · exact hn'

/-- Where only variables are aliases, removing a variable cuts its own edges and no others. -/
theorem Neat.aliases_remove (h : m.Neat) (x i : Index) :
    (m.remove [x]).aliases i = (m.discard fun j => j = x).aliases i := by
  have hgone {j : Index} (hj : j.IsVariable) :
      (ExtTreeSet.ofList ([x] ++ [x].flatMap m.below) : OrdSet Index).contains j =
        decide (j = x) := by
    rw [Bool.eq_iff_iff, mem_contains_ofList, List.mem_append, List.mem_singleton,
      decide_eq_true_eq, List.mem_flatMap]
    refine or_iff_left ?_
    rintro ⟨y, hy, hbelow⟩
    obtain ⟨s, -, hc⟩ := h.contains_of_mem_below hbelow
    have hle : y.depth + 1 ≤ j.depth := hc.depth_le
    rw [hj.depth_eq] at hle
    exact Nat.not_succ_le_zero _ hle
  apply AliasSet.ext_strength?
  intro j
  unfold remove
  rw [strength?_discard, strength?_discard]
  cases hs : (m.aliases i).strength? j with
  | none => rw [ite_self, ite_self]
  | some s => rw [hgone (h.aliased i j s hs), hgone (h.aliased_right hs)]

/-- What is taken over from some sources is linked as in any of them, and certainly so as in all. -/
theorem edge_takenOver (hne : sources ≠ []) : (takenOver limit sources).Edge i j ↔
    ∃ m ∈ sources, m.Edge i j := by
  unfold takenOver
  split
  · next m => simp only [List.mem_singleton, exists_eq_left]
  · unfold Edge simplified
    rw [aliases_mapEntries, strength?_join]
    simp only [← AliasSet.contains_iff, ← List.any_eq_true]
    split
    · next hany => exact iff_of_true ⟨_, rfl⟩ hany
    · next hany => exact iff_of_false (fun ⟨_, hs⟩ => nomatch hs) hany

theorem mustEdge_takenOver (hne : sources ≠ []) : (takenOver limit sources).MustEdge i j ↔
    ∀ m ∈ sources, m.MustEdge i j := by
  unfold takenOver
  split
  · next m => simp only [List.mem_singleton, forall_eq]
  · unfold MustEdge simplified
    rw [aliases_mapEntries, strength?_join]
    have hall : (sources.all fun m => (m.aliases i).strength? j = some .must) = true ↔
        ∀ m ∈ sources, (m.aliases i).strength? j = some .must := by
      simp only [List.all_eq_true, decide_eq_true_eq]
    rw [← hall]
    constructor
    · intro h
      split at h
      · by_contra hno
        rw [if_neg hno] at h
        nomatch h
      · nomatch h
    · intro h
      -- an edge that is certain in all is there in the first
      obtain ⟨m, hm⟩ := List.exists_mem_of_ne_nil sources hne
      have hany : (sources.any fun m => (m.aliases i).contains j) = true :=
        List.any_eq_true.2 ⟨m, hm, AliasSet.contains_iff.2 ⟨.must, hall.1 h m hm⟩⟩
      rw [if_pos hany, if_pos h]

/-- More sources, and looser ones, make for a looser graph. -/
theorem looserUpTo_takenOver (hne : sources ≠ []) (hne' : sources' ≠ [])
    (h : ∀ m ∈ sources, ∃ m' ∈ sources', o.LooserUpTo m m') :
    o.LooserUpTo (takenOver limit sources) (takenOver limit sources') where
  edge := by
    intro i j hij
    obtain ⟨m, hm, hij⟩ := (edge_takenOver hne).1 hij
    obtain ⟨m', hm', hloose⟩ := h m hm
    exact (edge_takenOver hne').2 ⟨m', hm', hloose.edge hij⟩
  mustEdge := by
    intro i j hij
    by_cases ho : o.MustEdge i j
    · exact .inr ho
    · refine .inl ((mustEdge_takenOver hne).2 fun m hm => ?_)
      obtain ⟨m', hm', hloose⟩ := h m hm
      exact (hloose.mustEdge ((mustEdge_takenOver hne').1 hij m' hm')).resolve_right ho

end Memory
end ScriptMemory
