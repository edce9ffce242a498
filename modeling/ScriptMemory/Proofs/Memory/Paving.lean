import ScriptMemory.Proofs.Memory.Conflation
import ScriptMemory.Proofs.Memory.ValueTree

/-! Following keys for writing. Every location on the way down comes to hold its own array; one that
has held something else loses it, and nothing else changes. -/
namespace ScriptMemory
open Std

namespace Index
variable {i j x : Index} {s : Segment}

/-- The location is passed on the way from `i` down to `x`. -/
def OnWay (i x j : Index) : Prop :=
  i.Contains j ∧ j.Contains x ∧ j ≠ x

theorem onWay_iff (hx : (i.member s).Contains x) :
    OnWay i x j ↔ j = i ∨ OnWay (i.member s) x j := by
  constructor
  · rintro ⟨hj, hjx, hne⟩
    rcases contains_iff.1 hj with rfl | ⟨t, ht⟩
    · exact .inl rfl
    · rw [Contains.segment_eq hx (ht.trans hjx)]
      exact .inr ⟨ht, hjx, hne⟩
  · rintro (rfl | ⟨hj, hjx, hne⟩)
    · refine ⟨contains_refl j, (contains_member j s).trans hx, ?_⟩
      rintro rfl
      exact not_member_contains j s hx
    · exact ⟨(contains_member i s).trans hj, hjx, hne⟩

theorem not_onWay_self (i : Index) : ¬OnWay i i j := by
  rintro ⟨hij, hji, hne⟩
  exact hne (hji.eq_of_depth_le hij.depth_le)

/-- The way to a member of `j` leads past `j`. -/
theorem OnWay.parent (h : OnWay i x (j.member s)) (hne : i ≠ j.member s) : OnWay i x j := by
  refine ⟨(contains_member_iff.1 h.1).resolve_left hne, (contains_member j s).trans h.2.1, ?_⟩
  rintro rfl
  exact not_member_contains j s h.2.1

end Index

namespace Draft
variable {d d' d'' : Draft} {i j x : Index} {s : Segment} {W W' : Index → Prop}

/-- The draft `d'` is `d` after every location in `W` has been given an array of its own, unless it
had one. -/
structure Paved (d : Draft) (W : Index → Prop) (d' : Draft) : Prop where
  consistent : d'.memory.Consistent
  limit_eq : d'.limit = d.limit
  level_eq : d'.memory.level = d.memory.level
  aliases_eq : ∀ j, d'.memory.aliases j = d.memory.aliases j
  entry?_of : ∀ j, W j → d.memory.holdsArray j = false →
    d'.memory.entry? j = some (.ofValue (.array j))
  entry?_eq : ∀ j, (W j → d.memory.holdsArray j = true) →
    d'.memory.entry? j = d.memory.entry? j
  members : ∀ j s, s ∈ (d.memory.cell j).members → s ∈ (d'.memory.cell j).members
  listed : ∀ j s, W (j.member s) → d.memory.holdsArray (j.member s) = false →
    d'.memory.holdsArray j = true → s ∈ (d'.memory.cell j).members

namespace Paved

theorem holdsArray_of (h : d.Paved W d') (hj : W j) : d'.memory.holdsArray j = true := by
  cases hholds : d.memory.holdsArray j with
  | true => rw [Memory.holdsArray_congr (h.entry?_eq j fun _ => hholds), hholds]
  | false =>
    exact Memory.holdsArray_iff.2 ⟨_, h.entry?_of j hj hholds, Entry.mem_ofValue.2 rfl⟩

theorem holdsArray_eq (h : d.Paved W d') (hj : ¬W j) :
    d'.memory.holdsArray j = d.memory.holdsArray j :=
  Memory.holdsArray_congr (h.entry?_eq j fun hw => absurd hw hj)

/-- First the locations above are dealt with, then those below. -/
theorem trans (h : d.Paved W d') (h' : d'.Paved W' d'')
    (hbelow : ∀ j s, W (j.member s) → ¬W' j) : d.Paved (fun j => W j ∨ W' j) d'' where
  consistent := h'.consistent
  limit_eq := h'.limit_eq.trans h.limit_eq
  level_eq := h'.level_eq.trans h.level_eq
  aliases_eq := fun j => (h'.aliases_eq j).trans (h.aliases_eq j)
  entry?_of := by
    intro j hj hnone
    by_cases hw : W j
    · rw [h'.entry?_eq j fun _ => h.holdsArray_of hw]
      exact h.entry?_of j hw hnone
    · exact h'.entry?_of j (hj.resolve_left hw) ((h.holdsArray_eq hw).trans hnone)
  entry?_eq := by
    intro j hj
    have hsame := h.entry?_eq j fun hw => hj (.inl hw)
    rw [h'.entry?_eq j fun hw => (Memory.holdsArray_congr hsame).trans (hj (.inr hw)), hsame]
  members := fun j s hs => h'.members j s (h.members j s hs)
  listed := by
    intro j s hj hnone hholds
    by_cases hw : W (j.member s)
    · apply h'.members
      exact h.listed j s hw hnone ((h'.holdsArray_eq (hbelow j s hw)).symm.trans hholds)
    · exact h'.listed j s (hj.resolve_left hw) ((h.holdsArray_eq hw).trans hnone) hholds

/-- Where every location on a way holds its own array afterwards, what was listed still is, and
what is new is listed as well. -/
theorem listedBelow {r : Root} {z : Index} (h : d.Paved ((Index.root r).OnWay x) d')
    (hz : d.memory.ListedBelow z) : d'.memory.ListedBelow z := by
  intro segments
  induction segments using List.reverseRecOn with
  | nil => exact fun _ _ => trivial
  | append_singleton segments s ih =>
    intro e he
    rw [Index.descend_append] at he
    change d'.memory.entry? ((z.descend segments).member s) = some e at he
    have hs : s ∈ (d'.memory.cell (z.descend segments)).members := by
      by_cases hnew : (Index.root r).OnWay x ((z.descend segments).member s) ∧
          d.memory.holdsArray ((z.descend segments).member s) = false
      · exact h.listed _ s hnew.1 hnew.2 (h.holdsArray_of (hnew.1.parent nofun))
      · have hsame := h.entry?_eq ((z.descend segments).member s) fun hw =>
          Bool.not_eq_false _ ▸ fun hnone => hnew ⟨hw, hnone⟩
        have hold := hsame.symm.trans he
        have hlists := hz (segments ++ [s]) e (by rw [Index.descend_append]; exact hold)
        exact h.members _ s (Memory.listsAlong_append.1 hlists).2.1
    obtain ⟨f, hf, -⟩ := Memory.holdsArray_iff.1 (h.consistent.member _ s hs).1
    exact Memory.listsAlong_append.2 ⟨ih f hf, hs, trivial⟩

end Paved

theorem paved_of_none (h : d.memory.Consistent) (hW : ∀ j, W j → d.memory.holdsArray j = true) :
    d.Paved W d where
  consistent := h
  limit_eq := rfl
  level_eq := rfl
  aliases_eq := fun _ => rfl
  entry?_of := fun j hj hnone => nomatch (hW j hj).symm.trans hnone
  entry?_eq := fun _ _ => rfl
  members := fun _ _ => id
  listed := fun _ _ hj hnone => nomatch (hW _ hj).symm.trans hnone

/-- A location is given an array of its own. -/
theorem paved_prepare (hlimit : d.limit = none) (h : d.memory.Consistent)
    (hi : ∀ id, i.base ≠ .object id) (k : Key) :
    d.Paved (· = i) (d.prepare (.key k) true i) := by
  cases hholds : d.memory.holdsArray i with
  | true =>
    rw [prepare_of_opened (s := .key k) hholds]
    refine paved_of_none h ?_
    rintro j rfl
    exact hholds
  | false =>
    have hown : (Entry.ofValue (.array i)).contains (.array i) = true := by
      rw [Entry.contains_eq_true, Entry.mem_ofValue]
    have hmemory : (d.prepare (.key k) true i).memory =
        (d.memory.register i).put i (.ofValue (.array i)) := by
      rw [prepare_key rfl (Bool.eq_false_iff.1 hholds), add, write_memory, fit_of_limit hlimit]
      exact h.write_eq fun hc => nomatch hholds.symm.trans hc
    have hmembers (j : Index) : ((d.prepare (.key k) true i).memory.cell j).members =
        ((d.memory.register i).cell j).members := by
      rw [hmemory, Memory.members_put, if_pos hown]
      split
      · next hj =>
        subst hj
        rfl
      · rfl
    constructor
    · rw [hmemory]
      exact Memory.consistent_put h (Entry.all_ofValue (Value.belongs_array i))
    · rw [prepare_key rfl (Bool.eq_false_iff.1 hholds)]
      exact limit_write ..
    · rw [hmemory, Memory.level_put, Memory.level_register]
    · intro j
      rw [hmemory, Memory.aliases_put, Memory.aliases_register]
    · rintro j rfl -
      rw [hmemory, Memory.entry?_put_register, if_pos rfl]
    · intro j hj
      have hne : j ≠ i := by
        rintro rfl
        exact nomatch hholds.symm.trans (hj rfl)
      rw [hmemory, Memory.entry?_put_register, if_neg hne]
    · intro j s hs
      rw [hmembers]
      exact Memory.mem_members_register_of_mem hs i
    · rintro j s rfl - hparent
      have hsame := (Memory.entry?_put_register d.memory (j.member s) j
        (.ofValue (.array (j.member s)))).trans (if_neg (Index.ne_member j s))
      rw [hmemory, Memory.holdsArray_congr hsame] at hparent
      have hroot (id : ObjectId) (hj : j = .object id) : False := by
        subst hj
        exact hi id rfl
      rw [hmembers, Memory.mem_members_register_member hroot hparent]
      exact .inl rfl

/-- Following keys for writing leads to one location. -/
theorem paved_follow (hlimit : d.limit = none) (h : d.memory.Consistent) (hu : d.memory.Unaliased)
    (hi : ∀ id, i.base ≠ .object id) (keys : List Key) :
    ∃ d', (segmentsOf keys).foldl (fun dl s => advance s dl) (d, .single i) =
        (d', .single (i.descend (segmentsOf keys))) ∧
      d.Paved (i.OnWay (i.descend (segmentsOf keys))) d' := by
  induction keys generalizing d i with
  | nil => exact ⟨d, rfl, paved_of_none h fun j hj => absurd hj (Index.not_onWay_self i)⟩
  | cons k keys ih =>
    have hone := paved_prepare hlimit h hi k
    obtain ⟨d', hfold, hrest⟩ := ih (i := i.member (.key k)) (hone.limit_eq.trans hlimit)
      hone.consistent (fun j => (hone.aliases_eq j).trans (hu j)) hi
    have hbelow : ∀ j s, j.member s = i → ¬(i.member (.key k)).OnWay
        ((i.member (.key k)).descend (segmentsOf keys)) j := by
      rintro j s rfl ⟨hc, -, -⟩
      exact Index.not_member_contains _ _ (hc.trans (Index.contains_member j s))
    refine ⟨d', ?_, ?_⟩
    · change List.foldl _ (advance (.key k) (d, .single i)) (segmentsOf keys) = _
      rw [advance_single hu]
      exact hfold
    · have hway : i.OnWay (i.descend (segmentsOf (k :: keys))) = fun j => j = i ∨
          (i.member (.key k)).OnWay ((i.member (.key k)).descend (segmentsOf keys)) j :=
        funext fun j => propext (Index.onWay_iff ⟨segmentsOf keys, rfl⟩)
      rw [hway]
      exact hone.trans hrest hbelow

end Draft
end ScriptMemory
