import Mathlib.Data.List.Induction
import ScriptMemory.Analysis.Worklist
import ScriptMemory.Proofs.Memory.Lookup

/-! The worklist is a queue without repetitions: the set of waiting points says the same as the
queue, and points leave it in the order in which they were accepted. -/
namespace ScriptMemory.Worklist
open Std
variable {w w' : Worklist} {p q : Point}

/-- The point waits to be processed. -/
def Waits (w : Worklist) (p : Point) : Prop :=
  p ∈ w.queue

structure Consistent (w : Worklist) : Prop where
  nodup : w.queue.Nodup
  waiting : ∀ p, p ∈ w.waiting ↔ p ∈ w.queue

theorem consistent_empty : empty.Consistent where
  nodup := List.nodup_nil
  waiting := fun p => by simp [empty]

theorem waits_push (hw : w.Consistent) : (w.push p).1.Waits q ↔ w.Waits q ∨ q = p := by
  unfold push Waits
  split
  · next h =>
    have hp : p ∈ w.queue := (hw.waiting p).1 (ExtTreeSet.contains_iff_mem.1 h)
    constructor
    · exact .inl
    · rintro (hq | rfl)
      · exact hq
      · exact hp
  · simp

theorem Consistent.push (hw : w.Consistent) (p : Point) : (w.push p).1.Consistent := by
  unfold Worklist.push
  split
  · exact hw
  · next h =>
    have hp : p ∉ w.queue := fun hm => h (ExtTreeSet.contains_iff_mem.2 ((hw.waiting p).2 hm))
    refine ⟨?_, ?_⟩
    · rw [List.nodup_append]
      refine ⟨hw.nodup, List.pairwise_singleton _ _, ?_⟩
      rintro q hq _ hp' rfl
      rw [List.mem_singleton.1 hp'] at hq
      exact hp hq
    · intro q
      rw [ExtTreeSet.mem_insert, LawfulEqCmp.compare_eq_iff_eq, hw.waiting, List.mem_append,
        List.mem_singleton]
      exact ⟨fun h => h.symm.imp_right Eq.symm, fun h => h.symm.imp_left Eq.symm⟩

theorem Consistent.push_of_waits (hw : w.Consistent) (h : p ∈ w.queue) : w.push p = (w, false) :=
  if_pos (ExtTreeSet.contains_iff_mem.2 ((hw.waiting p).2 h))

theorem Consistent.push_of_not_waits (hw : w.Consistent) (h : p ∉ w.queue) :
    w.push p = (⟨w.queue ++ [p], w.waiting.insert p⟩, true) :=
  if_neg fun hm => h ((hw.waiting p).1 (ExtTreeSet.contains_iff_mem.1 hm))

theorem Consistent.push_accepted_iff (hw : w.Consistent) :
    (w.push p).2 = true ↔ p ∉ w.queue := by
  by_cases h : p ∈ w.queue
  · rw [hw.push_of_waits h]
    exact iff_of_false Bool.false_ne_true fun hnot => hnot h
  · rw [hw.push_of_not_waits h]
    exact iff_of_true rfl h

theorem Consistent.pushAll (hw : w.Consistent) (points : List Point) :
    (w.pushAll points).Consistent := by
  unfold Worklist.pushAll
  induction points generalizing w with
  | nil => exact hw
  | cons p points ih => exact ih (hw.push p)

theorem waits_pushAll (hw : w.Consistent) {points : List Point} :
    (w.pushAll points).Waits q ↔ w.Waits q ∨ q ∈ points := by
  unfold pushAll
  induction points generalizing w with
  | nil => simp
  | cons p points ih =>
    rw [List.foldl_cons, ih (hw.push p), waits_push hw, List.mem_cons, or_assoc]

/-- Popping takes the first point out of the queue and of the set. -/
theorem Consistent.pop (hw : w.Consistent) (h : w.pop? = some (p, w')) :
    w'.Consistent ∧ ∀ q, w.Waits q ↔ q = p ∨ w'.Waits q := by
  unfold pop? at h
  split at h
  · cases h
  · next rest hq =>
    cases h
    have hnodup := hw.nodup
    rw [hq, List.nodup_cons] at hnodup
    refine ⟨⟨hnodup.2, ?_⟩, ?_⟩
    · -- the queue has no repetitions, so the popped point is not in the rest
      intro q
      rw [ExtTreeSet.mem_erase, hw.waiting, hq, List.mem_cons]
      constructor
      · rintro ⟨hne, rfl | hm⟩
        · exact absurd ReflCmp.compare_self hne
        · exact hm
      · intro hm
        refine ⟨?_, .inr hm⟩
        intro he
        rw [LawfulEqCmp.compare_eq_iff_eq] at he
        exact hnodup.1 (he ▸ hm)
    · intro q
      unfold Waits
      rw [hq, List.mem_cons]

theorem queue_of_pop? (h : w.pop? = some (p, w')) : w.queue = p :: w'.queue := by
  unfold pop? at h
  split at h
  · cases h
  · next hq =>
    cases h
    exact hq

theorem pop?_eq_none : w.pop? = none ↔ w.queue = [] := by
  unfold pop?
  split <;> simp_all

theorem Consistent.eq_empty (hw : w.Consistent) (h : w.pop? = none) : w = empty := by
  have hq : w.queue = [] := pop?_eq_none.1 h
  have hwaiting : w.waiting = ∅ := by
    apply ExtTreeSet.ext_mem
    intro p
    rw [hw.waiting, hq]
    simp
  cases w
  simp_all [empty]

/-- Some nodes of the script, queued in order. -/
def ofNodes (nodes : List Nat) : Worklist :=
  empty.pushAll (nodes.map (Point.mk .main))

theorem consistent_ofNodes (nodes : List Nat) : (ofNodes nodes).Consistent :=
  consistent_empty.pushAll _

theorem waits_ofNodes {nodes : List Nat} :
    (ofNodes nodes).Waits p ↔ p.context = .main ∧ p.node ∈ nodes := by
  unfold ofNodes
  rw [waits_pushAll consistent_empty, List.mem_map]
  constructor
  · rintro (h | ⟨node, hnode, rfl⟩)
    · cases h
    · exact ⟨rfl, hnode⟩
  · rintro ⟨hctx, hnode⟩
    exact .inr ⟨p.node, hnode, by rw [← hctx]⟩

/-- What a worklist may be asked to do. -/
inductive Call where
  | push (p : Point)
  | pop

/-- A worklist with the pushes that it accepted and the points that were popped, both in order. -/
structure History where
  worklist : Worklist := empty
  accepted : List Point := []
  popped : List Point := []

namespace History
variable {h : History}

/-- One more call. A push is accepted if it says that the point was not waiting already. -/
def after (h : History) : Call → History
  | .push p =>
    let (w, isNew) := h.worklist.push p
    { h with worklist := w, accepted := if isNew then h.accepted ++ [p] else h.accepted }
  | .pop =>
    match h.worklist.pop? with
    | some (p, w) => { h with worklist := w, popped := h.popped ++ [p] }
    | none => h

/-- The history of some calls on a new worklist. -/
def ofCalls (calls : List Call) : History :=
  calls.foldl after {}

/-- Every accepted point was popped or waits, in the order in which the points were accepted. -/
structure Orderly (h : History) : Prop where
  consistent : h.worklist.Consistent
  order : h.popped ++ h.worklist.queue = h.accepted

theorem orderly_new : Orderly {} :=
  ⟨consistent_empty, rfl⟩

/-- A push that is accepted appends its point to the queue; another one changes nothing. -/
theorem Orderly.push (hh : h.Orderly) (p : Point) : (h.after (.push p)).Orderly := by
  refine ⟨hh.consistent.push p, ?_⟩
  have horder := hh.order
  unfold after
  dsimp only
  by_cases hwaits : p ∈ h.worklist.queue
  · rw [hh.consistent.push_of_waits hwaits]
    exact horder
  · rw [hh.consistent.push_of_not_waits hwaits]
    change h.popped ++ (h.worklist.queue ++ [p]) = h.accepted ++ [p]
    rw [← List.append_assoc, horder]

/-- A pop takes the point from the front of those that wait to the end of those that were popped. -/
theorem Orderly.pop (hh : h.Orderly) : (h.after .pop).Orderly := by
  unfold after
  cases hpop : h.worklist.pop? with
  | none => exact hh
  | some popped =>
    obtain ⟨p, w⟩ := popped
    refine ⟨(hh.consistent.pop hpop).1, ?_⟩
    have hqueue : h.worklist.queue = p :: w.queue := queue_of_pop? hpop
    have horder := hh.order
    rw [hqueue] at horder
    change h.popped ++ [p] ++ w.queue = h.accepted
    rw [← horder, List.append_assoc]
    rfl

theorem Orderly.after (hh : h.Orderly) (c : Call) : (h.after c).Orderly := by
  cases c with
  | push p => exact hh.push p
  | pop => exact hh.pop

/-- By induction on the calls, from the last one backwards. -/
theorem orderly_ofCalls (calls : List Call) : (ofCalls calls).Orderly := by
  unfold ofCalls
  induction calls using List.reverseRecOn with
  | nil => exact orderly_new
  | append_singleton calls c ih =>
    rw [List.foldl_append]
    exact ih.after c

/-- Whatever was pushed and popped so far, no point waits twice, the set of waiting points is the
queue, a push is accepted exactly if its point does not wait, and a pop has an answer as long as any
point waits. The points popped and then the points that wait are the accepted ones in their order,
none of them lost or doubled. -/
theorem ofCalls_in_order (calls : List Call) :
    let h := ofCalls calls
    h.worklist.queue.Nodup ∧ (∀ p, p ∈ h.worklist.waiting ↔ p ∈ h.worklist.queue) ∧
      (∀ p, (h.worklist.push p).2 = true ↔ p ∉ h.worklist.queue) ∧
      (h.worklist.pop? = none ↔ h.worklist.queue = []) ∧
      h.popped ++ h.worklist.queue = h.accepted := by
  intro h
  have hh : h.Orderly := orderly_ofCalls calls
  exact ⟨hh.consistent.nodup, hh.consistent.waiting, fun p => hh.consistent.push_accepted_iff,
    pop?_eq_none, hh.order⟩

-- a point that was popped may wait again
example : (ofCalls [.push ⟨.main, 0⟩, .push ⟨.main, 1⟩, .push ⟨.main, 0⟩, .pop,
    .push ⟨.main, 0⟩]).accepted = [⟨.main, 0⟩, ⟨.main, 1⟩, ⟨.main, 0⟩] := by
  decide +kernel

end History

end ScriptMemory.Worklist
