import ScriptMemory.Proofs.Analysis.Contract

/-! Runs in which one point waits at a time. A step there is the first visit of a point: it commits
what the point takes in, as it is, and hands over to at most one other point. -/
namespace ScriptMemory
open Std

namespace AnalysisState
variable {a : Analysis} {s s' r : AnalysisState} {id id' : ContextId} {c : Context}

/-- Of the contexts that are known, one is worked on, and more may be found. -/
structure ChangesOnly (s : AnalysisState) (id : ContextId) (s' : AnalysisState) : Prop where
  grows : s.Grows s'
  view : ∀ u : Point, u.context < s.contexts.length → u.context ≠ id → s'.view u = s.view u
  calls : ∀ u : Point, u.context < s.contexts.length → u.context ≠ id → s'.calls[u]? = s.calls[u]?

/-- A context that was not known before may be worked on as well. -/
theorem ChangesOnly.trans (h : s.ChangesOnly id r) (h' : r.ChangesOnly id' s')
    (hid : id' = id ∨ s.contexts.length ≤ id') : s.ChangesOnly id s' := by
  have hlength := h.grows.length_le
  have hother {u : Point} (hu : u.context < s.contexts.length) (hne : u.context ≠ id) :
      u.context < r.contexts.length ∧ u.context ≠ id' := by
    refine ⟨Nat.lt_of_lt_of_le hu hlength, ?_⟩
    rcases hid with rfl | hle
    · exact hne
    · exact Nat.ne_of_lt (Nat.lt_of_lt_of_le hu hle)
  refine ⟨fun i c hc => h'.grows i c (h.grows i c hc), fun u hu hne => ?_, fun u hu hne => ?_⟩
  · obtain ⟨hu', hne'⟩ := hother hu hne
    rw [h'.view u hu' hne', h.view u hu hne]
  · obtain ⟨hu', hne'⟩ := hother hu hne
    rw [h'.calls u hu' hne', h.calls u hu hne]

end AnalysisState

namespace Analysis
open Transact Memory
variable {a : Analysis} {s s' r : AnalysisState} {p q u : Point} {c : Context} {st : Statement}
  {target : Option CallTarget} {x : Intake} {n : Memory} {level i : Nat} {waiting : Option Point}
  {id : ContextId}

/-- At most one point waits. -/
structure Poised (a : Analysis) (s : AnalysisState) (waiting : Option Point) : Prop where
  invariant : a.Invariant s s.worklist.Waits
  consistent : s.worklist.Consistent
  queue : s.worklist.queue = waiting.toList

theorem Poised.pop (h : a.Poised s (some p)) : s.worklist.pop? = some (p, .empty) := by
  have hpop : s.worklist.pop? = some (p, ⟨[], s.worklist.waiting.erase p⟩) := by
    unfold Worklist.pop?
    rw [h.queue]
    rfl
  rw [hpop, ← (h.consistent.pop hpop).1.eq_empty rfl]

/-- Nothing is known of a context that is not there yet. -/
theorem Poised.unseen (h : a.Poised s waiting) (hu : s.contexts.length ≤ u.context) :
    s.view u = none ∧ s.calls[u]? = none := by
  have hnone {c : Context} (hc : s.contexts[u.context]? = some c) : False :=
    Nat.not_lt.2 hu (AnalysisState.lt_length hc)
  constructor
  · cases hview : s.view u with
    | none => rfl
    | some m =>
      obtain ⟨c, st, target, hsite, -⟩ := h.invariant.known u (by rw [hview]; rfl)
      exact (hnone hsite.context).elim
  · cases hcall : s.calls[u]? with
    | none => rfl
    | some id =>
      obtain ⟨c, hc, hcaller⟩ := (h.invariant.tree.calls u id).1 hcall
      obtain ⟨caller, -, -, hctx, -⟩ := h.invariant.tree.entered id c u hc hcaller
      exact (hnone hctx).elim

theorem queue_pushAll (waiting : Option Point) :
    (Worklist.empty.pushAll waiting.toList).queue = waiting.toList := by
  cases waiting with
  | none => rfl
  | some q =>
    have hnew : Worklist.empty.waiting.contains q = false := ExtTreeSet.contains_empty
    change (Worklist.empty.push q).1.queue = [q]
    unfold Worklist.push
    rw [hnew]
    rfl

/-- A step visits `p` and commits `n` there. -/
structure Advances (a : Analysis) (s : AnalysisState) (p : Point) (n : Memory)
    (waiting : Option Point) (s' : AnalysisState) : Prop where
  steps : a.Steps 1 s s'
  poised : a.Poised s' waiting
  grows : s.Grows s'
  view : ∀ u, s'.view u = if u = p then some n else s.view u
  calls : ∀ u, u ≠ p → s'.calls[u]? = s.calls[u]?

/-- The first visit of the point that waits. Nothing is widened yet. -/
theorem Poised.visit (h : a.Poised s (some p)) (hp : a.program.IsBuilt)
    (hwidening : a.config.limits.widening.any (· < 1) = false) (hunseen : s.view p = none)
    (hc : s.contexts[p.context]? = some c)
    (hst : c.function.graph.statement? p.node = some st)
    (htarget : a.targetOf { s with worklist := .empty } c.function p st = .ok (r, target))
    (hcalls : ∀ u, u ≠ p → r.calls[u]? = s.calls[u]?)
    (hx : intake? r.contexts c p st target (r.viewFrom p (a.previous r p)) = some x)
    (hfits : x.Fits level)
    (hyields : ∀ before, Yields (a.transfer r c p st target x) a.config.limits before () n)
    (hnext : successors r c p target = waiting.toList) :
    ∃ s', a.Advances s p n waiting s' ∧ s'.contexts = r.contexts := by
  let s₀ : AnalysisState := { s with worklist := .empty }
  obtain ⟨hinv, -⟩ := h.invariant.pop hp h.consistent h.pop
  obtain ⟨r', target', htarget', htree, hg, hsnapshots, hworklist, hsite⟩ :=
    targetOf_spec (s := s₀) hp hinv.tree hc hst
  obtain ⟨rfl, rfl⟩ := Prod.mk.inj (Except.ok.inj (htarget.symm.trans htarget'))
  have hview : r.view = s.view := view_congr (s := s₀) hsnapshots
  have hrests : a.Rests r := by
    unfold Rests
    rw [hsnapshots]
    exact hinv.rests
  -- nothing has been committed here yet
  have hunseen' : r.view p = none := by rw [hview, hunseen]
  have hnone : r.snapshots[p]? = none := Option.map_eq_none_iff.1 hunseen'
  have hprevious : a.previous r p = { limits := a.config.limits } := by
    unfold previous
    rw [hnone]
    rfl
  obtain ⟨input, hinput, hcases⟩ := visitWith_spec hp htree hrests hsite
  have hstep := step_eq (s := s₀) hc hst htarget hinput
  rcases hcases with ⟨hempty, -⟩ | ⟨x', hx', ⟨n', t, hout, hcommits, -, hok⟩ | ⟨hrefused, -⟩⟩
  · rw [hx] at hempty
    cases hempty
  · obtain rfl : x = x' := Option.some.inj (hx.symm.trans hx')
    obtain ⟨rfl, -⟩ := (hout.yields .initial).unique (hyields .initial)
    -- nor is anything widened by the first commit
    have hmemory : t.memory = n' := by
      rw [hout.memory, hcommits, hprevious]
      unfold committed
      rw [if_neg]
      rintro ⟨-, hwide⟩
      exact Bool.false_ne_true (hwidening.symm.trans hwide)
    have hdone : a.step s₀ p = .ok (a.visited r c p target t) := hstep.trans hok
    obtain ⟨hinv', hw'⟩ := Invariant.step (s := s₀) hinv hp Worklist.consistent_empty hdone
    refine ⟨_, ⟨.step h.pop hdone (.refl _), ⟨hinv', hw', ?_⟩, hg, fun u => ?_, hcalls⟩, rfl⟩
    · unfold visited recordVisit
      dsimp only
      rw [hnone, Option.isNone_none, Bool.or_true, if_pos rfl, hworklist, hnext]
      exact queue_pushAll waiting
    · rw [view_visited, hmemory, hview]
  · obtain rfl : x = x' := Option.some.inj (hx.symm.trans hx')
    exact absurd hfits (hrefused level)

theorem Advances.changesOnly (h : a.Advances s ⟨id, i⟩ n waiting s') : s.ChangesOnly id s' where
  grows := h.grows
  view := by
    intro u _ hne
    rw [h.view, if_neg]
    rintro rfl
    exact hne rfl
  calls := by
    intro u _ hne
    apply h.calls
    rintro rfl
    exact hne rfl

end Analysis
end ScriptMemory
