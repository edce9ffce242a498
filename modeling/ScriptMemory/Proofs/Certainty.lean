import Mathlib.Data.List.Induction
import ScriptMemory.Proofs.Memory.Draft
import ScriptMemory.Proofs.Reachability

/-! Beyond an unknown key or field nothing is certain. A segment names a certain member only if it
is known, aliases of certain locations are all that an expansion makes certain, and the flag that
tells of the unknown segment is never lost. A forced write differs from a usual one at certain
locations only, so it writes the same. -/
namespace ScriptMemory
open Std

/-- Some key or field of the path is unknown. -/
def Path.CrossesUnknown (p : Path) : Prop :=
  ∃ s ∈ p.segments, s.isUnknown = true

instance (p : Path) : Decidable p.CrossesUnknown :=
  inferInstanceAs (Decidable (∃ s ∈ p.segments, s.isUnknown = true))

namespace Locations
variable {l : Locations}

/-- Once an unknown member was crossed, nothing is certain. -/
def Cautious (l : Locations) : Prop :=
  l.unknown = true → ∀ i, i ∉ l.must

theorem cautious_ofVariable (p : Path) (level : Nat) : (ofVariable p level).Cautious :=
  fun h => nomatch h

theorem Cautious.must_eq_empty (h : l.Cautious) (hunknown : l.unknown = true) : l.must = ∅ :=
  ExtTreeSet.eq_empty_iff_forall_not_mem.2 (h hunknown)

/-- What a path denotes, whose segments up to here were `segments`: the flag tells whether one of
them is unknown, and it is heeded. -/
structure Tracks (l : Locations) (segments : List Segment) : Prop where
  unknown_eq : l.unknown = segments.any Segment.isUnknown
  cautious : l.Cautious

theorem tracks_ofVariable (p : Path) (level : Nat) : (ofVariable p level).Tracks [] :=
  ⟨rfl, cautious_ofVariable p level⟩

end Locations

namespace Memory
variable {l : Locations} {s : Segment} {segments : List Segment}

theorem cautious_expand (h : l.Cautious) (m : Memory) (use : AliasReach) :
    (m.expand use l).Cautious := by
  -- both kinds of closure carry the flag on and reach the certain locations alike
  cases use <;> exact fun hunknown =>
    forall_mem_reach (P := fun _ => False) (fun _ => False.elim) fun i hi => h hunknown i hi

theorem cautious_step (h : l.Cautious) (m : Memory) (s : Segment) : (m.step l s).Cautious := by
  intro hunknown j hj
  obtain ⟨i, hi, hij⟩ := List.mem_filterMap.1 (OrdSet.mem_ofList.1 hj)
  -- the unknown segment was crossed before, or it is this one
  rcases Bool.or_eq_true_iff.1 hunknown with hl | hs
  · exact h hl i (ExtTreeSet.mem_toList.1 hi)
  · unfold memberNamed? at hij
    split at hij
    · rw [if_pos hs] at hij
      cases hij
    · cases hij

theorem unknown_expand (m : Memory) (use : AliasReach) (l : Locations) :
    (m.expand use l).unknown = l.unknown := by
  cases use <;> rfl

theorem tracks_expand (h : l.Tracks segments) (m : Memory) (use : AliasReach) :
    (m.expand use l).Tracks segments :=
  ⟨(unknown_expand m use l).trans h.unknown_eq, cautious_expand h.cautious m use⟩

theorem tracks_step (h : l.Tracks segments) (m : Memory) (s : Segment) :
    (m.step l s).Tracks (segments ++ [s]) where
  unknown_eq := by
    change (l.unknown || s.isUnknown) = _
    rw [h.unknown_eq, List.any_append, List.any_cons, List.any_nil, Bool.or_false]
  cautious := cautious_step h.cautious m s

/-- By induction on the segments, each of which is looked up behind an expansion. -/
theorem tracks_follow (m : Memory) (use : AliasReach) (p : Path) (level : Nat) :
    (m.follow use p level).Tracks p.segments := by
  unfold follow
  induction p.segments using List.reverseRecOn with
  | nil => exact Locations.tracks_ofVariable p level
  | append_singleton segments s ih =>
    rw [List.foldl_append]
    exact tracks_step (tracks_expand ih m use) m s

theorem tracks_expandAll (h : l.Tracks segments) (m : Memory) (uses : List AliasReach) :
    (uses.foldl (fun l use => m.expand use l) l).Tracks segments := by
  induction uses generalizing l with
  | nil => exact h
  | cons use uses ih => exact ih (tracks_expand h m use)

end Memory

namespace Draft
variable {l : Locations} {e : Entry}

/-- The containers that are made on the way change the memory, but not what the locations tell about
the segments. -/
theorem tracks_follow (d : Draft) (p : Path) (level : Nat) :
    (d.follow p level).2.Tracks p.segments := by
  unfold follow
  induction p.segments using List.reverseRecOn with
  | nil => exact Locations.tracks_ofVariable p level
  | append_singleton segments s ih =>
    rw [List.foldl_append]
    exact Memory.tracks_step (Memory.tracks_expand ih _ .all) _ s

theorem tracks_resolve (d : Draft) (p : Path) (level : Nat) :
    (d.resolve p level).2.Tracks p.segments :=
  Memory.tracks_expand (d.tracks_follow p level) _ .all

/-- Either the flag is not set and a certain location is replaced anyway, or there is none. -/
theorem storeAll_force (h : l.Cautious) (d : Draft) (e : Entry) (arrays : List ArraySource)
    (force : Bool) : d.storeAll l e arrays force = d.storeAll l e arrays false := by
  unfold storeAll
  cases hunknown : l.unknown with
  | false =>
    rw [Bool.not_false, Bool.or_true, Bool.or_true]
  | true =>
    rw [h.must_eq_empty hunknown]
    rfl

theorem assign_force (d : Draft) (p : Path) (level : Nat) (e : Entry) (force : Bool) :
    d.assign p level e force = d.assign p level e false :=
  storeAll_force (d.tracks_resolve p level).cautious _ _ _ force

end Draft

namespace Edit

theorem assign_force (p : Path) (e : Entry) (force : Bool) :
    assign p e force = assign p e false := by
  unfold assign
  simp only [Draft.assign_force _ p _ e force]

end Edit

namespace Snapshot
variable {p : Path}

/-- To force an assignment makes no difference, since a path that crosses an unknown key or field
denotes nothing certain: not when it is read, nor when it is written, and however often aliases are
added to what it denotes. -/
theorem forced_assign_eq (p : Path) (e : Entry) :
    (∀ s : Snapshot, (assign p e true).run s = (assign p e false).run s) ∧
      (p.CrossesUnknown → ∀ (level : Nat) (uses : List AliasReach),
        (∀ m : Memory, (uses.foldl (fun l use => m.expand use l) (m.resolve p level)).must = ∅) ∧
        ∀ d : Draft, (uses.foldl (fun l use => (d.resolve p level).1.memory.expand use l)
          (d.resolve p level).2).must = ∅) := by
  constructor
  · intro s
    unfold assign
    rw [Edit.assign_force]
  · intro hcrosses level uses
    have hempty {l : Locations} (hl : l.Tracks p.segments) : l.must = ∅ :=
      hl.cautious.must_eq_empty (hl.unknown_eq.trans (List.any_eq_true.2 hcrosses))
    constructor
    · intro m
      have hread := Memory.tracks_expand (m.tracks_follow .must p level) m .must
      exact hempty (Memory.tracks_expandAll hread m uses)
    · intro d
      exact hempty (Memory.tracks_expandAll (d.tracks_resolve p level) _ uses)

set_option maxRecDepth 20000 in
/-- A field of an element at an unknown key of an array that has an alias. The forced write
succeeds, and the element that is there keeps its number. -/
theorem forced_assign_eq_below_unknown_key :
    let a : Path := .ofVariable "a"
    let field : Path := (a.member .unknownKey).member (.field "f")
    let element : Index := (Index.ofVariable "a" .global).member (.key (.integer 1))
    let seven : Entry := .ofValue (.scalar (.integer 7))
    let ops : List Operation :=
      [.start, .change (.assign (a.member (.key (.integer 1))) seven false),
        .change (.assignAlias (.ofVariable "b") a)]
    let s := ops.foldl after {}
    Reachable s ∧ s.phase = .open .initial ∧ field.CrossesUnknown ∧
      (assign field seven true).run s = (assign field seven false).run s ∧
      result? ((assign field seven true).run s) = some () ∧
      ((left ((assign field seven true).run s)).memory.entryOrUndefined element).contains
        (.scalar (.integer 7)) = true ∧
      (s.memory.resolve field 0).must = ∅ ∧ (s.memory.resolve field 0).may ≠ ∅ := by
  intro a field element seven ops s
  have hs : Reachable s := (Reachable.blank {}).foldl
    (by simp [ops, Operation.sources, Mutation.sources])
  have hcrosses : field.CrossesUnknown := by decide
  obtain ⟨heq, hnone⟩ := forced_assign_eq field seven
  exact ⟨hs, by decide +kernel, hcrosses, heq s, by decide +kernel, by decide +kernel,
    (hnone hcrosses 0 []).1 s.memory, by decide +kernel⟩

end Snapshot
end ScriptMemory
