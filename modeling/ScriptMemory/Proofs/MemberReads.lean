import ScriptMemory.Proofs.Memory.Growth
import ScriptMemory.Proofs.UnknownReads

/-! Reading a member of a location, and reading a path one segment longer. Both look the member up
in the same containers. A path marks the one member that it is sure of as certain, where the direct
read takes all members for possible; reading looks at all of them alike. -/
namespace ScriptMemory
open Std

namespace Locations
variable {l l' : Locations}

theorem isEmpty_eq (l : Locations) : l.isEmpty = l.toList.isEmpty := by
  unfold isEmpty toList
  rw [← ExtTreeSet.isEmpty_toList, ← ExtTreeSet.isEmpty_toList]
  cases l.must.toList <;> rfl

/-- Whether a location is certain makes no difference to what is read. -/
theorem readLocations_congr (m : Memory) (hlist : l.toList = l'.toList)
    (hunknown : l.unknown = l'.unknown) : m.readLocations l = m.readLocations l' := by
  unfold Memory.readLocations
  rw [isEmpty_eq, isEmpty_eq, hlist, hunknown]

end Locations

namespace Memory
variable {m : Memory} {i : Index} {s : Segment}

/-- What a direct read of a member looks at. -/
def namedBelow (m : Memory) (i : Index) (s : Segment) : Locations :=
  { may := .ofList (m.membersNamed i s), unknown := s.isUnknown }

/-- Where no member is certain, a step leads to the very locations of a direct read. -/
theorem step_single_of_none (hnone : m.memberNamed? i s = none) :
    m.step (.single i) s = m.namedBelow i s := by
  have hmust : (Locations.single i).must.toList = [i] := Locations.toList_insert_empty i
  have hdiff (all : OrdSet Index) : all \ (∅ : OrdSet Index) = all := by
    apply ExtTreeSet.ext_mem
    intro j
    rw [ExtTreeSet.mem_diff_iff]
    exact and_iff_left ExtTreeSet.not_mem_empty
  unfold step namedBelow
  simp only [hmust, Locations.toList_single, List.filterMap_cons, List.filterMap_nil, hnone,
    List.flatMap_cons, List.flatMap_nil, List.append_nil]
  change (⟨∅, _ \ (∅ : OrdSet Index), _⟩ : Locations) = _
  rw [hdiff]
  rfl

/-- A step names the members of a direct read, in the same order. -/
theorem step_single_alike (m : Memory) (i : Index) (s : Segment) :
    (m.step (.single i) s).toList = (m.namedBelow i s).toList ∧
      (m.step (.single i) s).unknown = (m.namedBelow i s).unknown := by
  refine ⟨?_, Bool.false_or _⟩
  cases hnamed : m.memberNamed? i s with
  | none => rw [step_single_of_none hnamed]
  | some j =>
    -- only a known segment below a single container names a certain member
    unfold memberNamed? at hnamed
    split at hnamed
    · next c hc =>
      obtain ⟨hs, -⟩ := Option.ite_none_left_eq_some.1 hnamed
      rw [Bool.not_eq_true] at hs
      have hmembers : m.membersNamed i s = [c.member s] := by
        unfold membersNamed
        rw [hc, hs]
        rfl
      rw [step_single_of hc hs, Locations.toList_single]
      unfold namedBelow Locations.toList
      rw [hmembers, Locations.toList_empty]
      exact (Locations.toList_insert_empty _).symm
    · cases hnamed

/-- By induction on the segments, none of which makes more locations certain. -/
theorem Unaliased.sole_follow (h : m.Unaliased) (use : AliasReach) (p : Path) (level : Nat) :
    (m.follow use p level).Sole := by
  unfold follow
  induction p.segments using List.reverseRecOn with
  | nil => exact .inl ⟨_, rfl⟩
  | append_singleton segments s ih =>
    rw [List.foldl_append]
    change (m.step (m.expand use _) s).Sole
    rw [expand_eq_self h ih.separate]
    exact ih.step m s

theorem Unaliased.resolve_eq_follow (h : m.Unaliased) (p : Path) (level : Nat) :
    m.resolve p level = m.follow .must p level :=
  expand_eq_self h (h.sole_follow .must p level).separate .must

/-- Without aliases, a path that certainly means one location means that one only. -/
theorem Unaliased.resolve_eq_single (h : m.Unaliased) {p : Path} {level : Nat}
    (hi : (m.resolve p level).must.toList = [i]) : m.resolve p level = .single i := by
  have hmem : i ∈ (m.resolve p level).must := by
    rw [← ExtTreeSet.mem_toList, hi]
    exact List.mem_singleton.2 rfl
  rw [h.resolve_eq_follow] at hmem ⊢
  exact (h.sole_follow .must p level).eq_single hmem

/-- Where no location has an alias and a path certainly means the location `i`, reading a member of
`i` is reading the path with the member's segment behind it: be the member a key or a field, known
or not, there or not, of an array, of several objects or of anything else. A path that certainly
means a location crosses no unknown key or field. -/
theorem readMember_eq_readAt (h : m.Unaliased) {p : Path} {level : Nat}
    (hi : (m.resolve p level).must.toList = [i]) (s : Segment) :
    m.readMember i s = m.readAt (p.member s) level := by
  have hstep : m.resolve (p.member s) level = m.step (.single i) s := by
    have hsole : (m.step (.single i) s).Sole := Locations.Sole.step (.inl ⟨i, rfl⟩) m s
    rw [resolve_member, h.resolve_eq_single hi]
    exact expand_eq_self h hsole.separate .must
  obtain ⟨hlist, hunknown⟩ := step_single_alike m i s
  change m.readLocations (m.namedBelow i s) = m.readLocations (m.resolve (p.member s) level)
  rw [hstep, Locations.readLocations_congr m hlist hunknown]

end Memory

namespace Snapshot

set_option maxRecDepth 20000 in
/-- An element of an array refers to either of two objects, of which one has a field. -/
theorem readMember_eq_readAt_objects :
    let x : Path := (Path.ofVariable "x").member (.key (.integer 1))
    let a : Value := .object ⟨"a", "A"⟩
    let b : Value := .object ⟨"b", "B"⟩
    let seven : Value := .scalar (.integer 7)
    let ops : List Operation := [.start, .change (.createObject "A" "a" [("f", .ofValue seven)]),
      .change (.createObject "B" "b" []), .change (.assign x (.ofList [a, b]) false)]
    let s := ops.foldl after {}
    let i : Index := (Index.ofVariable "x" .global).member (.key (.integer 1))
    Reachable s ∧ s.memory.Unaliased ∧
      (s.memory.resolve x s.memory.level).must.toList = [i] ∧
      s.memory.readMember i (.field "f") = s.memory.read (x.member (.field "f")) ∧
      s.memory.read (x.member (.field "f")) = .ofList [.undefined, seven] ∧
      s.memory.readMember i .unknownField = s.memory.read (x.member .unknownField) ∧
      s.memory.read (x.member .unknownField) = .ofValue (.anyOf .integer) := by
  intro x a b seven ops s i
  have hu : s.memory.Unaliased := .of_keys (by decide +kernel)
  have hi : (s.memory.resolve x s.memory.level).must.toList = [i] := by decide +kernel
  exact ⟨(Reachable.blank {}).foldl (by simp [ops, Operation.sources, Mutation.sources]), hu, hi,
    Memory.readMember_eq_readAt hu hi _, by decide +kernel, Memory.readMember_eq_readAt hu hi _,
    by decide +kernel⟩

end Snapshot
end ScriptMemory
