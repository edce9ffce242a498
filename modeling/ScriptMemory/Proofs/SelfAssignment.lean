import ScriptMemory.Proofs.Memory.Courses
import ScriptMemory.Proofs.Restoration

/-! A path that is assigned what it reads. Where it denotes one location only, all values stay, and
so does the whole structure but for one thing: members are made anew when the location is replaced,
so the aliases that they had are lost. Then, and only then, the commit reports a change. -/
namespace ScriptMemory
open Std

namespace Memory
variable {m : Memory} {p : Path} {level : Nat} {l : Locations} {i : Index} {e : Entry}

/-- What a path reads that denotes one location. -/
theorem readAt_of_single (hknown : ¬p.CrossesUnknown) (hl : (m.resolve p level).toList = [i]) :
    m.readAt p level = m.readIndex i := by
  have hunknown : (m.resolve p level).unknown = false := by
    rw [resolve, (tracks_expand (tracks_follow m .must p level) m .must).unknown_eq,
      ← Bool.not_eq_true, List.any_eq_true]
    exact hknown
  have hmem : i ∈ (m.resolve p level).toList := by
    rw [hl]
    exact List.mem_singleton_self i
  unfold readAt readLocations
  rw [if_neg (Locations.not_isEmpty_of_mem hmem), hunknown, if_neg Bool.false_ne_true, hl]
  exact Entry.empty_join _

theorem unknown_targets (hknown : ¬p.CrossesUnknown) (m : Memory) (level : Nat) :
    (m.targets p level).unknown = false := by
  rw [targets, (tracks_expand (tracks_follow m .all p level) m .all).unknown_eq,
    ← Bool.not_eq_true, List.any_eq_true]
  exact hknown

/-- Those of the locations that are there are listed by their containers. -/
def NoOrphans (m : Memory) (l : Locations) : Prop :=
  l.All fun j => m.isDefined j = true → m.Lists j

/-- Where the segments lead for writing, with all aliases, no location is left over without its
container. -/
def NoOrphansAlong (m : Memory) : Locations → List Segment → Prop
  | l, [] => m.NoOrphans (m.expand .all l)
  | l, s :: segments => m.NoOrphans (m.expand .all l) ∧
    m.NoOrphansAlong (m.step (m.expand .all l) s) segments

/-- The locations that the segments lead to for writing. -/
def reached (m : Memory) (l : Locations) (segments : List Segment) : Locations :=
  m.expand .all (segments.foldl (fun l s => m.step (m.expand .all l) s) l)

section
variable {c j : Index} {t : Segment} {segments : List Segment}

theorem reached_cons (m : Memory) (l : Locations) (t : Segment) (segments : List Segment) :
    m.reached l (t :: segments) = m.reached (m.step (m.expand .all l) t) segments :=
  rfl

theorem NoOrphansAlong.noOrphans (hway : m.NoOrphansAlong l segments) :
    m.NoOrphans (m.expand .all l) := by
  cases segments with
  | nil => exact hway
  | cons t segments => exact hway.1

theorem NoOrphansAlong.noOrphans_reached (hway : m.NoOrphansAlong l segments) :
    m.NoOrphans (m.reached l segments) := by
  induction segments generalizing l with
  | nil => exact hway
  | cons t segments ih => exact ih hway.2

/-- A location that is there is listed, wherever it is on the way. -/
theorem NoOrphansAlong.lists (hway : m.NoOrphansAlong l segments) (hj : j ∈ l.toList)
    (hd : m.isDefined j = true) : m.Lists j :=
  hway.noOrphans j (Locations.mem_toList.1 (mem_expand_of_mem hj .all)) hd

theorem member_mem_step_of_not_opened (hc : c ∈ l.toList) (hclosed : ¬m.Opened t c) :
    c.member t ∈ (m.step l t).toList := by
  by_cases ht : t.isField = true
  · have hnone : m.objectsAt c = [] := by
      by_contra hne
      exact hclosed ((opened_iff_of_field ht).2 hne)
    refine mem_step_of_mem hc (member_mem_membersNamed ?_)
    unfold containersOf
    rw [hnone]
    simp
  · exact member_mem_step_key hc (Bool.not_eq_true _ ▸ ht)

theorem not_opened_of_not_isDefined (hj : ¬m.isDefined j = true) (t : Segment) :
    ¬m.Opened t j := by
  have hnone : m.entry? j = none := entry?_of_not_isDefined (Bool.not_eq_true _ ▸ hj)
  unfold Opened objectsAt holdsArray
  rw [hnone]
  cases t.isField <;> simp

variable (h : m.Consistent)
include h

/-- Below a location that is no container for a segment nothing is listed. -/
theorem Consistent.not_lists_of_not_opened (hc : ∀ id, c ≠ .object id) (hclosed : ¬m.Opened t c) :
    ¬m.Lists (c.member t) := by
  rintro (⟨ht, hs⟩ | ⟨-, id, -, rfl, -⟩)
  · refine hclosed ?_
    unfold Opened
    rw [ht, if_neg Bool.false_ne_true]
    exact (h.member c t hs).1
  · exact hc id rfl

/-- What leads to a location that is not there leads on to others that are not there. -/
theorem exists_absent_of_absent (hway : m.NoOrphansAlong l segments) (hj : j ∈ l.toList)
    (hobject : ∀ id, j ≠ .object id) (habsent : ¬m.isDefined j = true) :
    ∃ k ∈ (m.reached l segments).toList, ¬m.isDefined k = true := by
  induction segments generalizing l j with
  | nil => exact ⟨j, mem_expand_of_mem hj .all, habsent⟩
  | cons t segments ih =>
    have hclosed := not_opened_of_not_isDefined habsent t
    have hmem : j.member t ∈ (m.step (m.expand .all l) t).toList :=
      member_mem_step_of_not_opened (mem_expand_of_mem hj .all) hclosed
    exact ih hway.2 hmem nofun fun hd =>
      h.not_lists_of_not_opened hobject hclosed (hway.2.lists hmem hd)

/-- So does a way on which a container is missing. -/
theorem exists_absent_of_not_opensAlong (hway : m.NoOrphansAlong l segments)
    (hl : l.All fun j => ∀ id, j ≠ .object id) (hmissing : ¬m.OpensAlong l segments) :
    ∃ k ∈ (m.reached l segments).toList, ¬m.isDefined k = true := by
  induction segments generalizing l with
  | nil => exact absurd trivial hmissing
  | cons t segments ih =>
    by_cases hopened : (m.expand .all l).All (m.Opened t)
    · exact ih hway.2 (all_step_of_member (fun _ _ _ => nofun) m _ t)
        fun ho => hmissing ⟨hopened, ho⟩
    · obtain ⟨c, hc, hclosed⟩ : ∃ c ∈ (m.expand .all l).toList, ¬m.Opened t c := by
        by_contra hnone
        push Not at hnone
        exact hopened fun c hc => hnone c (Locations.mem_toList.2 hc)
      -- an alias is there and so listed, as no object is
      have hexpand : (m.expand .all l).All fun j =>
          (∀ id, j ≠ .object id) ∨ m.isDefined j = true :=
        all_expand (fun j k _ _ hk => .inr (isDefined_of_strength? ((h.symmetric _ _).trans hk)))
          (fun j hj => .inl (hl j hj)) .all
      have hobject (id : ObjectId) : c ≠ .object id := by
        rintro rfl
        have hmem := Locations.mem_toList.1 hc
        exact (hexpand _ hmem).elim (fun hne => hne id rfl) fun hd => hway.1 _ hmem hd id rfl
      have hmem := member_mem_step_of_not_opened hc hclosed
      have hmember (id : ObjectId) : c.member t ≠ .object id := nofun
      rw [reached_cons]
      exact exists_absent_of_absent h hway.2 hmem hmember
        fun hd => h.not_lists_of_not_opened hobject hclosed (hway.2.lists hmem hd)

/-- Without orphans on the way nothing has to be made there if the path denotes one location only
for writing, and that one is there. -/
theorem opens_of_single (hway : m.NoOrphansAlong (.ofVariable p level) p.segments)
    (hwrite : (m.targets p level).toList = [i]) (hi : m.isDefined i = true) :
    m.Opens p level := by
  by_contra hmissing
  obtain ⟨k, hk, habsent⟩ := exists_absent_of_not_opensAlong h hway
    (all_ofVariable (fun _ => nofun)) hmissing
  have hmem : k ∈ (m.targets p level).toList := hk
  rw [hwrite, List.mem_singleton] at hmem
  exact habsent (hmem ▸ hi)

end

end Memory

namespace Draft
variable {d : Draft} {l : Locations} {i : Index} {e : Entry}

theorem storeAll_of_toList_eq (hl : l.toList = [i]) (hunknown : l.unknown = false) (d : Draft)
    (e : Entry) (arrays : List ArraySource) (force : Bool) :
    d.storeAll l e arrays force = d.store i e arrays (decide (i ∈ l.must)) := by
  have hmust : decide (i ∈ l.must) = decide (i ∈ l.must.toList) :=
    decide_eq_decide.2 ExtTreeSet.mem_toList.symm
  unfold storeAll
  rw [hunknown, hmust, Bool.not_false, Bool.or_true]
  rcases List.append_eq_singleton_iff.1 hl with ⟨hnone, hone⟩ | ⟨hone, hnone⟩
  · rw [hnone, hone]
    rfl
  · rw [hnone, hone, decide_eq_true (List.mem_singleton_self i)]
    rfl

/-- What a location holds is written to it. Only a strong write costs anything: the alias edges of
what lies below. -/
theorem store_held {m : Memory} (h : m.Filed) (hi : m.Lists i) (he : m.entry? i = some e)
    (hd : d.memory = m) (hlimit : d.limit = none) (strong : Bool) :
    (d.store i e (ArraySource.ofEntry m e) strong).memory =
      m.unlink (· ∈ if strong then m.below i else []) := by
  have harrays : ArraySource.ofEntry m e = ArraySource.held m i := by
    rw [← Memory.entryOrUndefined_of_some he, ArraySource.ofEntry_entryOrUndefined h.toConsistent]
  rw [harrays]
  cases strong with
  | true => exact store_held_strong h hi he hd hlimit
  | false =>
    rw [store_held_weak h hi he hd hlimit, hd]
    exact ((Memory.unlink_eq_self_iff h.symmetric).2 (by simp)).symm

end Draft

namespace Snapshot
open Memory
variable {s : Snapshot} {p : Path} {i : Index} {e : Entry}

/-- The path is assigned what it reads, where it denotes one location, for reading and for writing,
that is there, and there are no orphans on the way. All that changes are the aliases of what lies
below the location, which are gone if it is replaced. -/
theorem assign_own_value (hs : Reachable s) (hphase : s.phase = .resting) (hlimits : s.limits = {})
    (hknown : ¬p.CrossesUnknown) (hread : (s.memory.resolve p s.memory.level).toList = [i])
    (hwrite : (s.memory.targets p s.memory.level).toList = [i]) (he : s.memory.entry? i = some e)
    (hway : s.memory.NoOrphansAlong (.ofVariable p s.memory.level) p.segments) :
    let remade := if i ∈ (s.memory.targets p s.memory.level).must then s.memory.below i else []
    ∃ t, (do start; assign p (s.memory.read p) false; commit : Transact Bool).run s =
        .ok (remade.any fun j => !(s.memory.aliases j).isEmpty) t ∧
      t.memory = s.memory.unlink (· ∈ remade) := by
  intro remade
  have hfiled := hs.filed
  have hdefined := isDefined_of_entry? he
  have hopens := opens_of_single hfiled.toConsistent hway hwrite hdefined
  have hlists : s.memory.Lists i := by
    have hmem : i ∈ (s.memory.targets p s.memory.level).toList := hwrite ▸ List.mem_singleton_self i
    exact hway.noOrphans_reached i (Locations.mem_toList.1 hmem) hdefined
  have hvalue : s.memory.read p = e := (readAt_of_single hknown hread).trans (readIndex_of_some he)
  have hdata : e.IsData := fun v hv => (hfiled.held i e he v hv).1
  let d : Draft := { memory := s.memory, limit := s.limits.simplify }
  have hlimit : d.limit = none := by
    change s.limits.simplify = none
    rw [hlimits]
  have hstored : (d.assign p s.memory.level e false).memory = s.memory.unlink (· ∈ remade) := by
    unfold Draft.assign
    rw [Draft.resolve_of_opens hopens]
    dsimp only
    rw [Draft.storeAll_of_toList_eq hwrite (unknown_targets hknown _ _),
      Draft.store_held hfiled hlists he rfl hlimit]
    simp only [decide_eq_true_eq, remade]
  have hassign : Transact.Yields (assign p e false) s.limits s.memory ()
      (d.assign p s.memory.level e false).memory :=
    Transact.Yields.mutate (Edit.assign_run d p hdata false)
  obtain ⟨t, hrun, -, -, -, -, hmemory⟩ := transaction_run hphase hassign
  have hcommitted : t.memory = s.memory.unlink (· ∈ remade) := by
    rw [hmemory, hlimits, committed_unlimited, hstored]
  have hchanged : decide (t.memory ≠ s.memory) =
      remade.any fun j => !(s.memory.aliases j).isEmpty := by
    rw [Bool.eq_iff_iff, decide_eq_true_iff, hcommitted, ne_eq, unlink_eq_self_iff hfiled.symmetric,
      List.any_eq_true]
    simp
  refine ⟨t, ?_, hcommitted⟩
  rw [hvalue, ← hchanged]
  exact hrun

set_option maxRecDepth 20000 in
/-- An element that holds an array of a number, an object and an array whose element is an alias of
a variable. Only the alias is lost when the element is assigned what it reads. -/
theorem assign_own_value_element :
    let element : Path := (Path.ofVariable "a").member (.key (.integer 1))
    let i : Index := (Index.ofVariable "a" .global).member (.key (.integer 1))
    let key (n : Int64) : Segment := .key (.integer n)
    let bound : Index := (i.member (key 3)).member (key 4)
    let b : Index := .ofVariable "b" .global
    let ops : List Operation := [.start,
      .change (.assign (element.member (key 1)) (.ofValue (.scalar (.integer 7))) false),
      .change (.assign (element.member (key 2)) (.ofValue (.object ⟨"o", "C"⟩)) false),
      .change (.assignAlias ((element.member (key 3)).member (key 4)) (.ofVariable "b")), .commit]
    let s := ops.foldl after {}
    (s.memory.aliases bound).strength? b = some .must ∧
      ∃ t, (do start; assign element (s.memory.read element) false; commit :
          Transact Bool).run s = .ok true t ∧
        t.memory.aliases bound = ∅ ∧ (t.memory.aliases b).strength? bound = none ∧
        ∀ j, t.memory.entry? j = s.memory.entry? j := by
  intro element i key bound b ops s
  have hs : Reachable s := (Reachable.blank {}).foldl
    (by simp [ops, Operation.sources, Mutation.sources])
  let start := Locations.ofVariable element s.memory.level
  let step := s.memory.step (s.memory.expand .all start) (key 1)
  have hstart : (s.memory.expand .all start).toList = [.ofVariable "a" .global] := by decide +kernel
  have hstep : (s.memory.expand .all step).toList = [i] := by decide +kernel
  have hway : s.memory.NoOrphansAlong start element.segments := by
    constructor
    · intro j hj _
      rw [← Locations.mem_toList, hstart, List.mem_singleton] at hj
      subst hj
      intro id heq
      cases heq
    · intro j hj _
      rw [← Locations.mem_toList, hstep, List.mem_singleton] at hj
      exact hj ▸ .inl ⟨rfl, ExtTreeSet.contains_iff_mem.1 (by decide +kernel)⟩
  have h := assign_own_value (s := s) (p := element) (i := i) (e := .ofValue (.array i)) hs
    (by decide +kernel) (by decide +kernel) (by decide) (by decide +kernel) hstep
    (by decide +kernel) hway
  have hremade : (if i ∈ (s.memory.targets element s.memory.level).must then s.memory.below i
      else []) = [i.member (key 1), i.member (key 2), i.member (key 3), bound] := by decide +kernel
  obtain ⟨t, hrun, hmemory⟩ := h
  rw [hremade] at hrun hmemory
  have hany : ([i.member (key 1), i.member (key 2), i.member (key 3), bound].any
      fun j => !(s.memory.aliases j).isEmpty) = true := by decide +kernel
  rw [hany] at hrun
  refine ⟨by decide +kernel, t, hrun, ?_, ?_, fun j => ?_⟩
  · rw [hmemory, aliases_unlink, if_pos (by simp)]
  · rw [hmemory, strength?_unlink, if_pos (.inr (by simp))]
  · rw [hmemory, entry?_unlink]

set_option maxRecDepth 20000 in
/-- A variable whose element is an alias of another variable. The variable denotes one location, for
reading and for writing, and yet assigning it what it reads changes the memory. -/
theorem assign_own_value_unlinks :
    let a : Path := .ofVariable "a"
    let i : Index := .ofVariable "a" .global
    let b : Index := .ofVariable "b" .global
    let element : Segment := .key (.integer 1)
    let ops : List Operation :=
      [.start, .change (.assignAlias (a.member element) (.ofVariable "b")), .commit]
    let s := ops.foldl after {}
    let round := (do start; assign a (s.memory.read a) false; commit : Transact Bool).run s
    Reachable s ∧ s.phase = .resting ∧ s.limits = {} ∧ ¬a.CrossesUnknown ∧
      (s.memory.resolve a s.memory.level).toList = [i] ∧
      (s.memory.targets a s.memory.level).toList = [i] ∧ s.memory.isDefined i = true ∧
      result? round = some true ∧ (left round).memory ≠ s.memory ∧
      (s.memory.aliases (i.member element)).strength? b = some .must ∧
      ((left round).memory.aliases (i.member element)).strength? b = none := by
  intro a i b element ops s round
  have hs : Reachable s := (Reachable.blank {}).foldl
    (by simp [ops, Operation.sources, Mutation.sources])
  exact ⟨hs, by decide +kernel, by decide +kernel, by decide, by decide +kernel, by decide +kernel,
    by decide +kernel, by decide +kernel, by decide +kernel, by decide +kernel, by decide +kernel⟩

end Snapshot
end ScriptMemory
