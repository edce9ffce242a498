import Mathlib.Data.Prod.Lex
import Mathlib.Order.WellFounded
import ScriptMemory.Proofs.Memory.Growth
import ScriptMemory.Proofs.Reachability

/-! Closing locations under aliases, and searching for the closure with two queues. The search
follows the certain locations first: their must-aliases become certain, be they possible so far, and
their may-aliases possible. Then it follows the possible ones. In whatever order it takes locations
from the queues, it ends, and with the same locations. -/
namespace ScriptMemory
open Std Relation

namespace Memory
variable {m : Memory} {use : AliasReach} {l c d : Locations} {i j : Index}

/-- Certain edges make locations certain. Edges of any strength make locations possible, if all of
them are followed. -/
structure Closes (m : Memory) (use : AliasReach) (l c : Locations) : Prop where
  must : ∀ i, i ∈ c.must ↔ ∃ j ∈ l.must, m.MustLinked j i
  may : ∀ i, i ∈ c.may ↔
    i ∉ c.must ∧ (i ∈ l.may ∨ use = .all ∧ ∃ j ∈ l.toList, m.Linked j i)
  unknown : c.unknown = l.unknown

theorem Closes.unique (hc : m.Closes use l c) (hd : m.Closes use l d) : c = d := by
  have hmust : c.must = d.must := by
    apply ExtTreeSet.ext_mem
    intro i
    rw [hc.must, hd.must]
  have hmay : c.may = d.may := by
    apply ExtTreeSet.ext_mem
    intro i
    rw [hc.may, hd.may, hmust]
  have hunknown : c.unknown = d.unknown := hc.unknown.trans hd.unknown.symm
  cases c
  cases d
  dsimp only at hmust hmay hunknown
  rw [hmust, hmay, hunknown]

/-- Nothing is added to a closure. -/
theorem Closes.self (h : m.Closes use l c) : m.Closes use c c where
  must i := by
    refine ⟨fun hi => ⟨i, hi, .refl⟩, ?_⟩
    rintro ⟨j, hj, hji⟩
    obtain ⟨k, hk, hkj⟩ := (h.must j).1 hj
    exact (h.must i).2 ⟨k, hk, hkj.trans hji⟩
  may i := by
    refine ⟨fun hi => ⟨((h.may i).1 hi).1, .inl hi⟩, ?_⟩
    rintro ⟨hnot, hi | ⟨huse, j, hj, hji⟩⟩
    · exact hi
    · refine (h.may i).2 ⟨hnot, .inr ⟨huse, ?_⟩⟩
      rcases Locations.mem_toList.1 hj with hj | hj
      · obtain ⟨k, hk, hkj⟩ := (h.must j).1 hj
        exact ⟨k, Locations.mem_toList.2 (.inl hk), hkj.linked.trans hji⟩
      · rcases ((h.may j).1 hj).2 with hj | ⟨-, k, hk, hkj⟩
        · exact ⟨j, Locations.mem_toList.2 (.inr hj), hji⟩
        · exact ⟨k, hk, hkj.trans hji⟩
  unknown := rfl

theorem closes_expand (m : Memory) (use : AliasReach) (l : Locations) :
    m.Closes use l (m.expand use l) where
  must i := mem_must_expand
  may i := by
    cases use with
    | must =>
      have hdiff : i ∈ (m.expand .must l).may ↔ i ∈ l.may ∧ i ∉ (m.expand .must l).must :=
        ExtTreeSet.mem_diff_iff
      rw [hdiff, and_comm, or_iff_left fun h => nomatch h.1]
    | all =>
      rw [mem_may_expand, and_comm]
      refine and_congr_right' ?_
      simp only [Locations.mem_toList, true_and]
      exact ⟨.inr, fun h => h.elim (fun hi => ⟨i, .inr hi, .refl⟩) id⟩
  unknown := unknown_expand m use l

end Memory

/-- The locations found so far, and those of them whose aliases are still to be followed. -/
structure Search where
  found : Locations
  certain : List Index := []
  possible : List Index := []
  /-- The certain locations are done with, and the possible ones are being followed. -/
  turned : Bool := false

namespace Search
variable {m : Memory} {use : AliasReach} {l : Locations} {s t u : Search} {i j : Index}
  {indices : List Index}

/-- The location is certain or possible. -/
def Found (s : Search) (i : Index) : Prop :=
  i ∈ s.found.must ∨ i ∈ s.found.may

/-- The search begins with every certain location in its queue. -/
def start (l : Locations) : Search :=
  { found := l, certain := l.must.toList }

/-- Comes upon a certain alias. It is queued, unless it was certain already. -/
def meetCertain (s : Search) (i : Index) : Search :=
  if i ∈ s.found.must then s
  else
    { s with
      found := { s.found with must := s.found.must.insert i, may := s.found.may.erase i }
      certain := s.certain ++ [i] }

/-- Comes upon a possible alias. It is queued, unless it was found already. -/
def meetPossible (s : Search) (i : Index) : Search :=
  if i ∈ s.found.must ∨ i ∈ s.found.may then s
  else
    { s with
      found := { s.found with may := s.found.may.insert i }
      possible := s.possible ++ [i] }

/-- Follows the aliases of a certain location. -/
def followCertain (m : Memory) (use : AliasReach) (s : Search) (i : Index) : Search :=
  let s := (m.aliases i).must.foldl meetCertain s
  match use with
  | .must => s
  | .all => (m.aliases i).may.foldl meetPossible s

/-- Follows the aliases of a possible location, unless it has become certain. -/
def followPossible (m : Memory) (s : Search) (i : Index) : Search :=
  if i ∈ s.found.must then s else (m.aliases i).toList.foldl meetPossible s

/-- One step: a location, wherever it stands in its queue, is followed. When no certain location is
left and all aliases count, all possible ones are queued. -/
inductive Step (m : Memory) (use : AliasReach) : Search → Search → Prop
  | certain {s : Search} {i : Index} {before after : List Index} (hturned : s.turned = false)
      (hqueue : s.certain = before ++ i :: after) :
      Step m use s (followCertain m use { s with certain := before ++ after } i)
  | turn {s : Search} (hturned : s.turned = false) (hqueue : s.certain = []) (huse : use = .all) :
      Step m use s { s with possible := s.possible ++ s.found.may.toList, turned := true }
  | possible {s : Search} {i : Index} {before after : List Index} (hturned : s.turned = true)
      (hqueue : s.possible = before ++ i :: after) :
      Step m use s (followPossible m { s with possible := before ++ after } i)

/-- Nothing that was found or queued is lost, and whatever is new is queued. -/
structure Grows (s t : Search) : Prop where
  must : ∀ i ∈ s.found.must, i ∈ t.found.must
  found : ∀ i, s.Found i → t.Found i
  certain : s.certain ⊆ t.certain
  possible : s.possible ⊆ t.possible
  newCertain : ∀ i ∈ t.found.must, i ∈ s.found.must ∨ i ∈ t.certain
  newPossible : ∀ i ∈ t.found.may, i ∈ s.found.may ∨ i ∈ t.possible
  turned : t.turned = s.turned

theorem Grows.refl (s : Search) : s.Grows s where
  must _ hi := hi
  found _ hi := hi
  certain _ hi := hi
  possible _ hi := hi
  newCertain _ hi := .inl hi
  newPossible _ hi := .inl hi
  turned := rfl

theorem Grows.trans (h : s.Grows t) (h' : t.Grows u) : s.Grows u where
  must i hi := h'.must i (h.must i hi)
  found i hi := h'.found i (h.found i hi)
  certain _ hi := h'.certain (h.certain hi)
  possible _ hi := h'.possible (h.possible hi)
  newCertain i hi := (h'.newCertain i hi).elim
    (fun hi => (h.newCertain i hi).imp_right fun hi => h'.certain hi) .inr
  newPossible i hi := (h'.newPossible i hi).elim
    (fun hi => (h.newPossible i hi).imp_right fun hi => h'.possible hi) .inr
  turned := h'.turned.trans h.turned

theorem mem_must_meetCertain : j ∈ (s.meetCertain i).found.must ↔ j ∈ s.found.must ∨ j = i := by
  unfold meetCertain
  split
  · next hi =>
    refine ⟨.inl, ?_⟩
    rintro (hj | rfl)
    · exact hj
    · exact hi
  · exact OrdSet.mem_insert.trans or_comm

theorem mem_may_meetCertain : j ∈ (s.meetCertain i).found.may ↔
    j ∈ s.found.may ∧ (j ≠ i ∨ i ∈ s.found.must) := by
  unfold meetCertain
  split
  · next hi => exact (and_iff_left (.inr hi)).symm
  · next hi =>
    rw [or_iff_left hi]
    exact OrdSet.mem_erase.trans and_comm

theorem grows_meetCertain (s : Search) (i : Index) : s.Grows (s.meetCertain i) := by
  by_cases hi : i ∈ s.found.must
  · rw [meetCertain, if_pos hi]
    exact .refl s
  · have heq : s.meetCertain i = _ := if_neg hi
    refine ⟨fun j hj => mem_must_meetCertain.2 (.inl hj), fun j hj => ?_, ?_, ?_, fun j hj => ?_,
      fun j hj => .inl (mem_may_meetCertain.1 hj).1, ?_⟩
    · by_cases hji : j = i
      · exact .inl (mem_must_meetCertain.2 (.inr hji))
      · exact hj.imp (fun hj => mem_must_meetCertain.2 (.inl hj))
          fun hj => mem_may_meetCertain.2 ⟨hj, .inl hji⟩
    · rw [heq]
      exact List.subset_append_left _ _
    · rw [heq]
      exact fun _ hj => hj
    · rcases mem_must_meetCertain.1 hj with hj | rfl
      · exact .inl hj
      · rw [heq]
        exact .inr (List.mem_append_right _ List.mem_cons_self)
    · rw [heq]

theorem must_meetPossible (s : Search) (i : Index) :
    (s.meetPossible i).found.must = s.found.must := by
  unfold meetPossible
  split <;> rfl

theorem mem_may_meetPossible : j ∈ (s.meetPossible i).found.may ↔
    j ∈ s.found.may ∨ j = i ∧ i ∉ s.found.must := by
  unfold meetPossible
  split
  · next hi =>
    refine ⟨.inl, ?_⟩
    rintro (hj | ⟨rfl, hnot⟩)
    · exact hj
    · exact hi.resolve_left hnot
  · next hi =>
    rw [and_iff_left fun hmust => hi (.inl hmust)]
    exact OrdSet.mem_insert.trans or_comm

theorem found_meetPossible : (s.meetPossible i).Found j ↔ s.Found j ∨ j = i := by
  unfold Found
  rw [must_meetPossible, mem_may_meetPossible, or_assoc]
  refine or_congr_right' fun hj => or_congr_right ?_
  refine and_iff_left_of_imp ?_
  rintro rfl
  exact hj

theorem grows_meetPossible (s : Search) (i : Index) : s.Grows (s.meetPossible i) := by
  by_cases hi : i ∈ s.found.must ∨ i ∈ s.found.may
  · rw [meetPossible, if_pos hi]
    exact .refl s
  · have heq : s.meetPossible i = _ := if_neg hi
    refine ⟨fun j hj => ?_, fun j hj => found_meetPossible.2 (.inl hj), ?_, ?_, fun j hj => ?_,
      fun j hj => ?_, ?_⟩
    · rwa [must_meetPossible]
    · rw [heq]
      exact fun _ hj => hj
    · rw [heq]
      exact List.subset_append_left _ _
    · rw [must_meetPossible] at hj
      exact .inl hj
    · rcases mem_may_meetPossible.1 hj with hj | ⟨rfl, -⟩
      · exact .inl hj
      · rw [heq]
        exact .inr (List.mem_append_right _ List.mem_cons_self)
    · rw [heq]

theorem grows_foldl {meet : Search → Index → Search} (h : ∀ s i, Grows s (meet s i))
    (indices : List Index) (s : Search) : s.Grows (indices.foldl meet s) :=
  List.foldlRecOn indices meet (.refl s) fun t ht i _ => ht.trans (h t i)

/-- Whatever is met is certain afterwards. -/
theorem mem_must_foldl (hi : i ∈ indices) : i ∈ (indices.foldl meetCertain s).found.must := by
  induction indices generalizing s with
  | nil => cases hi
  | cons j indices ih =>
    rcases List.mem_cons.1 hi with rfl | hi
    · exact (grows_foldl grows_meetCertain indices _).must i (mem_must_meetCertain.2 (.inr rfl))
    · exact ih hi

/-- Whatever is met is found afterwards. -/
theorem found_foldl (hi : i ∈ indices) : (indices.foldl meetPossible s).Found i := by
  induction indices generalizing s with
  | nil => cases hi
  | cons j indices ih =>
    rcases List.mem_cons.1 hi with rfl | hi
    · exact (grows_foldl grows_meetPossible indices _).found i (found_meetPossible.2 (.inr rfl))
    · exact ih hi

theorem grows_followCertain (m : Memory) (use : AliasReach) (s : Search) (i : Index) :
    s.Grows (followCertain m use s i) := by
  have hcertain := grows_foldl grows_meetCertain (m.aliases i).must s
  cases use with
  | must => exact hcertain
  | all => exact hcertain.trans (grows_foldl grows_meetPossible (m.aliases i).may _)

theorem grows_followPossible (m : Memory) (s : Search) (i : Index) :
    s.Grows (followPossible m s i) := by
  unfold followPossible
  split
  · exact .refl s
  · exact grows_foldl grows_meetPossible _ s

/-- What was found is the start and what edges lead to from there. What is queued was found. -/
structure Sound (m : Memory) (use : AliasReach) (l : Locations) (s : Search) : Prop where
  separate : s.found.Separate
  unknown : s.found.unknown = l.unknown
  must : ∀ i ∈ s.found.must, ∃ j ∈ l.must, m.MustLinked j i
  may : ∀ i ∈ s.found.may, i ∈ l.may ∨ use = .all ∧ ∃ j ∈ l.toList, m.Linked j i
  startMust : ∀ i ∈ l.must, i ∈ s.found.must
  startMay : ∀ i ∈ l.may, s.Found i
  certain : ∀ i ∈ s.certain, i ∈ s.found.must
  possible : ∀ i ∈ s.possible, s.Found i

theorem sound_start (m : Memory) (use : AliasReach) (hl : l.Separate) :
    Sound m use l (start l) where
  separate := hl
  unknown := rfl
  must i hi := ⟨i, hi, .refl⟩
  may _ hi := .inl hi
  startMust _ hi := hi
  startMay _ hi := .inr hi
  certain _ hi := ExtTreeSet.mem_toList.1 hi
  possible _ hi := nomatch hi

/-- Whatever was found is linked to the start. -/
theorem Sound.linked (h : Sound m use l s) (hi : s.Found i) : ∃ j ∈ l.toList, m.Linked j i := by
  rcases hi with hi | hi
  · obtain ⟨j, hj, hji⟩ := h.must i hi
    exact ⟨j, Locations.mem_toList.2 (.inl hj), hji.linked⟩
  · rcases h.may i hi with hi | ⟨-, hlinked⟩
    · exact ⟨i, Locations.mem_toList.2 (.inr hi), .refl⟩
    · exact hlinked

theorem Sound.meetCertain (h : Sound m use l s) (hi : ∃ j ∈ l.must, m.MustLinked j i) :
    Sound m use l (s.meetCertain i) where
  separate j hj hj' := by
    obtain ⟨hmay, hne⟩ := mem_may_meetCertain.1 hj'
    rcases mem_must_meetCertain.1 hj with hj | rfl
    · exact h.separate j hj hmay
    · exact hne.elim (· rfl) fun hmust => h.separate j hmust hmay
  unknown := by
    rw [← h.unknown]
    unfold Search.meetCertain
    split <;> rfl
  must j hj := by
    rcases mem_must_meetCertain.1 hj with hj | rfl
    · exact h.must j hj
    · exact hi
  may j hj := h.may j (mem_may_meetCertain.1 hj).1
  startMust j hj := (grows_meetCertain s i).must j (h.startMust j hj)
  startMay j hj := (grows_meetCertain s i).found j (h.startMay j hj)
  certain j hj := by
    unfold Search.meetCertain at hj ⊢
    split at hj
    · next hmust =>
      rw [if_pos hmust]
      exact h.certain j hj
    · next hmust =>
      rw [if_neg hmust]
      rcases List.mem_append.1 hj with hj | hj
      · exact OrdSet.mem_insert.2 (.inr (h.certain j hj))
      · exact OrdSet.mem_insert.2 (.inl (List.mem_singleton.1 hj))
  possible j hj := by
    refine (grows_meetCertain s i).found j (h.possible j ?_)
    unfold Search.meetCertain at hj
    split at hj <;> exact hj

theorem Sound.meetPossible (h : Sound m use l s) (huse : use = .all)
    (hi : ∃ j ∈ l.toList, m.Linked j i) : Sound m use l (s.meetPossible i) where
  separate j hj hj' := by
    rw [must_meetPossible] at hj
    rcases mem_may_meetPossible.1 hj' with hmay | ⟨rfl, hnot⟩
    · exact h.separate j hj hmay
    · exact hnot hj
  unknown := by
    rw [← h.unknown]
    unfold Search.meetPossible
    split <;> rfl
  must j hj := h.must j (must_meetPossible s i ▸ hj)
  may j hj := by
    rcases mem_may_meetPossible.1 hj with hj | ⟨rfl, -⟩
    · exact h.may j hj
    · exact .inr ⟨huse, hi⟩
  startMust j hj := (grows_meetPossible s i).must j (h.startMust j hj)
  startMay j hj := (grows_meetPossible s i).found j (h.startMay j hj)
  certain j hj := by
    refine (grows_meetPossible s i).must j (h.certain j ?_)
    unfold Search.meetPossible at hj
    split at hj <;> exact hj
  possible j hj := by
    rw [found_meetPossible]
    unfold Search.meetPossible at hj
    split at hj
    · exact .inl (h.possible j hj)
    · rcases List.mem_append.1 hj with hj | hj
      · exact .inl (h.possible j hj)
      · exact .inr (List.mem_singleton.1 hj)

theorem Sound.followCertain (h : Sound m use l s) (hi : i ∈ s.found.must) :
    Sound m use l (followCertain m use s i) := by
  have hlinked := h.must i hi
  have hcertain : Sound m use l ((m.aliases i).must.foldl Search.meetCertain s) := by
    refine List.foldlRecOn _ _ h fun t ht j hj => ht.meetCertain ?_
    obtain ⟨k, hk, hki⟩ := hlinked
    exact ⟨k, hk, hki.tail (AliasSet.mem_ofStrength.1 hj)⟩
  cases use with
  | must => exact hcertain
  | all =>
    refine List.foldlRecOn _ _ hcertain fun t ht j hj => ht.meetPossible rfl ?_
    obtain ⟨k, hk, hki⟩ := hlinked
    exact ⟨k, Locations.mem_toList.2 (.inl hk), hki.linked.tail ⟨_, AliasSet.mem_ofStrength.1 hj⟩⟩

theorem Sound.followPossible (h : Sound m use l s) (huse : use = .all) (hi : s.Found i) :
    Sound m use l (followPossible m s i) := by
  unfold Search.followPossible
  split
  · exact h
  · refine List.foldlRecOn _ _ h fun t ht j hj => ht.meetPossible huse ?_
    obtain ⟨k, hk, hki⟩ := h.linked hi
    exact ⟨k, hk, hki.tail (AliasSet.mem_toList.1 hj)⟩

/-- All certain edges of a location lead to certain ones, and if all edges count they lead to what
was found. -/
def Followed (m : Memory) (use : AliasReach) (s : Search) (i : Index) : Prop :=
  (∀ j, m.MustEdge i j → j ∈ s.found.must) ∧ (use = .all → ∀ j, m.Edge i j → s.Found j)

theorem Followed.grows (h : Followed m use s i) (hgrows : s.Grows t) : Followed m use t i :=
  ⟨fun j hj => hgrows.must j (h.1 j hj), fun huse j hj => hgrows.found j (h.2 huse j hj)⟩

theorem followed_followCertain (m : Memory) (use : AliasReach) (s : Search) (i : Index) :
    Followed m use (followCertain m use s i) i := by
  have hmust {j : Index} (hj : m.MustEdge i j) :
      j ∈ ((m.aliases i).must.foldl meetCertain s).found.must :=
    mem_must_foldl (AliasSet.mem_ofStrength.2 hj)
  cases use with
  | must => exact ⟨fun j hj => hmust hj, nofun⟩
  | all =>
    have hgrows := grows_foldl grows_meetPossible (m.aliases i).may
      ((m.aliases i).must.foldl meetCertain s)
    refine ⟨fun j hj => hgrows.must j (hmust hj), ?_⟩
    rintro - j ⟨strength, hj⟩
    cases strength with
    | must => exact .inl (hgrows.must j (hmust hj))
    | may => exact found_foldl (AliasSet.mem_ofStrength.2 hj)

theorem found_followPossible (hi : i ∉ s.found.must) (hj : m.Edge i j) :
    (followPossible m s i).Found j := by
  rw [followPossible, if_neg hi]
  exact found_foldl (AliasSet.mem_toList.2 hj)

theorem certain_followPossible (m : Memory) (s : Search) (i : Index) :
    (followPossible m s i).certain = s.certain := by
  unfold followPossible
  split
  · rfl
  · refine List.foldlRecOn (motive := fun t : Search => t.certain = s.certain) _ _ rfl
      fun t ht j _ => ?_
    unfold meetPossible
    split <;> exact ht

/-- Whatever was found is queued, or its aliases were followed. Possible locations are not queued
before the certain ones are done with. -/
structure Complete (m : Memory) (use : AliasReach) (s : Search) : Prop where
  must : ∀ i ∈ s.found.must, i ∈ s.certain ∨ Followed m use s i
  may : s.turned = true → ∀ i ∈ s.found.may, i ∈ s.possible ∨ ∀ j, m.Edge i j → s.Found j
  turned : s.turned = true → s.certain = [] ∧ use = .all

theorem complete_start (m : Memory) (use : AliasReach) (l : Locations) :
    Complete m use (start l) where
  must _ hi := .inl (ExtTreeSet.mem_toList.2 hi)
  may h := nomatch h
  turned h := nomatch h

theorem Complete.followCertain {before after : List Index} (h : Complete m use s)
    (hturned : s.turned = false) (hqueue : s.certain = before ++ i :: after) :
    Complete m use (followCertain m use { s with certain := before ++ after } i) := by
  have hgrows := grows_followCertain m use { s with certain := before ++ after } i
  have hnot :
      ¬(Search.followCertain m use { s with certain := before ++ after } i).turned = true := by
    rw [hgrows.turned]
    exact Bool.not_eq_true _ ▸ hturned
  refine ⟨fun x hx => ?_, fun h => absurd h hnot, fun h => absurd h hnot⟩
  rcases hgrows.newCertain x hx with hold | hnew
  · rcases h.must x hold with hqueued | hfollowed
    · rw [hqueue, List.mem_append, List.mem_cons] at hqueued
      rcases hqueued with hx | rfl | hx
      · exact .inl (hgrows.certain (List.mem_append_left _ hx))
      · exact .inr (followed_followCertain m use _ x)
      · exact .inl (hgrows.certain (List.mem_append_right _ hx))
    · have hpopped : Followed m use { s with certain := before ++ after } x := hfollowed
      exact .inr (hpopped.grows hgrows)
  · exact .inl hnew

theorem Complete.turn (h : Complete m use s) (hqueue : s.certain = []) (huse : use = .all) :
    Complete m use { s with possible := s.possible ++ s.found.may.toList, turned := true } where
  must := h.must
  may _ _ hi := .inl (List.mem_append_right _ (ExtTreeSet.mem_toList.2 hi))
  turned _ := ⟨hqueue, huse⟩

theorem Complete.followPossible {before after : List Index} (h : Complete m use s)
    (hs : Sound m use l s) (hturned : s.turned = true)
    (hqueue : s.possible = before ++ i :: after) :
    Complete m use (followPossible m { s with possible := before ++ after } i) := by
  have hgrows := grows_followPossible m { s with possible := before ++ after } i
  have hcertain := certain_followPossible m { s with possible := before ++ after } i
  obtain ⟨hnone, huse⟩ := h.turned hturned
  refine ⟨fun x hx => ?_, fun _ x hx => ?_, fun _ => ⟨hcertain.trans hnone, huse⟩⟩
  · rcases hgrows.newCertain x hx with hold | hnew
    · have hpopped (hfollowed : Followed m use s x) :
          Followed m use { s with possible := before ++ after } x := hfollowed
      exact (h.must x hold).imp (fun hq => hcertain.symm ▸ hq) fun h => (hpopped h).grows hgrows
    · exact .inl hnew
  · rcases hgrows.newPossible x hx with hold | hnew
    · rcases h.may hturned x hold with hqueued | hfollowed
      · rw [hqueue, List.mem_append, List.mem_cons] at hqueued
        rcases hqueued with hx | rfl | hx
        · exact .inl (hgrows.possible (List.mem_append_left _ hx))
        · exact .inr fun j hj => found_followPossible (fun hmust => hs.separate x hmust hold) hj
        · exact .inl (hgrows.possible (List.mem_append_right _ hx))
      · exact .inr fun j hj => hgrows.found j (hfollowed j hj)
    · exact .inl hnew

theorem mem_of_mem_popped {before after : List Index} (hj : j ∈ before ++ after) :
    j ∈ before ++ i :: after :=
  ((List.sublist_cons_self i after).append_left before).subset hj

/-- One step keeps both invariants. -/
theorem Step.keeps (hstep : Step m use s t) (hs : Sound m use l s) (hc : Complete m use s) :
    Sound m use l t ∧ Complete m use t := by
  cases hstep with
  | @certain i before after hturned hqueue =>
    have hpopped : Sound m use l { s with certain := before ++ after } :=
      ⟨hs.separate, hs.unknown, hs.must, hs.may, hs.startMust, hs.startMay,
        fun j hj => hs.certain j (hqueue ▸ mem_of_mem_popped hj), hs.possible⟩
    have hi : i ∈ s.found.must := hs.certain i (hqueue ▸ List.mem_append_right _ List.mem_cons_self)
    exact ⟨hpopped.followCertain hi, hc.followCertain hturned hqueue⟩
  | turn hturned hqueue huse =>
    refine ⟨⟨hs.separate, hs.unknown, hs.must, hs.may, hs.startMust, hs.startMay, hs.certain, ?_⟩,
      hc.turn hqueue huse⟩
    intro j hj
    rcases List.mem_append.1 hj with hj | hj
    · exact hs.possible j hj
    · exact .inr (ExtTreeSet.mem_toList.1 hj)
  | @possible i before after hturned hqueue =>
    have hpopped : Sound m use l { s with possible := before ++ after } :=
      ⟨hs.separate, hs.unknown, hs.must, hs.may, hs.startMust, hs.startMay, hs.certain,
        fun j hj => hs.possible j (hqueue ▸ mem_of_mem_popped hj)⟩
    have hi : s.Found i := hs.possible i (hqueue ▸ List.mem_append_right _ List.mem_cons_self)
    exact ⟨hpopped.followPossible (hc.turned hturned).2 hi, hc.followPossible hs hturned hqueue⟩

/-- By induction on the run. -/
theorem sound_complete_of_run (hl : l.Separate) (hrun : ReflTransGen (Step m use) (start l) t) :
    Sound m use l t ∧ Complete m use t := by
  induction hrun with
  | refl => exact ⟨sound_start m use hl, complete_start m use l⟩
  | tail _ hstep ih => exact hstep.keeps ih.1 ih.2

theorem Complete.followed_must (h : Complete m use s) (hcertain : s.certain = [])
    (hi : i ∈ s.found.must) : Followed m use s i :=
  (h.must i hi).resolve_left (hcertain ▸ List.not_mem_nil)

/-- When no step is left, everything was followed. -/
theorem Complete.followed (h : Complete m use s) (hend : ∀ t, ¬Step m use s t) :
    (∀ i ∈ s.found.must, Followed m use s i) ∧
      (use = .all → ∀ i j, s.Found i → m.Edge i j → s.Found j) := by
  cases hturned : s.turned with
  | false =>
    have hcertain : s.certain = [] := by
      cases hqueue : s.certain with
      | nil => rfl
      | cons i after =>
        have hfront : s.certain = [] ++ i :: after := hqueue
        exact absurd (.certain hturned hfront) (hend _)
    exact ⟨fun i hi => h.followed_must hcertain hi,
      fun huse => absurd (.turn hturned hcertain huse) (hend _)⟩
  | true =>
    obtain ⟨hcertain, huse⟩ := h.turned hturned
    have hpossible : s.possible = [] := by
      cases hqueue : s.possible with
      | nil => rfl
      | cons i after =>
        have hfront : s.possible = [] ++ i :: after := hqueue
        exact absurd (.possible hturned hfront) (hend _)
    refine ⟨fun i hi => h.followed_must hcertain hi, fun _ i j hi hj => ?_⟩
    rcases hi with hi | hi
    · exact (h.followed_must hcertain hi).2 huse j hj
    · exact (h.may hturned i hi).resolve_left (hpossible ▸ List.not_mem_nil) j hj

/-- A search that has ended has found the closure. -/
theorem closes_of_ended (hs : Sound m use l s) (hc : Complete m use s)
    (hend : ∀ t, ¬Step m use s t) : m.Closes use l s.found := by
  obtain ⟨hmust, hfound⟩ := hc.followed hend
  refine ⟨fun i => ⟨hs.must i, ?_⟩,
    fun i => ⟨fun hi => ⟨fun hm => hs.separate i hm hi, hs.may i hi⟩, ?_⟩, hs.unknown⟩
  · rintro ⟨j, hj, hji⟩
    induction hji with
    | refl => exact hs.startMust j hj
    | tail _ hlast ih => exact (hmust _ ih).1 _ hlast
  · rintro ⟨hnot, hi | ⟨huse, j, hj, hji⟩⟩
    · exact (hs.startMay i hi).resolve_left hnot
    · have hlinked : s.Found i := by
        clear hnot
        induction hji with
        | refl =>
          rcases Locations.mem_toList.1 hj with hj | hj
          · exact .inl (hs.startMust j hj)
          · exact hs.startMay j hj
        | tail _ hlast ih => exact hfound huse _ _ ih hlast
      exact hlinked.resolve_left hnot

/-- Every location that some alias edge leads to. -/
def targets (m : Memory) : List Index :=
  m.cells.keys.flatMap fun i => (m.aliases i).toList

theorem mem_targets (h : m.Edge i j) : j ∈ targets m :=
  List.mem_flatMap.2 ⟨i, ExtTreeMap.mem_keys.2 (ExtTreeMap.contains_iff_mem.1
    (Memory.isDefined_of_edge h)), AliasSet.mem_toList.2 h⟩

/-- How often a queue may still be popped: once for each location in it, and for each target that
was not reached. -/
def workload (m : Memory) (reached : Index → Bool) (queue : List Index) : Nat :=
  ((targets m).filter fun i => !reached i).length + queue.length

/-- To queue a target that was not reached is no more work than before. -/
theorem workload_append_le {reached reached' : Index → Bool} {queue : List Index}
    (hmore : ∀ j, reached j = true → reached' j = true) (hi : i ∈ targets m)
    (hnot : reached i = false) (hnow : reached' i = true) :
    workload m reached' (queue ++ [i]) ≤ workload m reached queue := by
  have hsub : ((targets m).filter fun j => !reached' j).Sublist
      ((targets m).filter fun j => !reached j) := by
    refine List.monotone_filter_right _ fun j hj => ?_
    rw [Bool.not_eq_true'] at hj ⊢
    exact Bool.eq_false_iff.2 fun h => Bool.eq_false_iff.1 hj (hmore j h)
  have hlt : ((targets m).filter fun j => !reached' j).length <
      ((targets m).filter fun j => !reached j).length := by
    refine Nat.lt_of_le_of_ne hsub.length_le fun heq => ?_
    have hmem : i ∈ (targets m).filter fun j => !reached j :=
      List.mem_filter.2 ⟨hi, by rw [hnot]; rfl⟩
    rw [← hsub.eq_of_length heq, List.mem_filter, hnow] at hmem
    exact nomatch hmem.2
  unfold workload
  rw [List.length_append, List.length_singleton]
  omega

/-- What is left to do of the certain locations. -/
def certainWork (m : Memory) (s : Search) : Nat :=
  workload m s.found.must.contains s.certain

/-- What is left to do of the possible locations. -/
def possibleWork (m : Memory) (s : Search) : Nat :=
  workload m (fun i => s.found.must.contains i || s.found.may.contains i) s.possible

theorem certainWork_meetCertain_le (s : Search) (hi : i ∈ targets m) :
    certainWork m (s.meetCertain i) ≤ certainWork m s := by
  unfold meetCertain
  split
  · exact le_rfl
  · next hnot =>
    refine workload_append_le (fun j hj => ?_) hi (Bool.eq_false_iff.2 hnot) ?_
    · exact OrdSet.mem_insert.2 (.inr hj)
    · exact OrdSet.mem_insert.2 (.inl rfl)

theorem certainWork_meetPossible (m : Memory) (s : Search) (i : Index) :
    certainWork m (s.meetPossible i) = certainWork m s := by
  unfold meetPossible
  split <;> rfl

theorem possibleWork_meetPossible_le (s : Search) (hi : i ∈ targets m) :
    possibleWork m (s.meetPossible i) ≤ possibleWork m s := by
  unfold meetPossible
  split
  · exact le_rfl
  · next hnot =>
    obtain ⟨hmust, hmay⟩ := not_or.1 hnot
    refine workload_append_le (fun j hj => ?_) hi ?_ ?_
    · exact Bool.or_eq_true_iff.2 ((Bool.or_eq_true_iff.1 hj).imp_right
        fun hj => OrdSet.mem_insert.2 (.inr hj))
    · exact Bool.or_eq_false_iff.2 ⟨Bool.eq_false_iff.2 hmust, Bool.eq_false_iff.2 hmay⟩
    · exact Bool.or_eq_true_iff.2 (.inr (OrdSet.mem_insert.2 (.inl rfl)))

theorem certainWork_followCertain_le (m : Memory) (use : AliasReach) (s : Search) (i : Index) :
    certainWork m (followCertain m use s i) ≤ certainWork m s := by
  have hcertain : certainWork m ((m.aliases i).must.foldl meetCertain s) ≤ certainWork m s :=
    List.foldlRecOn (motive := fun t : Search => certainWork m t ≤ certainWork m s) _ _ le_rfl
      fun t ht j hj => (certainWork_meetCertain_le t
        (mem_targets ⟨_, AliasSet.mem_ofStrength.1 hj⟩)).trans ht
  cases use with
  | must => exact hcertain
  | all =>
    exact List.foldlRecOn (motive := fun t : Search => certainWork m t ≤ certainWork m s) _ _
      hcertain fun t ht j _ => (certainWork_meetPossible m t j).le.trans ht

theorem possibleWork_followPossible_le (m : Memory) (s : Search) (i : Index) :
    possibleWork m (followPossible m s i) ≤ possibleWork m s := by
  unfold followPossible
  split
  · exact le_rfl
  · exact List.foldlRecOn (motive := fun t : Search => possibleWork m t ≤ possibleWork m s) _ _
      le_rfl fun t ht j hj => (possibleWork_meetPossible_le t
        (mem_targets (AliasSet.mem_toList.1 hj))).trans ht

theorem workload_popped_lt (m : Memory) (reached : Index → Bool) (i : Index)
    (before after : List Index) :
    workload m reached (before ++ after) < workload m reached (before ++ i :: after) := by
  unfold workload
  rw [List.length_append, List.length_append, List.length_cons]
  omega

/-- What is left to do: the turn, if it is still ahead, before any work on its queue. -/
def weight (m : Memory) (s : Search) : Nat ×ₗ Nat :=
  toLex (if s.turned then (0, possibleWork m s) else (1, certainWork m s))

theorem Step.weight_lt (hstep : Step m use s t) : weight m t < weight m s := by
  unfold weight
  cases hstep with
  | @certain i before after hturned hqueue =>
    have hgrows := grows_followCertain m use { s with certain := before ++ after } i
    have hpopped : certainWork m { s with certain := before ++ after } < certainWork m s := by
      unfold certainWork
      rw [hqueue]
      exact workload_popped_lt ..
    rw [hgrows.turned, hturned]
    exact Prod.Lex.right _ ((certainWork_followCertain_le m use _ i).trans_lt hpopped)
  | turn hturned hqueue huse =>
    rw [hturned]
    exact Prod.Lex.left _ _ Nat.zero_lt_one
  | @possible i before after hturned hqueue =>
    have hgrows := grows_followPossible m { s with possible := before ++ after } i
    have hpopped : possibleWork m { s with possible := before ++ after } < possibleWork m s := by
      unfold possibleWork
      rw [hqueue]
      exact workload_popped_lt ..
    rw [hgrows.turned, hturned]
    exact Prod.Lex.right _ ((possibleWork_followPossible_le m _ i).trans_lt hpopped)

/-- No search goes on for ever. -/
theorem wellFounded_step (m : Memory) (use : AliasReach) :
    WellFounded fun t s => Step m use s t :=
  Subrelation.wf (fun hstep => hstep.weight_lt) (InvImage.wf (weight m) wellFounded_lt)

theorem exists_ended (m : Memory) (use : AliasReach) (s : Search) :
    ∃ t, ReflTransGen (Step m use) s t ∧ ∀ u, ¬Step m use t u := by
  obtain ⟨t, hrun, hlast⟩ := (wellFounded_step m use).has_min
    {t | ReflTransGen (Step m use) s t} ⟨s, .refl⟩
  exact ⟨t, hrun, fun u hstep => hlast u (hrun.tail hstep) hstep⟩

end Search

namespace Memory

/-- Expanding computes the closure, keeps certain and possible locations apart and is idempotent. A
search with two queues ends, in whatever order it takes locations from them, and where it ends it
has found what expanding computes. -/
theorem expand_closes (m : Memory) (use : AliasReach) {l : Locations} (hl : l.Separate) :
    m.Closes use l (m.expand use l) ∧
    (m.expand use l).Separate ∧
    m.expand use (m.expand use l) = m.expand use l ∧
    (WellFounded fun t s => Search.Step m use s t) ∧
    (∃ s, ReflTransGen (Search.Step m use) (Search.start l) s ∧ ∀ t, ¬Search.Step m use s t) ∧
    ∀ s, ReflTransGen (Search.Step m use) (Search.start l) s →
      (∀ t, ¬Search.Step m use s t) → s.found = m.expand use l := by
  have hcloses := closes_expand m use l
  refine ⟨hcloses, separate_expand m use l, ?_, Search.wellFounded_step m use,
    Search.exists_ended m use _, fun s hrun hend => ?_⟩
  · exact (closes_expand m use (m.expand use l)).unique hcloses.self
  · obtain ⟨hs, hc⟩ := Search.sound_complete_of_run hl hrun
    exact (Search.closes_of_ended hs hc hend).unique hcloses

end Memory

namespace Snapshot

set_option maxRecDepth 20000 in
/-- Two courses agree on one reference and not on the others. Of the two locations that are
certainly the same one is certain at the start, and the other one, possible at the start, becomes
certain. -/
theorem expand_closes_merged :
    let one : Entry := .ofValue (.scalar (.integer 1))
    let a : Path := .ofVariable "a"
    let b : Path := .ofVariable "b"
    let d : Path := .ofVariable "d"
    let e : Path := .ofVariable "e"
    let index (name : String) : Index := .ofVariable name .global
    let first := [Operation.start, .change (.assign a one false), .change (.assignAlias b a),
      .change (.assignAlias d a), .commit].foldl after {}
    let second := [Operation.start, .change (.assign a one false), .change (.assignAlias b a),
      .change (.assign d one false), .change (.assignAlias e d), .commit].foldl after {}
    let s := [Operation.start, .change (.extend [first, second])].foldl after {}
    let l : Locations := .split (.ofList [index "a"]) (.ofList [index "b"]) false
    Reachable s ∧ l.Separate ∧
      s.memory.Closes .all l (s.memory.expand .all l) ∧
      (s.memory.expand .all l).must.toList = [index "a", index "b"] ∧
      (s.memory.expand .all l).may.toList = [index "d", index "e"] := by
  intro one a b d e index first second s l
  have hfirst : Reachable first := (Reachable.blank {}).foldl
    (by simp [Operation.sources, Mutation.sources])
  have hsecond : Reachable second := (Reachable.blank {}).foldl
    (by simp [Operation.sources, Mutation.sources])
  have hs : Reachable s := by
    clear_value first second
    refine (Reachable.blank {}).foldl fun o ho t ht => ?_
    rcases List.mem_pair.1 ho with rfl | rfl
    · cases ht
    · rcases List.mem_pair.1 ht with rfl | rfl
      · exact hfirst
      · exact hsecond
  have hl : l.Separate := Locations.separate_split _ _ _
  exact ⟨hs, hl, (Memory.expand_closes s.memory .all hl).1, by decide +kernel, by decide +kernel⟩

end Snapshot
end ScriptMemory
