import ScriptMemory.Proofs.Memory.Survival

/-! Editing a draft keeps whatever survives the changes that edits are made of: resolving a path
for writing, writing to what it denotes, and removing it. -/
namespace ScriptMemory
open Std

section
variable {α : Type} [Ord α] [TransOrd α] [LawfulEqOrd α] [DecidableEq α] {next : α → List α}

/-- What every step keeps holds of everything reached. -/
theorem forall_mem_reach {P : α → Prop} (hnext : ∀ a, P a → ∀ b ∈ next a, P b) {rounds : Nat}
    {start : OrdSet α} (hstart : ∀ a ∈ start, P a) : ∀ a ∈ reach next rounds start, P a := by
  induction rounds generalizing start with
  | zero => exact hstart
  | succ rounds ih =>
    have hmore : ∀ a ∈ start.insertMany (start.toList.flatMap next), P a := by
      intro a ha
      rcases OrdSet.mem_insertMany.1 ha with ha | ha
      · exact hstart a ha
      · obtain ⟨b, hb, hab⟩ := List.mem_flatMap.1 ha
        exact hnext b (hstart b (ExtTreeSet.mem_toList.1 hb)) a hab
    unfold reach
    dsimp only
    split
    · exact hstart
    · exact ih hmore

end

namespace Locations
variable {l : Locations} {i : Index} {P : Index → Prop}

/-- Every location satisfies `P`. -/
def All (P : Index → Prop) (l : Locations) : Prop :=
  ∀ i, i ∈ l.must ∨ i ∈ l.may → P i

theorem mem_toList : i ∈ l.toList ↔ i ∈ l.must ∨ i ∈ l.may := by
  simp [toList, ExtTreeSet.mem_toList]

theorem all_split {must all : OrdSet Index} {unknown : Bool} (hm : ∀ i ∈ must, P i)
    (ha : ∀ i ∈ all, P i) : (split must all unknown).All P := by
  rintro i (hi | hi)
  · exact hm i hi
  · exact ha i (ExtTreeSet.mem_diff_iff.1 hi).1

theorem all_ofVariable (hP : ∀ name t, P (.ofVariable name t)) (p : Path) (level : Nat) :
    (ofVariable p level).All P := by
  rintro i (hi | hi)
  · rcases OrdSet.mem_insert.1 hi with rfl | hi
    · exact hP _ _
    · exact absurd hi ExtTreeSet.not_mem_empty
  · exact absurd hi ExtTreeSet.not_mem_empty

theorem All.mem_must (hl : l.All P) : ∀ i ∈ l.must.toList, P i :=
  fun i hi => hl i (.inl (ExtTreeSet.mem_toList.1 hi))

theorem All.mem_may (hl : l.All P) : ∀ i ∈ l.may.toList, P i :=
  fun i hi => hl i (.inr (ExtTreeSet.mem_toList.1 hi))

end Locations

namespace Memory
variable {m : Memory} {l : Locations} {i j : Index} {s : Segment} {P : Index → Prop}

theorem all_expand (hP : ∀ i j s, P i → (m.aliases i).strength? j = some s → P j) (hl : l.All P)
    (use : AliasReach) : (m.expand use l).All P := by
  have hall : ∀ i, P i → ∀ j ∈ (m.aliases i).toList, P j := by
    intro i hi j hj
    obtain ⟨s, hs⟩ := AliasSet.mem_toList.1 hj
    exact hP i j s hi hs
  have hmust : ∀ i ∈ reach (fun i => (m.aliases i).must) m.cells.size l.must, P i := by
    apply forall_mem_reach
    · intro i hi j hj
      exact hP i j _ hi (AliasSet.mem_ofStrength.1 hj)
    · exact fun i hi => hl i (.inl hi)
  cases use with
  | must => exact Locations.all_split hmust fun i hi => hl i (.inr hi)
  | all =>
    apply Locations.all_split hmust
    apply forall_mem_reach hall
    intro i hi
    rcases ExtTreeSet.mem_union_iff.1 hi with hi | hi
    · exact hmust i hi
    · exact hl i (.inr hi)

section
variable (hobject : ∀ id, P (.object id)) (hmember : ∀ i s, P i → P (i.member s))
include hobject

theorem of_mem_containersOf (hi : P i) (h : j ∈ m.containersOf i s) : P j := by
  unfold containersOf at h
  split at h
  · obtain ⟨o, -, rfl⟩ := List.mem_map.1 h
    exact hobject _
  · rwa [List.mem_singleton.1 h]

include hmember

theorem of_mem_membersOf {ofObject : Bool} (hi : P i) (h : j ∈ m.membersOf i ofObject) : P j := by
  unfold membersOf at h
  split at h
  · next id =>
    unfold fields at h
    split at h
    · obtain ⟨s, -, rfl⟩ := List.mem_map.1 h
      exact hmember _ s (hobject id)
    · cases h
  · cases h
  · obtain ⟨s, -, rfl⟩ := List.mem_map.1 h
    exact hmember _ s hi

theorem of_mem_membersNamed (hi : P i) (h : j ∈ m.membersNamed i s) : P j := by
  obtain ⟨c, hc, hj⟩ := List.mem_flatMap.1 h
  have hco := of_mem_containersOf hobject hi hc
  rcases List.mem_append.1 hj with hj | hj
  · split at hj
    · exact of_mem_membersOf hobject hmember hco hj
    · cases hj
  · rw [List.mem_singleton.1 hj]
    exact hmember _ s hco

theorem of_memberNamed? (hi : P i) (h : m.memberNamed? i s = some j) : P j := by
  unfold memberNamed? at h
  split at h
  · next c hc =>
    split at h
    · cases h
    · cases h
      have hmem : c ∈ m.containersOf i s := by simp [hc]
      exact hmember _ s (of_mem_containersOf hobject hi hmem)
  · cases h

theorem all_step (hl : l.All P) (s : Segment) : (m.step l s).All P := by
  apply Locations.all_split
  · intro j hj
    obtain ⟨i, hi, hij⟩ := List.mem_filterMap.1 (OrdSet.mem_ofList.1 hj)
    exact of_memberNamed? hobject hmember (hl i (.inl (ExtTreeSet.mem_toList.1 hi))) hij
  · intro j hj
    obtain ⟨i, hi, hij⟩ := List.mem_flatMap.1 (OrdSet.mem_ofList.1 hj)
    exact of_mem_membersNamed hobject hmember (hl i (Locations.mem_toList.1 hi)) hij

end

variable {V : Index → Value → Prop} {I : Memory → Prop}

theorem Survives.all_expand (hI : Survives P V I) (h : I m) (hl : l.All P) (use : AliasReach) :
    (m.expand use l).All P :=
  Memory.all_expand (fun _ _ _ _ => hI.aliased h) hl use

theorem Survives.all_step (hI : Survives P V I) (hl : l.All P) (s : Segment) :
    (m.step l s).All P :=
  Memory.all_step hI.object hI.member hl s

theorem Survives.all_follow (hI : Survives P V I) (h : I m) (use : AliasReach) {p : Path}
    {level : Nat} (hp : (Locations.ofVariable p level).All P) : (m.follow use p level).All P := by
  have hfold : ∀ (segments : List Segment) (l : Locations), l.All P →
      (segments.foldl (fun l s => m.step (m.expand use l) s) l).All P := by
    intro segments
    induction segments with
    | nil => exact fun _ hl => hl
    | cons s segments ih => exact fun l hl => ih _ (hI.all_step (hI.all_expand h hl use) s)
  exact hfold _ _ hp

theorem mem_membersNamed_of_memberNamed? (h : m.memberNamed? i s = some j) :
    j ∈ m.membersNamed i s := by
  unfold memberNamed? at h
  unfold membersNamed
  split at h
  · next c hc =>
    split at h
    · cases h
    · cases h
      rw [hc, List.flatMap_singleton]
      exact List.mem_append_right _ (List.mem_singleton.2 rfl)
  · cases h

theorem eq_member_of_mem_membersNamed (h : j ∈ m.membersNamed i s) :
    ∃ (c : Index) (t : Segment), j = c.member t := by
  obtain ⟨c, -, hj⟩ := List.mem_flatMap.1 h
  rcases List.mem_append.1 hj with hj | hj
  · split at hj
    · unfold membersOf at hj
      split at hj
      · unfold fields at hj
        split at hj
        · obtain ⟨t, -, rfl⟩ := List.mem_map.1 hj
          exact ⟨_, t, rfl⟩
        · cases hj
      · cases hj
      · obtain ⟨t, -, rfl⟩ := List.mem_map.1 hj
        exact ⟨_, t, rfl⟩
    · cases hj
  · exact ⟨c, s, List.mem_singleton.1 hj⟩

/-- A step leads to members, wherever it starts. -/
theorem all_step_of_member (hP : ∀ (i : Index) s, P (i.member s)) (m : Memory) (l : Locations)
    (s : Segment) : (m.step l s).All P := by
  have hnamed {i j : Index} (hj : j ∈ m.membersNamed i s) : P j := by
    obtain ⟨c, t, rfl⟩ := eq_member_of_mem_membersNamed hj
    exact hP c t
  apply Locations.all_split
  · intro j hj
    obtain ⟨i, -, hij⟩ := List.mem_filterMap.1 (OrdSet.mem_ofList.1 hj)
    exact hnamed (mem_membersNamed_of_memberNamed? hij)
  · intro j hj
    obtain ⟨i, -, hij⟩ := List.mem_flatMap.1 (OrdSet.mem_ofList.1 hj)
    exact hnamed hij

/-- A path ends at a variable or at a member, and neither is the slot for findings. -/
theorem follow_ne_diagnostics (m : Memory) (use : AliasReach) (p : Path) (level : Nat) :
    (m.follow use p level).All (· ≠ .diagnostics) := by
  have hfold : ∀ (segments : List Segment) (l : Locations), l.All (· ≠ .diagnostics) →
      (segments.foldl (fun l s => m.step (m.expand use l) s) l).All (· ≠ .diagnostics) := by
    intro segments
    induction segments with
    | nil => exact fun _ hl => hl
    | cons s segments ih =>
      exact fun l _ => ih _ (all_step_of_member (fun _ _ => nofun) m (m.expand use l) s)
  exact hfold _ _ (Locations.all_ofVariable (fun _ _ => nofun) p level)

/-- What may be held may be read, and so may nothing. -/
theorem all_entryOrUndefined {P : Value → Prop} {i : Index} (hundefined : P .undefined)
    (h : ∀ e, m.entry? i = some e → e.All P) : (m.entryOrUndefined i).All P := by
  unfold entryOrUndefined
  cases he : m.entry? i with
  | none => exact Entry.all_ofValue hundefined
  | some e => exact h e he

end Memory

namespace ArraySource
variable {a : ArraySource} {arrays : List ArraySource} {s : Segment}

/-- The memory that an array is copied from holds no references. -/
def IsData (a : ArraySource) : Prop :=
  ∀ i e, a.memory.entry? i = some e → e.IsData

theorem isData_of_mem_ofEntry {m : Memory} {e : Entry}
    (h : ∀ i e, m.entry? i = some e → e.IsData) (ha : a ∈ ofEntry m e) : a.IsData := by
  obtain ⟨j, -, rfl⟩ := List.mem_map.1 ha
  exact h

/-- What arrays hold at a member is what their memories hold, or undefined. -/
theorem all_memberEntry {P : Value → Prop} (hundefined : P .undefined)
    (h : ∀ a ∈ arrays, ∀ i e, a.memory.entry? i = some e → e.All P) (s : Segment) :
    (memberEntry arrays s).All P := by
  have hjoin : (((arrays.filter (·.segments.contains s)).map fun a =>
      a.memory.entryOrUndefined (a.owner.member s)).foldl Entry.join ∅).All P := by
    refine Entry.all_foldl_join (P := P) Entry.all_empty ?_
    intro f hf
    obtain ⟨a, ha, rfl⟩ := List.mem_map.1 hf
    exact Memory.all_entryOrUndefined hundefined (h a (List.mem_filter.1 ha).1 _)
  unfold memberEntry
  dsimp only
  split
  · exact hjoin.insert hundefined
  · exact hjoin

theorem isData_memberEntry (h : ∀ a ∈ arrays, a.IsData) (s : Segment) :
    (memberEntry arrays s).IsData :=
  all_memberEntry (P := fun v => v.isReference = false) rfl h s

theorem isData_of_mem_memberArrays (h : ∀ a ∈ arrays, a.IsData) (ha : a ∈ memberArrays arrays s) :
    a.IsData := by
  obtain ⟨b, hb, rfl⟩ := List.mem_map.1 ha
  exact h b (List.mem_filter.1 hb).1

end ArraySource

/-- The object that a write makes where a location holds none. -/
def ObjectValue.madeAt (i : Index) : ObjectValue :=
  { id := i.text, className := ({} : ObjectDescriptor).className }

/-- What a segment looks into below a location is there. -/
def Memory.Opened (m : Memory) (s : Segment) (i : Index) : Prop :=
  if s.isField then m.objectsAt i ≠ [] else m.holdsArray i = true

namespace Draft
variable {P : Index → Prop} {V : Index → Value → Prop} {I : Memory → Prop} {d : Draft} {i : Index}
  {e : Entry} {arrays : List ArraySource} {l : Locations} {p : Path} {level : Nat}

/-- A draft writes the entry it is given, or what simplification makes of it. -/
theorem write_eq (d : Draft) (i : Index) (e : Entry) :
    ∃ f, (d.write i e).memory = d.memory.write i f ∧ e.WrittenAs f := by
  unfold write simplify?
  cases hl : d.limit with
  | none => exact ⟨e, rfl, .inl rfl⟩
  | some limit =>
    cases hs : e.simplify? limit with
    | none => exact ⟨e, by simp [hs, update], .inl rfl⟩
    | some f => exact ⟨f, by simp [hs, update], .inr ⟨limit, hs⟩⟩

theorem survives_write (hI : Memory.Survives P V I) (h : I d.memory) (hi : P i)
    (he : e.All (V i)) : I (d.write i e).memory := by
  obtain ⟨f, hf, hwritten⟩ := write_eq d i e
  rw [hf]
  exact hI.write h hi (he.writtenAs (fun _ => hI.storable rfl rfl) hwritten)

theorem held_entryOrUndefined (hI : Memory.Survives P V I) (h : I d.memory) (i : Index) :
    (d.memory.entryOrUndefined i).All (V i) := by
  unfold Memory.entryOrUndefined
  cases he : d.memory.entry? i with
  | none => exact Entry.all_ofValue (hI.storable rfl rfl)
  | some e => exact hI.held h he

/-- What is placed at a location that holds `old`. -/
def placed (old : Entry) (i : Index) (e : Entry) (hasArray strong : Bool) : Entry :=
  let others := e.filter fun v => v.arrayOwner?.isNone
  let values := if hasArray then others.insert (.array i) else others
  if strong then values else old.join values

theorem place_eq (d : Draft) (i : Index) (e : Entry) (hasArray strong : Bool) :
    d.place i e hasArray strong = (if strong then d.update (·.clearMembers i) else d).write i
      (placed (d.memory.entryOrUndefined i) i e hasArray strong) := by
  unfold place placed
  cases strong <;> rfl

/-- What is placed was there, or is written, or is the array of the location itself. -/
theorem all_placed {W : Value → Prop} {old : Entry} (hold : old.All W) (hown : W (.array i))
    (he : ∀ v ∈ e, v.arrayOwner? = none → W v) (hasArray strong : Bool) :
    (placed old i e hasArray strong).All W := by
  have hothers : (e.filter fun v => v.arrayOwner?.isNone).All W := by
    intro v hv
    obtain ⟨hv, hnone⟩ := Entry.mem_filter.1 hv
    exact he v hv (Option.isNone_iff_eq_none.1 hnone)
  have hvalues : (if hasArray then (e.filter fun v => v.arrayOwner?.isNone).insert (.array i)
      else e.filter fun v => v.arrayOwner?.isNone).All W := by
    split
    · exact hothers.insert hown
    · exact hothers
  unfold placed
  dsimp only
  split
  · exact hvalues
  · exact hold.join hvalues

theorem survives_place (hI : Memory.Survives P V I) (h : I d.memory) (hi : P i) (he : e.IsData)
    (hasArray strong : Bool) : I (d.place i e hasArray strong).memory := by
  have hplaced := all_placed (held_entryOrUndefined hI h i) (hI.own i)
    (fun v hv => hI.storable (he v hv)) hasArray strong
  rw [place_eq]
  cases strong with
  | false => exact survives_write hI h hi hplaced
  | true =>
    exact survives_write hI (d := d.update (·.clearMembers i)) (hI.clearMembers h hi) hi hplaced

theorem survives_copy (hI : Memory.Survives P V I) {depth : Nat} (h : I d.memory) (hi : P i)
    (he : e.IsData) (ha : ∀ a ∈ arrays, a.IsData) (strong : Bool) :
    I (copy depth d i e arrays strong).memory := by
  induction depth generalizing d i e arrays with
  | zero => exact survives_place hI h hi he _ _
  | succ depth ih =>
    -- the members are copied one after the other, each into what the last one left
    have hfold : ∀ (segments : List Segment) (d : Draft), I d.memory →
        I (segments.foldl (fun d s => copy depth d (i.member s) (ArraySource.memberEntry arrays s)
          (ArraySource.memberArrays arrays s) strong) d).memory := by
      intro segments
      induction segments with
      | nil => exact fun _ h => h
      | cons s segments ihs =>
        intro d h
        apply ihs
        exact ih h (hI.member i s hi) (ArraySource.isData_memberEntry ha s)
          fun a => ArraySource.isData_of_mem_memberArrays ha
    exact hfold _ _ (survives_place hI h hi he _ _)

theorem survives_store (hI : Memory.Survives P V I) (h : I d.memory) (hi : P i) (he : e.IsData)
    (ha : ∀ a ∈ arrays, a.IsData) (strong : Bool) : I (d.store i e arrays strong).memory :=
  survives_copy hI h hi he ha strong

/-- A property that holds before and survives each step of a fold over locations. -/
theorem survives_foldl {f : Draft → Index → Draft} {is : List Index}
    (hf : ∀ d i, I d.memory → P i → I (f d i).memory) (h : I d.memory)
    (his : ∀ i ∈ is, P i) : I (is.foldl f d).memory := by
  induction is generalizing d with
  | nil => exact h
  | cons i is ih =>
    exact ih (hf d i h (his i List.mem_cons_self)) fun j hj => his j (List.mem_cons_of_mem i hj)

theorem survives_storeAll (hI : Memory.Survives P V I) (h : I d.memory) (hl : l.All P)
    (he : e.IsData) (ha : ∀ a ∈ arrays, a.IsData) (force : Bool) :
    I (d.storeAll l e arrays force).memory := by
  have hstore (strong : Bool) (d : Draft) (i : Index) (h : I d.memory) (hi : P i) :
      I (d.store i e arrays strong).memory := survives_store hI h hi he ha strong
  exact survives_foldl (hstore false) (survives_foldl (hstore _) h hl.mem_must) hl.mem_may

/-- Adds a container to a location, in place of what was there or besides it. -/
def add (d : Draft) (i : Index) (v : Value) (certain : Bool) : Draft :=
  d.write i (if certain then .ofValue v else (d.memory.entryOrUndefined i).insert v)

/-- Where the container is there, nothing is made. -/
theorem prepare_of_opened {s : Segment} (h : d.memory.Opened s i) (certain : Bool) :
    d.prepare s certain i = d := by
  unfold Memory.Opened at h
  unfold prepare
  dsimp only
  cases hs : s.isField with
  | true =>
    rw [hs, if_pos rfl] at h
    rw [if_pos rfl, if_neg (by simpa using h)]
  | false =>
    rw [hs, if_neg Bool.false_ne_true] at h
    rw [if_neg Bool.false_ne_true, if_pos h]

theorem prepare_field {s : Segment} (hs : s.isField = true) (h : d.memory.objectsAt i = [])
    (certain : Bool) : d.prepare s certain i =
      (d.update (·.declareObject (.madeAt i))).add i (.object (.madeAt i)) certain := by
  unfold prepare
  rw [if_pos hs, h]
  rfl

theorem prepare_key {s : Segment} (hs : s.isField = false) (h : ¬d.memory.holdsArray i = true)
    (certain : Bool) : d.prepare s certain i = d.add i (.array i) certain := by
  unfold prepare
  rw [if_neg (Bool.eq_false_iff.1 hs), if_neg h]
  rfl

/-- At most one value is added, the object or the array that the member is to be in. -/
theorem prepare_cases (d : Draft) (s : Segment) (certain : Bool) (i : Index) :
    d.memory.Opened s i ∧ d.prepare s certain i = d ∨
    s.isField = true ∧ d.memory.objectsAt i = [] ∧ d.prepare s certain i =
      (d.update (·.declareObject (.madeAt i))).add i (.object (.madeAt i)) certain ∨
    s.isField = false ∧ ¬d.memory.holdsArray i = true ∧
      d.prepare s certain i = d.add i (.array i) certain := by
  by_cases hopened : d.memory.Opened s i
  · exact .inl ⟨hopened, prepare_of_opened hopened certain⟩
  · unfold Memory.Opened at hopened
    refine .inr ?_
    cases hs : s.isField with
    | true =>
      rw [hs, if_pos rfl, not_not] at hopened
      exact .inl ⟨rfl, hopened, prepare_field hs hopened certain⟩
    | false =>
      rw [hs, if_neg Bool.false_ne_true] at hopened
      exact .inr ⟨rfl, hopened, prepare_key hs hopened certain⟩

theorem survives_add (hI : Memory.Survives P V I) (h : I d.memory) (hi : P i) {v : Value}
    (hv : V i v) (certain : Bool) : I (d.add i v certain).memory := by
  apply survives_write hI h hi
  split
  · exact Entry.all_ofValue hv
  · exact (held_entryOrUndefined hI h i).insert hv

theorem survives_prepare (hI : Memory.Survives P V I) (h : I d.memory) (hi : P i) (s : Segment)
    (certain : Bool) : I (d.prepare s certain i).memory := by
  rcases d.prepare_cases s certain i with ⟨-, heq⟩ | ⟨-, -, heq⟩ | ⟨-, -, heq⟩ <;> rw [heq]
  · exact h
  · exact survives_add hI (d := d.update (·.declareObject _)) (hI.declareObject h) hi
      (hI.storable rfl rfl) certain
  · exact survives_add hI h hi (hI.own i) certain

theorem survives_advance (hI : Memory.Survives P V I) (h : I d.memory) (hl : l.All P)
    (s : Segment) :
    I (advance s (d, l)).1.memory ∧ (advance s (d, l)).2.All P := by
  have hexpand := hI.all_expand h hl .all
  have hprepare (certain : Bool) (d : Draft) (i : Index) (h : I d.memory) (hi : P i) :
      I (d.prepare s certain i).memory := survives_prepare hI h hi s certain
  exact ⟨survives_foldl (hprepare false) (survives_foldl (hprepare true) h hexpand.mem_must)
    hexpand.mem_may, hI.all_step hexpand s⟩

theorem survives_follow (hI : Memory.Survives P V I) (h : I d.memory)
    (hp : (Locations.ofVariable p level).All P) :
    I (d.follow p level).1.memory ∧ (d.follow p level).2.All P := by
  -- by induction on the path; each segment moves the locations down
  have hfold : ∀ (segments : List Segment) (d : Draft) (l : Locations), I d.memory →
      l.All P → I (segments.foldl (fun dl s => advance s dl) (d, l)).1.memory ∧
        (segments.foldl (fun dl s => advance s dl) (d, l)).2.All P := by
    intro segments
    induction segments with
    | nil => exact fun d l h hl => ⟨h, hl⟩
    | cons s segments ih =>
      intro d l h hl
      obtain ⟨h', hl'⟩ := survives_advance hI h hl s
      exact ih _ _ h' hl'
  exact hfold _ _ _ h hp

theorem survives_resolve (hI : Memory.Survives P V I) (h : I d.memory)
    (hp : (Locations.ofVariable p level).All P) :
    I (d.resolve p level).1.memory ∧ (d.resolve p level).2.All P := by
  obtain ⟨h', hl⟩ := survives_follow hI h hp
  exact ⟨h', hI.all_expand h' hl .all⟩

theorem survives_assign (hI : Memory.Survives P V I) (h : I d.memory) (he : e.IsData)
    (hp : (Locations.ofVariable p level).All P) (force : Bool) :
    I (d.assign p level e force).memory := by
  obtain ⟨h', hl⟩ := survives_resolve hI h hp
  exact survives_storeAll hI h' hl he
    (fun a => ArraySource.isData_of_mem_ofEntry (hI.isData h')) force

/-- An array without members has nothing that could be copied. -/
theorem survives_createArray (hI : Memory.Survives P V I) (h : I d.memory)
    (hp : (Locations.ofVariable p level).All P) :
    I ((d.resolve p level).1.storeAll (d.resolve p level).2 (.ofValue (.array .freshArray)) [.blank]
      true).memory := by
  obtain ⟨h', hl⟩ := survives_resolve hI h hp
  refine survives_storeAll hI h' hl (Entry.all_ofValue rfl) ?_ true
  intro a ha j f hf
  rw [List.mem_singleton.1 ha] at hf
  have hnone : Memory.entry? (ArraySource.blank).memory j = none := rfl
  exact nomatch hnone.symm.trans hf

theorem survives_unset (hI : Memory.Survives P V I) (h : I d.memory)
    (hp : (Locations.ofVariable p d.memory.level).All P) : I (d.unset p).memory := by
  have hl := hI.all_follow h .all hp
  have hslot := Memory.follow_ne_diagnostics d.memory .all p d.memory.level
  apply survives_foldl _
    (hI.remove h fun i hi => ⟨hl.mem_must i hi, hslot.mem_must i hi⟩) hl.mem_may
  intro d i h hi
  split
  · exact survives_store hI h hi Entry.isData_undefined (by simp) false
  · exact h

end Draft
end ScriptMemory
