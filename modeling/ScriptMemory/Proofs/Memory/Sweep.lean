import ScriptMemory.Proofs.Memory.Renewal

/-! Writing to all that a path denotes. The locations that are reached together lie equally deep, so
none of them contains another or the container of another: each is written as if it were the only
one. -/
namespace ScriptMemory
open Std

namespace Locations
variable {l : Locations} {m n : Memory} {k : Nat} {i : Index}

/-- The locations in the order in which they are written, each with whether it is certain. -/
def visits (l : Locations) : List (Bool × Index) :=
  l.must.toList.map (true, ·) ++ l.may.toList.map (false, ·)

theorem mem_visits {v : Bool × Index} :
    v ∈ l.visits ↔ v.1 = true ∧ v.2 ∈ l.must ∨ v.1 = false ∧ v.2 ∈ l.may := by
  obtain ⟨c, i⟩ := v
  unfold visits
  rw [List.mem_append, List.mem_map, List.mem_map]
  simp only [ExtTreeSet.mem_toList, Prod.mk.injEq]
  constructor
  · rintro (⟨j, hj, rfl, rfl⟩ | ⟨j, hj, rfl, rfl⟩)
    · exact .inl ⟨rfl, hj⟩
    · exact .inr ⟨rfl, hj⟩
  · rintro (⟨rfl, hi⟩ | ⟨rfl, hi⟩)
    · exact .inl ⟨i, hi, rfl, rfl⟩
    · exact .inr ⟨i, hi, rfl, rfl⟩

/-- No location is both certain and merely possible. -/
def Separate (l : Locations) : Prop :=
  ∀ i ∈ l.must, i ∉ l.may

theorem separate_split (must all : OrdSet Index) (unknown : Bool) :
    (split must all unknown).Separate :=
  fun _ hi hm => (ExtTreeSet.mem_diff_iff.1 hm).2 hi

theorem nodup_visits (h : l.Separate) : (l.visits.map Prod.snd).Nodup := by
  unfold visits
  rw [List.map_append, List.map_map, List.map_map]
  change (l.must.toList.map id ++ l.may.toList.map id).Nodup
  rw [List.map_id, List.map_id]
  refine List.nodup_append.2 ⟨OrdSet.nodup_toList _, OrdSet.nodup_toList _, ?_⟩
  rintro i hi j hj rfl
  exact h i (ExtTreeSet.mem_toList.1 hi) (ExtTreeSet.mem_toList.1 hj)

theorem foldl_visits {α : Type} (f : Bool → α → Index → α) (a : α) :
    l.visits.foldl (fun a v => f v.1 a v.2) a =
      l.may.toList.foldl (f false) (l.must.toList.foldl (f true) a) := by
  unfold visits
  rw [List.foldl_append, List.foldl_map, List.foldl_map]

/-- The containers of the locations are there, and all of them lie `k` deep. -/
def Ready (m : Memory) (k : Nat) (l : Locations) : Prop :=
  l.All fun i => m.Hosts i ∧ i.depth = k

theorem Ready.visits (h : l.Ready m k) : ∀ v ∈ l.visits, m.Hosts v.2 ∧ v.2.depth = k := by
  intro v hv
  rcases mem_visits.1 hv with ⟨-, hv⟩ | ⟨-, hv⟩
  · exact h v.2 (.inl hv)
  · exact h v.2 (.inr hv)

theorem ready_ofVariable (m : Memory) (p : Path) (level : Nat) : (ofVariable p level).Ready m 0 :=
  all_ofVariable (fun _ _ => ⟨fun _ => (nomatch ·), rfl⟩) p level

end Locations

namespace Draft
variable {d : Draft} {f : Draft → Bool × Index → Draft} {visits : List (Bool × Index)} {k : Nat}

/-- A location as deep as some others is in none of them, and its container even less. -/
theorem Renewed.hosts_of_depth {d' : Draft} {i : Index} (h : d.Renewed (k ≤ ·.depth) d')
    (hi : d.memory.Hosts i) (hk : i.depth = k) : d'.memory.Hosts i := by
  apply h.hosts hi
  rintro p s rfl
  have hdepth : p.depth + 1 = k := hk
  omega

section
variable (hv : ∀ v ∈ visits, d.memory.Hosts v.2 ∧ v.2.depth = k)
  (hf : ∀ d' v, v ∈ visits → d.Renewed (k ≤ ·.depth) d' → d'.memory.Hosts v.2 →
    d'.Renewed v.2.Contains (f d' v))
include hv hf

theorem renewed_foldl_of_subset {rest : List (Bool × Index)} (hrest : ∀ v ∈ rest, v ∈ visits)
    {d' : Draft} (h : d.Renewed (k ≤ ·.depth) d') :
    d'.Renewed (fun j => ∃ v ∈ rest, v.2.Contains j) (rest.foldl f d') := by
  induction rest generalizing d' with
  | nil => exact .refl h.neat _
  | cons v rest ih =>
    have hmem := hrest v List.mem_cons_self
    obtain ⟨hhosts, hdepth⟩ := hv v hmem
    have hstep := hf d' v hmem h (h.hosts_of_depth hhosts hdepth)
    have hwithin : d.Renewed (k ≤ ·.depth) (f d' v) :=
      h.trans (hstep.mono fun j hj => hdepth ▸ hj.depth_le)
    apply (hstep.mono fun j hj => ⟨v, List.mem_cons_self, hj⟩).trans
    apply (ih (fun w hw => hrest w (List.mem_cons_of_mem v hw)) hwithin).mono
    rintro j ⟨w, hw, hj⟩
    exact ⟨w, List.mem_cons_of_mem v hw, hj⟩

/-- Writing to equally deep locations one after the other changes nothing outside of them. -/
theorem renewed_foldl (h : d.memory.Neat) :
    d.Renewed (fun j => ∃ v ∈ visits, v.2.Contains j) (visits.foldl f d) :=
  renewed_foldl_of_subset hv hf (fun _ => id) (.refl h _)

/-- Each of the locations ends up as its own write leaves it. -/
theorem foldl_at (h : d.memory.Neat) (hnodup : (visits.map Prod.snd).Nodup) {v : Bool × Index}
    (hmem : v ∈ visits) : ∃ d', d.Renewed (k ≤ ·.depth) d' ∧ d'.memory.Hosts v.2 ∧
      d'.memory.entry? v.2 = d.memory.entry? v.2 ∧
      Memory.entry? (visits.foldl f d).memory v.2 = Memory.entry? (f d' v).memory v.2 := by
  obtain ⟨front, rest, rfl⟩ := List.append_of_mem hmem
  rw [List.map_append, List.map_cons, List.nodup_append, List.nodup_cons] at hnodup
  obtain ⟨-, ⟨hnotRest, -⟩, hnotFront⟩ := hnodup
  obtain ⟨hhosts, hdepth⟩ := hv v hmem
  -- another location contains it only if it is the same one
  have heq (w : Bool × Index) (hw : w ∈ front ++ v :: rest) (hc : w.2.Contains v.2) :
      w.2 = v.2 :=
    hc.eq_of_depth_le (Nat.le_of_eq (by rw [(hv w hw).2, hdepth]))
  have hdeep {some : List (Bool × Index)} (hsome : ∀ w ∈ some, w ∈ front ++ v :: rest) (j : Index)
      (hj : ∃ w ∈ some, w.2.Contains j) : k ≤ j.depth := by
    obtain ⟨w, hw, hc⟩ := hj
    exact (hv w (hsome w hw)).2 ▸ hc.depth_le
  have hmemFront : ∀ w ∈ front, w ∈ front ++ v :: rest := fun w => List.mem_append_left _
  have hmemRest : ∀ w ∈ rest, w ∈ front ++ v :: rest :=
    fun w hw => List.mem_append_right _ (List.mem_cons_of_mem v hw)
  have hfront := renewed_foldl_of_subset hv hf hmemFront (.refl h _)
  have hbefore := hfront.mono (hdeep hmemFront)
  have hstep := hf _ v hmem hbefore (hbefore.hosts_of_depth hhosts hdepth)
  have hrest := renewed_foldl_of_subset hv hf hmemRest
    (hbefore.trans (hstep.mono fun j hj => hdepth ▸ hj.depth_le))
  refine ⟨front.foldl f d, hbefore, hbefore.hosts_of_depth hhosts hdepth, ?_, ?_⟩
  · apply hfront.entry?_eq
    rintro ⟨w, hw, hc⟩
    exact hnotFront w.2 (List.mem_map_of_mem hw) v.2 List.mem_cons_self (heq w (hmemFront w hw) hc)
  · rw [List.foldl_append, List.foldl_cons]
    apply hrest.entry?_eq
    rintro ⟨w, hw, hc⟩
    exact hnotRest (heq w (hmemRest w hw) hc ▸ List.mem_map_of_mem hw)

end

end Draft

namespace Memory
variable {m : Memory} {l : Locations} {k : Nat} {s : Segment} {i j c : Index}

/-- Only variables have aliases, and those are variables, too. -/
theorem Neat.ready_expand (h : m.Neat) (hl : l.Ready m k) (use : AliasReach) :
    (m.expand use l).Ready m k := by
  apply all_expand _ hl
  rintro i j t ⟨-, hk⟩ hs
  have hi := h.aliased i j t hs
  obtain ⟨name, table, rfl⟩ := h.aliased_right hs
  refine ⟨fun _ => (nomatch ·), ?_⟩
  exact hi.depth_eq.symm.trans hk

theorem separate_expand (m : Memory) (use : AliasReach) (l : Locations) :
    (m.expand use l).Separate := by
  cases use <;> exact Locations.separate_split _ _ _

theorem Opened.congr {n : Memory} (h : m.Opened s i) (he : n.entry? i = m.entry? i) :
    n.Opened s i := by
  unfold Opened objectsAt at *
  rwa [he, holdsArray_congr he]

section
variable (h : m.Tidy) (hk : i.depth = k) (hopened : m.Opened s i)
include h hk hopened

/-- The containers of a member hold it, and the member lies as deep as the kind of the segment
says. -/
theorem Tidy.hosts_of_mem_containersOf (hc : c ∈ m.containersOf i s) :
    m.Hosts (c.member s) ∧ c.depth = if s.isField then 0 else k := by
  unfold containersOf at hc
  unfold Opened at hopened
  cases hs : s.isField with
  | true =>
    rw [hs, if_pos rfl] at hopened
    rw [hs, if_pos (by simpa using hopened)] at hc
    obtain ⟨o, ho, rfl⟩ := List.mem_map.1 hc
    obtain ⟨e, he, ho⟩ := mem_objectsAt.1 ho
    exact ⟨.inr ⟨hs, o.id, rfl, h.introduces i e he o ho⟩, rfl⟩
  | false =>
    rw [hs, if_neg (by simp)] at hopened
    rw [hs, if_neg (by simp)] at hc
    rw [List.mem_singleton.1 hc]
    exact ⟨.inl ⟨hs, hopened⟩, hk⟩

theorem Tidy.hosts_of_mem_membersNamed (hj : j ∈ m.membersNamed i s) :
    m.Hosts j ∧ j.depth = if s.isField then 1 else k + 1 := by
  obtain ⟨c, hc, hj⟩ := List.mem_flatMap.1 hj
  obtain ⟨hhosts, hdepth⟩ := h.hosts_of_mem_containersOf hk hopened hc
  have hmember (t : Segment) : (c.member t).depth = if s.isField then 1 else k + 1 := by
    change c.depth + 1 = _
    rw [hdepth]
    split <;> rfl
  -- what is listed has an entry, and with it a container
  have hlisted {t : Segment} (he : ∃ e, m.entry? (c.member t) = some e) :
      m.Hosts (c.member t) ∧ (c.member t).depth = if s.isField then 1 else k + 1 := by
    obtain ⟨e, he⟩ := he
    exact ⟨h.hosts he, hmember t⟩
  rcases List.mem_append.1 hj with hj | hj
  · split at hj
    · unfold membersOf at hj
      split at hj
      · next id _ _ =>
        unfold fields at hj
        split at hj
        · next d hd =>
          obtain ⟨t, ht, rfl⟩ := List.mem_map.1 hj
          exact hlisted (h.field id d hd t (ExtTreeSet.mem_toList.1 ht))
        · cases hj
      · cases hj
      · obtain ⟨t, ht, rfl⟩ := mem_members.1 hj
        exact hlisted (h.member _ t ht).2
    · cases hj
  · rw [List.mem_singleton.1 hj]
    exact ⟨hhosts, hmember s⟩

end

theorem Tidy.ready_step (h : m.Tidy) (hl : l.Ready m k)
    (hopened : l.All (m.Opened s)) :
    (m.step l s).Ready m (if s.isField then 1 else k + 1) := by
  apply Locations.all_split
  · intro j hj
    obtain ⟨i, hi, hij⟩ := List.mem_filterMap.1 (OrdSet.mem_ofList.1 hj)
    have hi : i ∈ l.must ∨ i ∈ l.may := .inl (ExtTreeSet.mem_toList.1 hi)
    exact h.hosts_of_mem_membersNamed (hl i hi).2 (hopened i hi)
      (mem_membersNamed_of_memberNamed? hij)
  · intro j hj
    obtain ⟨i, hi, hij⟩ := List.mem_flatMap.1 (OrdSet.mem_ofList.1 hj)
    have hi := Locations.mem_toList.1 hi
    exact h.hosts_of_mem_membersNamed (hl i hi).2 (hopened i hi) hij

end Memory

namespace Draft
variable {d : Draft} {l : Locations} {k b : Nat} {e : Entry} {arrays : List ArraySource} {p : Path}
  {level : Nat}

theorem Renewed.ready {d' : Draft} (h : d.Renewed (k ≤ ·.depth) d') (hl : l.Ready d.memory k) :
    l.Ready d'.memory k :=
  fun i hi => ⟨h.hosts_of_depth (hl i hi).1 (hl i hi).2, (hl i hi).2⟩

/-- Makes the containers for a segment at some locations. -/
def prepareAll (d : Draft) (s : Segment) (l : Locations) : Draft :=
  l.visits.foldl (fun d v => d.prepare s v.1 v.2) d

theorem advance_eq (d : Draft) (s : Segment) (l : Locations) : advance s (d, l) =
    let l := d.memory.expand .all l
    (d.prepareAll s l, (d.prepareAll s l).memory.step l s) := by
  have hsweep (l : Locations) : d.prepareAll s l = l.may.toList.foldl (prepare · s false)
      (l.must.toList.foldl (prepare · s true) d) := by
    unfold prepareAll
    exact Locations.foldl_visits (fun c (d : Draft) i => d.prepare s c i) d
  unfold advance
  dsimp only
  rw [hsweep]

theorem renewed_prepareAll (h : d.memory.Neat) (hl : l.Ready d.memory k) (s : Segment) :
    d.Renewed (fun j => ∃ v ∈ l.visits, v.2.Contains j) (d.prepareAll s l) :=
  renewed_foldl hl.visits (fun _ v _ hd' hv => renewed_prepare hd'.neat hv s v.1) h

/-- All of the locations have what the segment looks into. -/
theorem opened_prepareAll (h : d.memory.Neat) (hl : l.Ready d.memory k) (hseparate : l.Separate)
    (s : Segment) : l.All ((d.prepareAll s l).memory.Opened s) := by
  intro i hi
  have hv : ∃ c, (c, i) ∈ l.visits := by
    rcases hi with hi | hi
    · exact ⟨true, Locations.mem_visits.2 (.inl ⟨rfl, hi⟩)⟩
    · exact ⟨false, Locations.mem_visits.2 (.inr ⟨rfl, hi⟩)⟩
  obtain ⟨c, hv⟩ := hv
  obtain ⟨d', -, -, -, hentry⟩ := foldl_at hl.visits
    (fun _ v _ hd' hv => renewed_prepare hd'.neat hv s v.1) h (Locations.nodup_visits hseparate) hv
  exact (opened_prepare d' s c i).congr hentry

/-- One segment down, from locations at least as deep as `b`. -/
theorem ready_advance (h : d.memory.Neat) (hl : l.Ready d.memory k) (s : Segment) :
    d.Renewed (k ≤ ·.depth) (advance s (d, l)).1 ∧
      (advance s (d, l)).2.Ready (advance s (d, l)).1.memory (if s.isField then 1 else k + 1) := by
  have hexpand := h.ready_expand hl .all
  have hrenewed : d.Renewed (k ≤ ·.depth) (d.prepareAll s (d.memory.expand .all l)) := by
    apply (renewed_prepareAll h hexpand s).mono
    rintro j ⟨v, hv, hj⟩
    exact (hexpand.visits v hv).2 ▸ hj.depth_le
  rw [advance_eq]
  refine ⟨hrenewed, hrenewed.neat.ready_step (hrenewed.ready hexpand) ?_⟩
  exact opened_prepareAll h hexpand (Memory.separate_expand _ _ _) s

/-- All the way down a path. Below the variables nothing is written but what lies below them. -/
theorem ready_foldl_advance (hb : b ≤ 1) (h : d.memory.Neat) (hl : l.Ready d.memory k) (hk : b ≤ k)
    (segments : List Segment) :
    d.Renewed (b ≤ ·.depth) (segments.foldl (fun dl s => advance s dl) (d, l)).1 ∧
      ∃ k', b ≤ k' ∧ (segments.foldl (fun dl s => advance s dl) (d, l)).2.Ready
        (segments.foldl (fun dl s => advance s dl) (d, l)).1.memory k' := by
  induction segments generalizing d l k with
  | nil => exact ⟨.refl h _, k, hk, hl⟩
  | cons s segments ih =>
    obtain ⟨hrenewed, hready⟩ := ready_advance h hl s
    have hk' : b ≤ if s.isField then 1 else k + 1 := by
      split <;> omega
    obtain ⟨hrest, hlast⟩ := ih hrenewed.neat hready hk'
    exact ⟨(hrenewed.mono fun j hj => Nat.le_trans hk hj).trans hrest, hlast⟩

theorem ready_resolve (h : d.memory.Neat) (p : Path) (level : Nat) :
    d.Renewed (fun _ => True) (d.resolve p level).1 ∧
      ∃ k, (d.resolve p level).2.Ready (d.resolve p level).1.memory k := by
  obtain ⟨hrenewed, k, -, hready⟩ := ready_foldl_advance (Nat.zero_le 1) h
    (Locations.ready_ofVariable d.memory p level) (Nat.zero_le 0) p.segments
  exact ⟨hrenewed.mono fun _ _ => trivial, k, hrenewed.neat.ready_expand hready .all⟩

/-- An entry that may be stored, together with the arrays it is copied from. -/
structure Storable (m : Memory) (e : Entry) (arrays : List ArraySource) : Prop where
  isData : e.IsData
  introduces : m.Introduces e
  available : ∀ a ∈ arrays, a.Available m

theorem Storable.mono {m n : Memory} (h : Storable m e arrays)
    (ho : ∀ id : ObjectId, id ∈ m.objects → id ∈ n.objects) : Storable n e arrays :=
  ⟨h.isData, h.introduces.mono ho, fun a ha => (h.available a ha).mono ho⟩

/-- A value that is no array may be stored, unless it is an object that nobody knows. -/
theorem storable_ofValue {m : Memory} {v : Value} (hv : v.isReference = false)
    (ho : ∀ o, v = .object o → o.id ∈ m.objects) : Storable m (.ofValue v) [] where
  isData := Entry.all_ofValue hv
  introduces := Memory.introduces_ofValue ho
  available := fun _ ha => absurd ha List.not_mem_nil

/-- What was read of tidy memory may be stored, once its objects are there. -/
theorem storable_ofEntry {m n : Memory} (hm : m.Tidy) (he : e.IsData) (hin : m.Introduces e)
    (ho : ∀ id : ObjectId, id ∈ m.objects → id ∈ n.objects) :
    Storable n e (ArraySource.ofEntry m e) :=
  ⟨he, hin.mono ho, fun _ => ArraySource.available_of_mem_ofEntry hm ho⟩

theorem storeAll_eq (d : Draft) (l : Locations) (e : Entry) (arrays : List ArraySource)
    (force : Bool) : d.storeAll l e arrays force =
      l.visits.foldl (fun d v => d.store v.2 e arrays (v.1 && (force || !l.unknown))) d := by
  have hsweep := Locations.foldl_visits (l := l)
    (fun c (d : Draft) i => d.store i e arrays (c && (force || !l.unknown))) d
  simp only [Bool.true_and, Bool.false_and] at hsweep
  exact hsweep.symm

theorem renewed_storeAll (h : d.memory.Neat) (hl : l.Ready d.memory k)
    (he : Storable d.memory e arrays) (force : Bool) :
    d.Renewed (fun j => ∃ v ∈ l.visits, v.2.Contains j) (d.storeAll l e arrays force) := by
  rw [storeAll_eq]
  apply renewed_foldl hl.visits _ h
  intro d' v _ hd' hv
  have he' := he.mono hd'.objects
  exact renewed_store hd'.neat hv he'.isData he'.introduces he'.available _

theorem renewed_assign (h : d.memory.Neat) (he : e.IsData) (hin : d.memory.Introduces e)
    (p : Path) (level : Nat) (force : Bool) :
    d.Renewed (fun _ => True) (d.assign p level e force) := by
  obtain ⟨hrenewed, k, hready⟩ := ready_resolve h p level
  have hstored := renewed_storeAll hrenewed.neat hready
    (storable_ofEntry hrenewed.neat.toTidy he (hin.mono hrenewed.objects) fun _ => id) force
  exact hrenewed.trans (hstored.mono fun _ _ => trivial)

theorem renewed_storeResult (h : d.memory.Neat) (he : Storable d.memory e arrays) (level : Nat)
    (result : Option Path) : d.Renewed (fun _ => True) (d.storeResult level result e arrays) := by
  cases result with
  | none => exact .refl h _
  | some p =>
    obtain ⟨hrenewed, k, hready⟩ := ready_resolve h p level
    have hstored := renewed_storeAll hrenewed.neat hready (he.mono hrenewed.objects) true
    exact hrenewed.trans (hstored.mono fun _ _ => trivial)

theorem limit_foldl {α : Type} {f : Draft → α → Draft} (hf : ∀ d a, (f d a).limit = d.limit)
    (l : List α) (d : Draft) : (l.foldl f d).limit = d.limit := by
  induction l generalizing d with
  | nil => rfl
  | cons a l ih => exact (ih (f d a)).trans (hf d a)

theorem limit_copy (depth : Nat) (d : Draft) (i : Index) (e : Entry) (arrays : List ArraySource)
    (strong : Bool) : (copy depth d i e arrays strong).limit = d.limit := by
  have hplace (d : Draft) (i : Index) (e : Entry) (hasArray : Bool) :
      (d.place i e hasArray strong).limit = d.limit := by
    rw [place_eq, limit_write]
    cases strong <;> rfl
  induction depth generalizing d i e arrays with
  | zero => exact hplace d i e _
  | succ depth ih => exact (limit_foldl (fun d s => ih d _ _ _) _ _).trans (hplace d i e _)

theorem limit_storeAll (d : Draft) (l : Locations) (e : Entry) (arrays : List ArraySource)
    (force : Bool) : (d.storeAll l e arrays force).limit = d.limit := by
  rw [storeAll_eq]
  exact limit_foldl (fun d (v : Bool × Index) => limit_copy _ d v.2 e arrays _) _ d

theorem limit_prepare (d : Draft) (s : Segment) (certain : Bool) (i : Index) :
    (d.prepare s certain i).limit = d.limit := by
  rcases d.prepare_cases s certain i with ⟨-, heq⟩ | ⟨-, -, heq⟩ | ⟨-, -, heq⟩
  · rw [heq]
  · rw [heq]
    exact limit_write _ i _
  · rw [heq]
    exact limit_write d i _

theorem limit_resolve (d : Draft) (p : Path) (level : Nat) :
    (d.resolve p level).1.limit = d.limit := by
  have hadvance (s : Segment) (dl : Draft × Locations) :
      (advance s dl).1.limit = dl.1.limit := by
    obtain ⟨d, l⟩ := dl
    unfold advance
    dsimp only
    rw [limit_foldl fun d i => limit_prepare d s false i,
      limit_foldl fun d i => limit_prepare d s true i]
  have hfollow (segments : List Segment) (dl : Draft × Locations) :
      (segments.foldl (fun dl s => advance s dl) dl).1.limit = dl.1.limit := by
    induction segments generalizing dl with
    | nil => rfl
    | cons s segments ih => exact (ih (advance s dl)).trans (hadvance s dl)
  exact hfollow p.segments _

end Draft
end ScriptMemory
