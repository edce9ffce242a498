import ScriptMemory.Proofs.Memory.ValueTree
import ScriptMemory.Proofs.Sharing

/-! Fields of objects that plain variables hold. A variable that holds one object leads to the
fields of that object; one that holds none leads nowhere for reading, and for writing an object
named after the variable is put there first. -/
namespace ScriptMemory
open Std

/-- Where a field of an object lives. -/
def Index.fieldOf (id : ObjectId) (g : String) : Index :=
  (object id).member (.field g)

/-- What a list of fields says about one of them; later entries count. -/
def fieldIn : List (String × Scalar) → String → Option Scalar
  | [], _ => none
  | (f, s) :: rest, g => (fieldIn rest g).or (if g = f then some s else none)

namespace Memory
variable {m n : Memory} {p : Path} {x g : String} {e : Entry} {i c : Index} {o : ObjectValue}
  {id : ObjectId} {v : Value}

theorem Plain.unaliased (h : m.Plain) : m.Unaliased :=
  h.aliases

theorem fieldOf_ne_global : Index.fieldOf id g ≠ .global x :=
  global_ne_member.symm

theorem fieldOf_inj {id' : ObjectId} {g' : String} :
    Index.fieldOf id g = .fieldOf id' g' ↔ id = id' ∧ g = g' := by
  simp [Index.fieldOf, Index.object]

theorem Plain.entry?_write (h : m.Plain) (he : e.IsFlat) (i j : Index) :
    Memory.entry? (m.write i e) j = if j = i then some e else m.entry? j := by
  unfold entry?
  rw [h.toFlat.cell_write he]
  split
  · rfl
  · rfl

theorem entryOrUndefined_of_eq (he : n.entry? i = m.entry? i) :
    n.entryOrUndefined i = m.entryOrUndefined i := by
  unfold entryOrUndefined
  rw [he]

/-- The top level without arrays and aliases, where only variables and named fields of objects hold
something, and fields hold scalars. -/
structure HoldsFields (m : Memory) : Prop extends m.Plain where
  located : ∀ i e, m.entry? i = some e → i = .diagnostics ∨ (∃ x, i = .global x) ∨
    ∃ id g, i = .fieldOf id g ∧ id ∈ m.objects ∧ e.All Value.IsContent

theorem holdsFields_initial : initial.HoldsFields where
  toPlain := plain_initial
  located := by
    intro i e he
    rw [entry?_initial] at he
    split at he
    · next hi => exact .inl hi
    · cases he

theorem HoldsFields.contents (h : m.HoldsFields) (id : ObjectId) (g : String) :
    (m.entryOrUndefined (.fieldOf id g)).All Value.IsContent := by
  unfold entryOrUndefined
  cases he : m.entry? (.fieldOf id g) with
  | none => exact Entry.all_ofValue ⟨none, rfl⟩
  | some e =>
    rcases h.located _ e he with hd | ⟨x, hx⟩ | ⟨_, _, -, -, hall⟩
    · cases hd
    · exact absurd hx fieldOf_ne_global
    · exact hall

/-- What is declared is declared still, and what has changed is at a location that may. -/
theorem HoldsFields.of_entries (h : m.HoldsFields) (hn : n.Plain)
    (ho : ∀ id : ObjectId, id ∈ m.objects → id ∈ n.objects)
    (hc : ∀ i, n.entry? i = m.entry? i ∨ (∃ x, i = .global x) ∨
      ∃ id g, i = .fieldOf id g ∧ id ∈ n.objects ∧ (n.entryOrUndefined i).All Value.IsContent) :
    n.HoldsFields where
  toPlain := hn
  located := by
    intro i e he
    rcases hc i with hsame | hx | ⟨id, g, rfl, hid, hall⟩
    · rw [hsame] at he
      refine (h.located i e he).imp_right (.imp_right ?_)
      rintro ⟨id, g, rfl, hid, hall⟩
      exact ⟨id, g, rfl, ho id hid, hall⟩
    · exact .inr (.inl hx)
    · refine .inr (.inr ⟨id, g, rfl, hid, ?_⟩)
      unfold entryOrUndefined at hall
      rwa [he] at hall

/-- A variable that holds one object leads to its fields. -/
theorem containersOf_object (hx : m.entryOrUndefined i = .ofValue (.object o)) (g : String) :
    m.containersOf i (.field g) = [o.index] := by
  have hobjects : m.objectsAt i = [o] := by
    rw [objectsAt_eq_objects, hx]
    rfl
  unfold containersOf
  rw [hobjects]
  rfl

/-- A variable that holds no object has fields of its own, which nothing is ever put into. -/
theorem containersOf_content (hx : m.entryOrUndefined i = .ofValue v) (hv : v.IsContent)
    (g : String) : m.containersOf i (.field g) = [i] := by
  have hobjects : m.objectsAt i = [] := by
    rw [objectsAt_eq_objects, hx]
    obtain ⟨c, rfl⟩ := hv
    cases c <;> rfl
  unfold containersOf
  rw [hobjects]
  rfl

theorem segments_member (hp : p.isVariable = true) (s : Segment) : (p.member s).segments = [s] := by
  unfold Path.member
  rw [List.isEmpty_iff.1 hp]
  rfl

theorem ofVariable_member (p : Path) (s : Segment) :
    Locations.ofVariable (p.member s) 0 = .single (.global p.name) :=
  ofVariable_top (p.member s)

/-- A variable is read as what its location holds. -/
theorem Plain.read_variable (h : m.Plain) (hp : p.isVariable = true) :
    m.read p = m.entryOrUndefined (.global p.name) := by
  have hfollow : m.follow .must p 0 = .single (.global p.name) := by
    rw [follow_variable m hp, ofVariable_top]
    rfl
  unfold Memory.read Memory.readAt Memory.resolve
  rw [h.level_eq, hfollow, expand_single h.unaliased, readLocations_single]
  rfl

theorem Plain.read_member (h : m.Plain) (hp : p.isVariable = true)
    (hc : m.containersOf (.global p.name) (.field g) = [c]) :
    m.read (p.member (.field g)) = m.readIndex (c.member (.field g)) := by
  have hfollow : m.follow .must (p.member (.field g)) 0 = .single (c.member (.field g)) := by
    unfold follow
    rw [segments_member hp, ofVariable_member]
    change m.step (m.expand .must (.single (.global p.name))) (.field g) = _
    rw [expand_single h.unaliased, step_single_of hc rfl]
  unfold Memory.read Memory.readAt Memory.resolve
  rw [h.level_eq, hfollow, expand_single h.unaliased, readLocations_single]

/-- A location without an entry is undefined, unless its container is opaque. -/
theorem HoldsFields.readIndex_member (h : m.HoldsFields)
    (hbelow : m.isBelowOpaque (c.member (.field g)) = false) :
    m.readIndex (c.member (.field g)) = m.entryOrUndefined (c.member (.field g)) := by
  have hunknown : m.entry? (c.member .unknownField) = none := by
    cases he : m.entry? (c.member .unknownField) with
    | none => rfl
    | some e =>
      rcases h.located _ e he with hd | ⟨x, hx⟩ | ⟨_, _, hf, -⟩
      · cases hd
      · cases hx
      · cases hf
  have habsent : m.readAbsent (c.member (.field g)) = .undefined := by
    unfold readAbsent
    rw [hbelow]
    change m.entryOrUndefined (c.member .unknownField) = _
    unfold entryOrUndefined
    rw [hunknown]
    rfl
  unfold readIndex entryOrUndefined
  rw [habsent]

/-- What is read of a field of an object is what the field holds. -/
theorem HoldsFields.readIndex_fieldOf (h : m.HoldsFields) (id : ObjectId) (g : String) :
    m.readIndex (.fieldOf id g) = m.entryOrUndefined (.fieldOf id g) := by
  apply h.readIndex_member
  unfold isBelowOpaque
  dsimp only
  cases he : m.entry? (.object id) with
  | none => rfl
  | some e =>
    rcases h.located _ e he with hd | ⟨x, hx⟩ | ⟨_, _, hf, -⟩
    · cases hd
    · cases hx
    · cases hf

theorem HoldsFields.read_field (h : m.HoldsFields) (hp : p.isVariable = true)
    (hx : m.entryOrUndefined (.global p.name) = .ofValue (.object o)) (g : String) :
    m.read (p.member (.field g)) = m.entryOrUndefined (.fieldOf o.id g) := by
  rw [h.toPlain.read_member hp (containersOf_object hx g)]
  exact h.readIndex_fieldOf o.id g

/-- A variable that holds no object has no fields. -/
theorem HoldsFields.read_no_field (h : m.HoldsFields) (hp : p.isVariable = true)
    (hx : m.entryOrUndefined (.global p.name) = .ofValue v) (hv : v.IsContent) (g : String) :
    m.read (p.member (.field g)) = .undefined := by
  have hbelow : m.isBelowOpaque ((Index.global p.name).member (.field g)) = false := by
    unfold isBelowOpaque
    dsimp only
    cases he : m.entry? (.global p.name) with
    | none => rfl
    | some e =>
      unfold entryOrUndefined at hx
      rw [he] at hx
      obtain rfl : e = .ofValue v := hx
      obtain ⟨c, rfl⟩ := hv
      cases c <;> rfl
  have hnone : m.entry? ((Index.global p.name).member (.field g)) = none := by
    cases he : m.entry? ((Index.global p.name).member (.field g)) with
    | none => rfl
    | some e =>
      rcases h.located _ e he with hd | ⟨x, hx⟩ | ⟨_, _, hf, -⟩
      · cases hd
      · cases hx
      · cases hf
  rw [h.toPlain.read_member hp (containersOf_content hx hv g), h.readIndex_member hbelow]
  unfold entryOrUndefined
  rw [hnone]
  rfl

/-- The memory `n` is `m` with another value at a variable. -/
structure Sets (m : Memory) (x : String) (v : Value) (n : Memory) : Prop where
  holds : n.HoldsFields
  held : n.entryOrUndefined (.global x) = .ofValue v
  other : ∀ i, i ≠ .global x → n.entry? i = m.entry? i
  objects : ∀ id : ObjectId, id ∈ n.objects ↔ id ∈ m.objects

/-- The memory `n` is `m` with another value at a field of an object. -/
structure SetsField (m : Memory) (id : ObjectId) (g : String) (s : Scalar) (n : Memory) : Prop where
  holds : n.HoldsFields
  field : n.entryOrUndefined (.fieldOf id g) = .ofValue (.scalar s)
  other : ∀ i, i ≠ .fieldOf id g → n.entry? i = m.entry? i
  objects : ∀ id : ObjectId, id ∈ n.objects ↔ id ∈ m.objects

/-- The memory `n` is `m` with an object at a variable, of which some fields are set. -/
structure Gains (m : Memory) (x : String) (o : ObjectValue) (fields : List (String × Scalar))
    (n : Memory) : Prop where
  holds : n.HoldsFields
  held : n.entryOrUndefined (.global x) = .ofValue (.object o)
  field : ∀ g s, fieldIn fields g = some s → .scalar s ∈ n.entryOrUndefined (.fieldOf o.id g)
  other : ∀ i, i ≠ .global x → (∀ g, i = .fieldOf o.id g → fieldIn fields g = none) →
    n.entry? i = m.entry? i
  objects : ∀ id : ObjectId, id ∈ n.objects ↔ id = o.id ∨ id ∈ m.objects

/-- The memory `n` is `m` with an object of which some fields are set. -/
structure Fills (m : Memory) (id : ObjectId) (fields : List (String × Scalar)) (n : Memory) :
    Prop where
  holds : n.HoldsFields
  field : ∀ g s, fieldIn fields g = some s → .scalar s ∈ n.entryOrUndefined (.fieldOf id g)
  other : ∀ i, (∀ g, i = .fieldOf id g → fieldIn fields g = none) → n.entry? i = m.entry? i
  objects : ∀ i : ObjectId, i ∈ n.objects ↔ i = id ∨ i ∈ m.objects

theorem Fills.gains {fields : List (String × Scalar)} {k : Memory} (h : m.Fills o.id fields n)
    (hk : n.Sets x (.object o) k) : m.Gains x o fields k where
  holds := hk.holds
  held := hk.held
  field := by
    intro g s hs
    rw [entryOrUndefined_of_eq (hk.other _ fieldOf_ne_global)]
    exact h.field g s hs
  other := fun i hi hne => (hk.other i hi).trans (h.other i hne)
  objects := fun id => (hk.objects id).trans (h.objects id)

theorem HoldsFields.write_variable (h : m.HoldsFields) (x : String)
    (hv : v.isReference = false ∧ v.arrayOwner? = none) :
    m.Sets x v (m.write (.global x) (.ofValue v)) := by
  have hflat : (Entry.ofValue v).IsFlat := Entry.all_ofValue hv
  have hentry := h.toPlain.entry?_write hflat (.global x)
  refine ⟨h.of_entries (h.toPlain.write hflat _) (fun id hid => (mem_objects_write ..).2 hid) ?_,
    ?_, fun i hi => by rw [hentry, if_neg hi], fun id => mem_objects_write ..⟩
  · intro i
    rw [hentry]
    split
    · next hi => exact .inr (.inl ⟨x, hi⟩)
    · exact .inl rfl
  · unfold entryOrUndefined
    rw [hentry, if_pos rfl]
    rfl

theorem HoldsFields.remove (h : m.HoldsFields) (x : String) :
    m.Sets x .undefined (m.remove [.global x]) := by
  have hentry (i : Index) : Memory.entry? (m.remove [.global x]) i =
      if i = .global x then none else m.entry? i := by
    unfold entry?
    rw [h.toPlain.cell_remove]
    split <;> rfl
  have hobjects (id : ObjectId) : id ∈ (m.remove [.global x]).objects ↔ id ∈ m.objects :=
    mem_objects_discard m _ id
  refine ⟨h.of_entries (h.toPlain.remove _) (fun id => (hobjects id).2) ?_, ?_,
    fun i hi => by rw [hentry, if_neg hi], hobjects⟩
  · intro i
    rw [hentry]
    split
    · next hi => exact .inr (.inl ⟨x, hi⟩)
    · exact .inl rfl
  · unfold entryOrUndefined
    rw [hentry, if_pos rfl]
    rfl

theorem HoldsFields.write_field (h : m.HoldsFields) (hid : id ∈ m.objects) (g : String)
    (he : e.All Value.IsContent) : Memory.HoldsFields (m.write (.fieldOf id g) e) := by
  have hflat : e.IsFlat := fun v hv => (he v hv).isFlat
  have hentry := h.toPlain.entry?_write hflat (.fieldOf id g)
  refine h.of_entries (h.toPlain.write hflat _) (fun id hid => (mem_objects_write ..).2 hid) ?_
  intro i
  by_cases hi : i = .fieldOf id g
  · refine .inr (.inr ⟨id, g, hi, (mem_objects_write ..).2 hid, ?_⟩)
    unfold entryOrUndefined
    rw [hentry, if_pos hi]
    exact he
  · rw [hentry, if_neg hi]
    exact .inl rfl

theorem HoldsFields.setsField (h : m.HoldsFields) (hid : id ∈ m.objects) (g : String) (s : Scalar) :
    m.SetsField id g s (m.write (.fieldOf id g) (.ofValue (.scalar s))) := by
  have hcontent : (Entry.ofValue (.scalar s)).All Value.IsContent := Entry.all_ofValue ⟨some s, rfl⟩
  have hentry := h.toPlain.entry?_write (fun v hv => (hcontent v hv).isFlat) (.fieldOf id g)
  refine ⟨h.write_field hid g hcontent, ?_, fun i hi => by rw [hentry, if_neg hi],
    fun _ => mem_objects_write ..⟩
  unfold entryOrUndefined
  rw [hentry, if_pos rfl]
  rfl

theorem HoldsFields.declareObject (h : m.HoldsFields) (o : ObjectValue) :
    (m.declareObject o).HoldsFields :=
  h.of_entries (h.toPlain.declareObject o)
    (fun id hid => (mem_objects_declareObject m o id).2 (.inr hid))
    fun i => .inl (entry?_declareObject m o i)

end Memory

namespace Draft
open Memory
variable {d : Draft} {p : Path} {o : ObjectValue} {v : Value} {c : Index} {g : String}

theorem write_unlimited (hlimit : d.limit = none) (i : Index) (e : Entry) :
    d.write i e = d.update (·.write i e) := by
  apply write_of_fits
  rw [hlimit]
  exact Entry.fits_none e

theorem assign_member (h : d.memory.Plain) (hp : p.isVariable = true) {d' : Draft}
    (hprepare : d.prepare (.field g) true (.global p.name) = d') (h' : d'.memory.Plain)
    (hlimit : d'.limit = none)
    (hc : d'.memory.containersOf (.global p.name) (.field g) = [c]) (s : Scalar) (force : Bool) :
    (d.assign (p.member (.field g)) 0 (.ofValue (.scalar s)) force).memory =
      d'.memory.write (c.member (.field g)) (.ofValue (.scalar s)) := by
  have hflat : (Entry.ofValue (.scalar s)).IsFlat := Entry.all_ofValue ⟨rfl, rfl⟩
  have hfollow : d.follow (p.member (.field g)) 0 = (d', .single (c.member (.field g))) := by
    unfold follow
    rw [segments_member hp, ofVariable_member]
    change advance (.field g) (d, .single (.global p.name)) = _
    rw [advance_single_of h.unaliased, hprepare, step_single_of hc rfl]
  unfold assign resolve
  rw [hfollow]
  dsimp only
  rw [expand_single h'.unaliased, storeAll_single, ofEntry_flat _ hflat, store_flat h'.toFlat hflat,
    write_unlimited hlimit]
  rfl

/-- A field is set in the object that the variable holds. -/
theorem assign_field (h : d.memory.HoldsFields) (hlimit : d.limit = none) (hp : p.isVariable = true)
    (hx : d.memory.entryOrUndefined (.global p.name) = .ofValue (.object o))
    (ho : o.id ∈ d.memory.objects) (g : String) (s : Scalar) (force : Bool) :
    d.memory.SetsField o.id g s
      (d.assign (p.member (.field g)) 0 (.ofValue (.scalar s)) force).memory := by
  have hobjects : d.memory.objectsAt (.global p.name) = [o] := by
    rw [objectsAt_eq_objects, hx]
    rfl
  have hopened : d.memory.Opened (.field g) (.global p.name) :=
    fun hnil => List.cons_ne_nil o [] (hobjects.symm.trans hnil)
  rw [assign_member h.toPlain hp (prepare_of_opened hopened true) h.toPlain hlimit
    (containersOf_object hx g)]
  exact h.setsField ho g s

/-- A variable that holds no object is given one, named after the variable, before its field is
set. -/
theorem assign_new_field (h : d.memory.HoldsFields) (hlimit : d.limit = none)
    (hp : p.isVariable = true) (hx : d.memory.entryOrUndefined (.global p.name) = .ofValue v)
    (hv : v.IsContent) (g : String) (s : Scalar) (force : Bool) :
    d.memory.Gains p.name ⟨(Index.global p.name).text, "stdClass"⟩ [(g, s)]
      (d.assign (p.member (.field g)) 0 (.ofValue (.scalar s)) force).memory := by
  let o : ObjectValue := ⟨(Index.global p.name).text, "stdClass"⟩
  let i := Index.global p.name
  have hprepare : d.prepare (.field g) true i =
      (d.update (·.declareObject o)).update (·.write i (.ofValue (.object o))) := by
    have hobjects : d.memory.objectsAt i = [] := by
      rw [objectsAt_eq_objects, hx]
      obtain ⟨c, rfl⟩ := hv
      cases c <;> rfl
    rw [prepare_field rfl hobjects, ← write_unlimited (d := d.update (·.declareObject o)) hlimit]
    rfl
  have hset := (h.declareObject o).write_variable p.name (v := .object o) ⟨rfl, rfl⟩
  have hid : o.id ∈ ((d.memory.declareObject o).write i (.ofValue (.object o))).objects :=
    (hset.objects _).2 ((mem_objects_declareObject ..).2 (.inl rfl))
  rw [assign_member h.toPlain hp hprepare hset.holds.toPlain hlimit
    (containersOf_object hset.held g)]
  have hfield := hset.holds.setsField hid g s
  refine ⟨hfield.holds, ?_, ?_, ?_, ?_⟩
  · exact (entryOrUndefined_of_eq (hfield.other _ fieldOf_ne_global.symm)).trans hset.held
  · intro g' s' hg
    obtain ⟨rfl, rfl⟩ : g' = g ∧ s = s' := by simpa [fieldIn] using hg
    have hmem : Value.scalar s ∈ Entry.ofValue (.scalar s) := Entry.mem_ofValue.2 rfl
    rw [← hfield.field] at hmem
    exact hmem
  · intro j hj hne
    have hfresh : j ≠ .fieldOf o.id g := by
      intro heq
      simpa [fieldIn] using hne g heq
    exact (hfield.other j hfresh).trans ((hset.other j hj).trans (entry?_declareObject ..))
  · intro id
    exact (hfield.objects id).trans ((hset.objects id).trans (mem_objects_declareObject ..))

end Draft
namespace Edit
open Memory
variable {d : Draft} {id : ObjectId}

theorem assignIndex_field (h : d.memory.HoldsFields) (hlimit : d.limit = none)
    (hid : id ∈ d.memory.objects) (g : String) (s : Scalar) (strong : Bool) :
    ∃ d', (assignIndex (.fieldOf id g) (.ofValue (.scalar s)) strong).run d = .ok () d' ∧
      d'.limit = none ∧ d'.memory.HoldsFields ∧
      .scalar s ∈ d'.memory.entryOrUndefined (.fieldOf id g) ∧
      (∀ i, i ≠ .fieldOf id g → d'.memory.entry? i = d.memory.entry? i) ∧
      ∀ i : ObjectId, i ∈ d'.memory.objects ↔ i ∈ d.memory.objects := by
  have hscalar : (Entry.ofValue (.scalar s)).All Value.IsContent := Entry.all_ofValue ⟨some s, rfl⟩
  have hflat : (Entry.ofValue (.scalar s)).IsFlat := Entry.all_ofValue ⟨rfl, rfl⟩
  -- a strong write leaves the scalar alone, and a weak one adds it to the contents before
  let e := Draft.stored d.memory (.ofValue (.scalar s)) strong (.fieldOf id g)
  have hcontent : e.All Value.IsContent := by
    unfold e Draft.stored
    split
    · exact hscalar
    · exact (h.contents id g).join hscalar
  have hmem : .scalar s ∈ e := by
    unfold e Draft.stored
    split
    · exact Entry.mem_ofValue.2 rfl
    · exact (Entry.mem_join_iff (h.contents id g) hscalar).2 (.inr (Entry.mem_ofValue.2 rfl))
  have hrun : (assignIndex (.fieldOf id g) (.ofValue (.scalar s)) strong).run d =
      .ok () (d.update (·.write (.fieldOf id g) e)) := by
    rw [assignIndex_run d _ hflat.isData, ← Draft.write_unlimited hlimit,
      ← Draft.store_flat h.toPlain.toFlat hflat, Draft.ofEntry_flat _ hflat]
  have hentry := h.toPlain.entry?_write (fun v hv => (hcontent v hv).isFlat) (.fieldOf id g)
  refine ⟨_, hrun, hlimit, h.write_field hid g hcontent, ?_, fun i hi => ?_,
    fun i => mem_objects_write ..⟩
  · change .scalar s ∈ Memory.entryOrUndefined (d.memory.write (.fieldOf id g) e) (.fieldOf id g)
    unfold entryOrUndefined
    rw [hentry, if_pos rfl]
    exact hmem
  · exact (hentry i).trans (if_neg hi)

/-- Fields are filled one by one. -/
theorem forM_assignIndex (h : d.memory.HoldsFields) (hlimit : d.limit = none)
    (hid : id ∈ d.memory.objects) (fields : List (String × Scalar)) (strong : Bool) :
    ∃ d', ((fields.map fun x => (x.1, Entry.ofValue (.scalar x.2))).forM fun x =>
        assignIndex (.fieldOf id x.1) x.2 strong).run d = .ok () d' ∧ d'.limit = none ∧
      d.memory.Fills id fields d'.memory := by
  have hknown {i : ObjectId} : i ∈ d.memory.objects ↔ i = id ∨ i ∈ d.memory.objects :=
    ⟨.inr, fun hi => hi.elim (fun heq => heq ▸ hid) fun hi => hi⟩
  induction fields generalizing d with
  | nil => exact ⟨d, rfl, hlimit, h, fun _ _ hs => (nomatch hs), fun _ _ => rfl, fun _ => hknown⟩
  | cons x fields ih =>
    obtain ⟨d₁, hrun₁, hlimit₁, h₁, hmem₁, hother₁, hobjects₁⟩ :=
      assignIndex_field h hlimit hid x.1 x.2 strong
    have hid₁ := (hobjects₁ id).2 hid
    obtain ⟨d₂, hrun₂, hlimit₂, hfills⟩ := ih h₁ hlimit₁ hid₁
      ⟨.inr, fun hi => hi.elim (fun heq => heq ▸ hid₁) fun hi => hi⟩
    refine ⟨d₂, ?_, hlimit₂, hfills.holds, ?_, ?_, ?_⟩
    · change (assignIndex (.fieldOf id x.1) (.ofValue (.scalar x.2)) strong >>= fun _ =>
        (fields.map fun x => (x.1, Entry.ofValue (.scalar x.2))).forM fun x =>
          assignIndex (.fieldOf id x.1) x.2 strong).run d = _
      rw [EStateM.run_bind, hrun₁]
      exact hrun₂
    · intro g s hs
      change (fieldIn fields g).or (if g = x.1 then some x.2 else none) = some s at hs
      cases hrest : fieldIn fields g with
      | some t =>
        rw [hrest] at hs
        cases hs
        exact hfills.field g _ hrest
      | none =>
        -- the rest leaves the field alone
        rw [hrest, Option.none_or] at hs
        split at hs
        · next hg =>
          subst hg
          cases hs
          have hsame := hfills.other (.fieldOf id x.1) fun g hg => by
            rw [← (fieldOf_inj.1 hg).2]
            exact hrest
          rw [entryOrUndefined_of_eq hsame]
          exact hmem₁
        · cases hs
    · intro i hi
      have hne : i ≠ .fieldOf id x.1 := by
        intro heq
        have hnone := hi x.1 heq
        change (fieldIn fields x.1).or (if x.1 = x.1 then some x.2 else none) = none at hnone
        rw [if_pos rfl] at hnone
        cases hrest : fieldIn fields x.1 <;> rw [hrest] at hnone <;> cases hnone
      refine (hfills.other i fun g hg => ?_).trans (hother₁ i hne)
      exact (Option.or_eq_none_iff.1 (hi g hg)).1
    · exact fun i => (hfills.objects i).trans (or_congr_right (hobjects₁ i))

/-- An object is declared and its fields are filled. -/
theorem createObject_fields (h : d.memory.HoldsFields) (hlimit : d.limit = none)
    (className : String) (site : ObjectId) (fields : List (String × Scalar)) :
    ∃ d', (createObject className site
        (fields.map fun x => (x.1, Entry.ofValue (.scalar x.2)))).run d = .ok ⟨site, className⟩ d' ∧
      d'.limit = none ∧ d.memory.Fills site fields d'.memory := by
  let d₁ := d.update (·.declareObject ⟨site, className⟩)
  have hdeclared (i : ObjectId) := mem_objects_declareObject d.memory ⟨site, className⟩ i
  obtain ⟨d', hrun, hlimit', hfills⟩ := forM_assignIndex (d := d₁) (h.declareObject _) hlimit
    ((hdeclared site).2 (.inl rfl)) fields (!d.memory.objects.contains site)
  refine ⟨d', ?_, hlimit', hfills.holds, hfills.field, ?_, ?_⟩
  · unfold createObject
    rw [EStateM.run_bind, EStateM.run_get]
    dsimp only
    rw [EStateM.run_bind, EStateM.run_modify]
    dsimp only
    rw [EStateM.run_bind]
    unfold Index.fieldOf d₁ at hrun
    unfold ObjectValue.index
    rw [hrun]
    rfl
  · exact fun i hi => (hfills.other i hi).trans (entry?_declareObject ..)
  · intro i
    rw [hfills.objects, or_iff_right_of_imp fun heq => heq ▸ (hdeclared site).2 (.inl rfl)]
    exact hdeclared i

end Edit
end ScriptMemory
