import Mathlib.Logic.Function.Basic
import ScriptMemory.Proofs.Memory.Fields

/-! Objects that plain variables share. Memory tells objects apart by their identities: the site of
those that are made, the name of the variable of those that come with their first field. It
describes what scripts do as long as no identity is given to a new object while one that had it
before is still held or still has fields, and only so long. -/
namespace ScriptMemory
open Std

/-- What a variable holds at run time. Objects are known by handles. -/
inductive Holding where
  | scalar (s : Scalar)
  | object (handle : Nat)

/-- The variables of a script, and the fields of the objects that it has made so far. -/
structure Heap where
  holds : String → Option Holding
  fields : Nat → String → Option Scalar
  /-- The handle of the next object. -/
  next : Nat

namespace Heap
variable (σ : Heap)

def empty : Heap where
  holds := fun _ => none
  fields := fun _ _ => none
  next := 0

def object? (x : String) : Option Nat :=
  match σ.holds x with
  | some (.object h) => some h
  | _ => none

/-- What is in the field of the object that the variable holds, if it holds one. -/
def field (x g : String) : Option Scalar :=
  (σ.object? x).bind fun h => σ.fields h g

def set (x : String) (c : Option Holding) : Heap :=
  { σ with holds := Function.update σ.holds x c }

def setField (h : Nat) (g : String) (s : Scalar) : Heap :=
  { σ with fields := Function.update σ.fields h (Function.update (σ.fields h) g (some s)) }

/-- A variable gets a brand new object. -/
def gain (x : String) (fields : List (String × Scalar)) : Heap where
  holds := Function.update σ.holds x (some (.object σ.next))
  fields := Function.update σ.fields σ.next (fieldIn fields)
  next := σ.next + 1

/-- Some variable holds the object. -/
def Held (h : Nat) : Prop :=
  ∃ x, σ.holds x = some (.object h)

end Heap

/-- What becomes of a heap. A new object has a name in memory, which the heap does without. -/
inductive HeapStep where
  | set (x : String) (c : Option Holding)
  | setField (h : Nat) (g : String) (s : Scalar)
  | gain (x : String) (o : ObjectValue) (fields : List (String × Scalar))

namespace HeapStep

def apply : HeapStep → Heap → Heap
  | set x c, σ => σ.set x c
  | setField h g s, σ => σ.setField h g s
  | gain x _ fields, σ => σ.gain x fields

/-- The identity that is given to a new object. -/
def identity? : HeapStep → Option ObjectId
  | gain _ o _ => some o.id
  | _ => none

end HeapStep

/-- One change to the variables of a script or to the objects that they hold. -/
inductive HeapChange where
  /-- Assigns an object that is made at a site. -/
  | make (x : Variable) (className : String) (site : ObjectId) (fields : List (String × Scalar))
    (force : Bool)
  | assign (x : Variable) (value : Scalar) (force : Bool)
  | copy (x y : Variable) (force : Bool)
  | setField (x : Variable) (g : String) (value : Scalar) (force : Bool)
  | unset (x : Variable)

namespace HeapChange

/-- What the change does to a snapshot. -/
def perform : HeapChange → Transact Unit
  | make x className site fields force => do
    let o ← Snapshot.createObject className site (fields.map fun f => (f.1, .ofValue (.scalar f.2)))
    Snapshot.assign x.path (.ofValue (.object o)) force
  | assign x value force => Snapshot.assign x.path (.ofValue (.scalar value)) force
  | copy x y force => do Snapshot.assign x.path ((← get).memory.read y.path) force
  | setField x g value force =>
    Snapshot.assign (x.path.member (.field g)) (.ofValue (.scalar value)) force
  | unset x => Snapshot.unset x.path

/-- What the change does at run time. -/
def step (σ : Heap) : HeapChange → HeapStep
  | make x className site fields _ => .gain x.name ⟨site, className⟩ fields
  | assign x value _ => .set x.name (some (.scalar value))
  | copy x y _ => .set x.name (σ.holds y.name)
  | setField x g value _ =>
    match σ.object? x.name with
    | some h => .setField h g value
    | none => .gain x.name ⟨(Index.global x.name).text, "stdClass"⟩ [(g, value)]
  | unset x => .set x.name none

def apply (c : HeapChange) (σ : Heap) : Heap :=
  (c.step σ).apply σ

/-- The heap after some changes, from that without variables. -/
def after (changes : List HeapChange) : Heap :=
  changes.foldl (fun σ c => c.apply σ) .empty

/-- The identities of the objects that are made by some changes. -/
def identities : Heap → List HeapChange → List ObjectId
  | _, [] => []
  | σ, c :: changes => (c.step σ).identity?.toList ++ identities (c.apply σ) changes

/-- A transaction that makes some changes, in a fresh snapshot without limits. -/
def session (changes : List HeapChange) : EStateM.Result ContractError Snapshot Unit :=
  (do Snapshot.start; changes.forM perform : Transact Unit).run {}

/-- What any field of any variable is after the changes is among the values that the snapshot
reads. -/
def Sound (changes : List HeapChange) : Prop :=
  ∃ t, session changes = .ok () t ∧ ∀ (x : Variable) (g : String),
    .ofContent ((after changes).field x.name g) ∈ t.memory.read (x.path.member (.field g))

end HeapChange

/-- Only the variable may still hold an object of the identity, and its fields may be undefined,
apart from some that are given. -/
structure Memory.Unused (m : Memory) (x : String) (id : ObjectId)
    (fields : List (String × Scalar)) :
    Prop where
  released : ∀ y : Variable, y.name ≠ x → ∀ o, .object o ∈ m.read y.path → o.id ≠ id
  cleared : ∀ g, fieldIn fields g = none → .undefined ∈ m.readIndex (.fieldOf id g)

/-- If the change makes an object after the others, its identity is unused. -/
def HeapChange.Fresh (changes : List HeapChange) (c : HeapChange) : Prop :=
  ∃ t, session changes = .ok () t ∧
    ∀ x o fields, c.step (after changes) = .gain x o fields → t.memory.Unused x o.id fields

namespace Heap
variable {σ : Heap} {x y g : String} {c : Option Holding} {h k : Nat} {s : Scalar}
  {fields : List (String × Scalar)}

theorem object?_eq_some : σ.object? x = some h ↔ σ.holds x = some (.object h) := by
  unfold object?
  split
  · next k hk => rw [hk]; simp
  · next hk =>
    refine iff_of_false (fun heq => nomatch heq) ?_
    exact hk h

theorem held_set (hc : ∀ h, c = some (.object h) → σ.Held h) (hh : (σ.set x c).Held h) :
    σ.Held h := by
  obtain ⟨y, hy⟩ := hh
  change Function.update σ.holds x c y = _ at hy
  by_cases hyx : y = x
  · rw [hyx, Function.update_self] at hy
    exact hc h hy
  · rw [Function.update_of_ne hyx] at hy
    exact ⟨y, hy⟩

theorem held_gain (hh : (σ.gain x fields).Held h) :
    h = σ.next ∨ ∃ y, y ≠ x ∧ σ.holds y = some (.object h) := by
  obtain ⟨y, hy⟩ := hh
  change Function.update σ.holds x (some (.object σ.next)) y = _ at hy
  by_cases hyx : y = x
  · rw [hyx, Function.update_self] at hy
    cases hy
    exact .inl rfl
  · rw [Function.update_of_ne hyx] at hy
    exact .inr ⟨y, hyx, hy⟩

theorem fields_setField_self : (σ.setField h g s).fields h g = some s := by
  change Function.update σ.fields h (Function.update (σ.fields h) g (some s)) h g = _
  rw [Function.update_self, Function.update_self]

theorem fields_setField_of_ne {f : String} (hne : ¬(k = h ∧ f = g)) :
    (σ.setField h g s).fields k f = σ.fields k f := by
  change Function.update σ.fields h (Function.update (σ.fields h) g (some s)) k f = _
  by_cases hk : k = h
  · rw [hk, Function.update_self, Function.update_of_ne fun hf => hne ⟨hk, hf⟩]
  · rw [Function.update_of_ne hk]

theorem field_gain_self : (σ.gain x fields).field x g = fieldIn fields g := by
  have hx : (σ.gain x fields).object? x = some σ.next :=
    object?_eq_some.2 (Function.update_self x _ σ.holds)
  unfold field
  rw [hx]
  exact congrFun (Function.update_self σ.next _ σ.fields) g

/-- The new object is another one than that which the variable holds. -/
theorem field_gain_setField {f : String} (hyx : y ≠ x) (hy : σ.holds y = some (.object h))
    (hh : h ≠ σ.next) : ((σ.gain x fields).setField σ.next g s).field y f = σ.fields h f := by
  have hsame : ((σ.gain x fields).setField σ.next g s).object? y = some h :=
    object?_eq_some.2 ((Function.update_of_ne hyx _ σ.holds).trans hy)
  unfold field
  rw [hsame]
  refine (fields_setField_of_ne fun heq => hh heq.1).trans ?_
  exact congrFun (Function.update_of_ne hh _ σ.fields) f

end Heap

namespace Value

/-- The value of what a variable holds, where `w` names the objects. -/
def ofHolding (w : Nat → ObjectValue) : Option Holding → Value
  | none => .undefined
  | some (.scalar s) => .scalar s
  | some (.object h) => .object (w h)

theorem ofHolding_isFlat (w : Nat → ObjectValue) (c : Option Holding) :
    (ofHolding w c).isReference = false ∧ (ofHolding w c).arrayOwner? = none := by
  rcases c with _ | _ | _ <;> exact ⟨rfl, rfl⟩

theorem ofContent_eq_scalar {v : Option Scalar} {s : Scalar} :
    ofContent v = .scalar s ↔ v = some s := by
  cases v <;> simp [ofContent]

theorem isContent_ofHolding {w : Nat → ObjectValue} {c : Option Holding}
    (hc : ∀ h, c ≠ some (.object h)) : (ofHolding w c).IsContent := by
  rcases c with _ | s | h
  · exact ⟨none, rfl⟩
  · exact ⟨some s, rfl⟩
  · exact absurd rfl (hc h)

end Value

namespace HeapChange
open Memory
variable {m n : Memory} {w : Nat → ObjectValue} {σ : Heap} {c : HeapChange} {x : Variable}
  {l changes : List HeapChange}

/-- Memory holds what the variables do, where `w` names the objects. -/
structure Represents (m : Memory) (w : Nat → ObjectValue) (σ : Heap) : Prop
    extends m.HoldsFields where
  held : ∀ x, m.entryOrUndefined (.global x) = .ofValue (.ofHolding w (σ.holds x))
  made : ∀ h, σ.Held h → h < σ.next
  declared : ∀ h, σ.Held h → (w h).id ∈ m.objects

/-- Objects that are held have different identities, and their fields may be what they are. -/
structure Faithful (m : Memory) (w : Nat → ObjectValue) (σ : Heap) : Prop where
  apart : ∀ h k, σ.Held h → σ.Held k → (w h).id = (w k).id → h = k
  content : ∀ h g, σ.Held h → .ofContent (σ.fields h g) ∈ m.entryOrUndefined (.fieldOf (w h).id g)

/-- Any field of any variable may be read as what it is. -/
def Reads (m : Memory) (σ : Heap) : Prop :=
  ∀ (x : Variable) (g : String), .ofContent (σ.field x.name g) ∈ m.read (x.path.member (.field g))

theorem represents_initial (w : Nat → ObjectValue) : Represents .initial w .empty where
  toHoldsFields := holdsFields_initial
  held := by
    intro x
    apply entryOrUndefined_of_none
    rw [entry?_initial, if_neg (by simp [Index.global, Index.ofVariable, Index.diagnostics])]
  made := fun _ hh => nomatch hh.choose_spec
  declared := fun _ hh => nomatch hh.choose_spec

theorem faithful_initial (w : Nat → ObjectValue) : Faithful .initial w .empty where
  apart := fun _ _ hh => nomatch hh.choose_spec
  content := fun _ _ hh => nomatch hh.choose_spec

theorem Represents.read_variable (hr : Represents m w σ) (x : Variable) :
    m.read x.path = .ofValue (.ofHolding w (σ.holds x.name)) := by
  rw [hr.toPlain.read_variable x.isVariable_path]
  exact hr.held x.name

theorem Represents.holds_object (hr : Represents m w σ) {x : String} {h : Nat}
    (hx : σ.object? x = some h) : m.entryOrUndefined (.global x) = .ofValue (.object (w h)) := by
  rw [hr.held, Heap.object?_eq_some.1 hx]
  rfl

theorem Represents.holds_content (hr : Represents m w σ) {x : String} (hx : σ.object? x = none) :
    ∃ v, m.entryOrUndefined (.global x) = .ofValue v ∧ v.IsContent := by
  refine ⟨_, hr.held x, Value.isContent_ofHolding ?_⟩
  intro h hh
  rw [Heap.object?_eq_some.2 hh] at hx
  cases hx

theorem Represents.exists_of_mem_read (hr : Represents m w σ) {o : ObjectValue}
    (ho : .object o ∈ m.read x.path) : ∃ h, σ.holds x.name = some (.object h) ∧ w h = o := by
  rw [hr.read_variable, Entry.mem_ofValue] at ho
  cases hx : σ.holds x.name with
  | none => rw [hx] at ho; cases ho
  | some d =>
    rw [hx] at ho
    cases d with
    | scalar s => cases ho
    | object h =>
      cases ho
      exact ⟨h, rfl, rfl⟩

theorem Represents.read_field (hr : Represents m w σ) {h : Nat} (hx : σ.object? x.name = some h)
    (g : String) : m.read (x.path.member (.field g)) = m.entryOrUndefined (.fieldOf (w h).id g) :=
  hr.toHoldsFields.read_field x.isVariable_path (hr.holds_object hx) g

theorem Represents.read_no_field (hr : Represents m w σ) (hx : σ.object? x.name = none)
    (g : String) : m.read (x.path.member (.field g)) = .undefined := by
  obtain ⟨v, hheld, hv⟩ := hr.holds_content hx
  exact hr.toHoldsFields.read_no_field x.isVariable_path hheld hv g

theorem Faithful.reads (hf : Faithful m w σ) (hr : Represents m w σ) : Reads m σ := by
  intro x g
  unfold Heap.field
  cases hx : σ.object? x.name with
  | none =>
    rw [hr.read_no_field hx]
    exact Entry.mem_ofValue.2 rfl
  | some h =>
    rw [hr.read_field hx]
    exact hf.content h g ⟨_, Heap.object?_eq_some.1 hx⟩

theorem step_setField_of_some {h : Nat} (hx : σ.object? x.name = some h) (g : String) (s : Scalar)
    (force : Bool) : (setField x g s force).step σ = .setField h g s := by
  simp only [step, hx]

theorem step_setField_of_none (hx : σ.object? x.name = none) (g : String) (s : Scalar)
    (force : Bool) :
    (setField x g s force).step σ =
      .gain x.name ⟨(Index.global x.name).text, "stdClass"⟩ [(g, s)] := by
  simp only [step, hx]

/-- A plain variable is assigned in plain memory. -/
theorem yields_assign_plain (h : m.Plain) (x : Variable) {e : Entry} (he : e.IsFlat)
    (force : Bool) :
    Transact.Yields (Snapshot.assign x.path e force) {} m () (m.write (.global x.name) e) := by
  let d : Draft := { memory := m, limit := none }
  have hmemory : (d.assign x.path m.level e force).memory = m.write (.global x.name) e := by
    rw [h.level_eq]
    exact Draft.assign_unlimited (d := d) h rfl he x.isVariable_path force
  rw [← hmemory]
  exact Transact.Yields.mutate (Edit.assign_run d x.path he.isData force)

/-- The memory `n` is `m` after a step, where `w` names the objects. -/
def Effect (m : Memory) (w : Nat → ObjectValue) : HeapStep → Memory → Prop
  | .set x c, n => m.Sets x (.ofHolding w c) n
  | .setField h g s, n => m.SetsField (w h).id g s n
  | .gain x o fields, n => m.Gains x o fields n

theorem yields_perform (hr : Represents m w σ) (c : HeapChange) :
    ∃ n, Transact.Yields c.perform {} m () n ∧ Effect m w (c.step σ) n := by
  cases c with
  | make x className site fields force =>
    obtain ⟨d, hcreate, hlimit, hfills⟩ :=
      Edit.createObject_fields (d := { memory := m, limit := none }) hr.toHoldsFields rfl
        className site fields
    have hset := hfills.holds.write_variable x.name (v := .object ⟨site, className⟩) ⟨rfl, rfl⟩
    exact ⟨_, (Transact.Yields.mutate hcreate).bind
      (yields_assign_plain hfills.holds.toPlain x (Entry.all_ofValue ⟨rfl, rfl⟩) force),
      hfills.gains hset⟩
  | assign x value force =>
    exact ⟨_, yields_assign_plain hr.toPlain x (Entry.all_ofValue ⟨rfl, rfl⟩) force,
      hr.toHoldsFields.write_variable x.name ⟨rfl, rfl⟩⟩
  | copy x y force =>
    have hflat := Value.ofHolding_isFlat w (σ.holds y.name)
    refine ⟨_, Transact.Yields.get_bind (fun s t hst => by rw [hst])
      (yields_assign_plain hr.toPlain x ?_ force), ?_⟩
    · rw [hr.read_variable]
      exact Entry.all_ofValue hflat
    · rw [hr.read_variable]
      exact hr.toHoldsFields.write_variable x.name hflat
  | setField x g value force =>
    let d : Draft := { memory := m, limit := ({} : Limits).simplify }
    have hrun := Edit.assign_run d (x.path.member (.field g)) (e := .ofValue (.scalar value))
      (Entry.all_ofValue rfl) force
    refine ⟨_, Transact.Yields.mutate hrun, ?_⟩
    change Effect m w _ (d.assign _ m.level _ force).memory
    rw [hr.level_eq]
    cases hx : σ.object? x.name with
    | some h =>
      rw [step_setField_of_some hx]
      exact Draft.assign_field (d := d) hr.toHoldsFields rfl x.isVariable_path (hr.holds_object hx)
        (hr.declared h ⟨_, Heap.object?_eq_some.1 hx⟩) g value force
    | none =>
      obtain ⟨v, hheld, hv⟩ := hr.holds_content hx
      rw [step_setField_of_none hx]
      exact Draft.assign_new_field (d := d) hr.toHoldsFields rfl x.isVariable_path hheld hv g value
        force
  | unset x =>
    let d : Draft := { memory := m, limit := ({} : Limits).simplify }
    have hrun : (Edit.unset x.path).run d = .ok () (d.unset x.path) := rfl
    refine ⟨_, Transact.Yields.mutate hrun, ?_⟩
    rw [Draft.unset_plain (d := d) hr.toPlain x.isVariable_path]
    exact hr.toHoldsFields.remove x.name

/-- What is held afterwards was held before, or is new. -/
def Grounded (σ : Heap) : HeapStep → Prop
  | .set _ c => ∀ h, c = some (.object h) → σ.Held h
  | .setField h _ _ => σ.Held h
  | .gain _ _ _ => True

theorem grounded_step (σ : Heap) (c : HeapChange) : Grounded σ (c.step σ) := by
  cases c with
  | make x className site fields force => trivial
  | assign x value force => exact fun h hh => nomatch hh
  | copy x y force => exact fun h hh => ⟨y.name, hh⟩
  | setField x g value force =>
    cases hx : σ.object? x.name with
    | some h =>
      rw [step_setField_of_some hx]
      exact ⟨x.name, Heap.object?_eq_some.1 hx⟩
    | none =>
      rw [step_setField_of_none hx]
      trivial
  | unset x => exact fun h hh => nomatch hh

theorem Effect.objects {st : HeapStep} (he : Effect m w st n) (id : ObjectId) :
    id ∈ n.objects ↔ st.identity? = some id ∨ id ∈ m.objects := by
  cases st with
  | set x c => simpa [HeapStep.identity?] using Sets.objects he id
  | setField h g s => simpa [HeapStep.identity?] using SetsField.objects he id
  | gain x o fields => simpa [HeapStep.identity?, eq_comm] using Gains.objects he id

section Step
variable {y g : String} {d : Option Holding} {h : Nat} {s : Scalar} {o : ObjectValue}
  {fields : List (String × Scalar)}

theorem Represents.set (hr : Represents m w σ) (hn : m.Sets y (.ofHolding w d) n)
    (hd : ∀ h, d = some (.object h) → σ.Held h) : Represents n w (σ.set y d) where
  toHoldsFields := hn.holds
  held := by
    intro z
    change n.entryOrUndefined _ = .ofValue (.ofHolding w (Function.update σ.holds y d z))
    by_cases hz : z = y
    · rw [hz, Function.update_self]
      exact hn.held
    · rw [Function.update_of_ne hz, ← hr.held z]
      exact entryOrUndefined_of_eq (hn.other _ (global_ne hz))
  made := fun h hh => hr.made h (Heap.held_set hd hh)
  declared := fun h hh => (hn.objects _).2 (hr.declared h (Heap.held_set hd hh))

theorem Faithful.set (hf : Faithful m w σ) (hn : m.Sets y (.ofHolding w d) n)
    (hd : ∀ h, d = some (.object h) → σ.Held h) : Faithful n w (σ.set y d) where
  apart := fun h k hh hk => hf.apart h k (Heap.held_set hd hh) (Heap.held_set hd hk)
  content := by
    intro h g hh
    rw [entryOrUndefined_of_eq (hn.other _ fieldOf_ne_global)]
    exact hf.content h g (Heap.held_set hd hh)

theorem Represents.setField (hr : Represents m w σ) (hn : m.SetsField (w h).id g s n) :
    Represents n w (σ.setField h g s) where
  toHoldsFields := hn.holds
  held := fun z => (entryOrUndefined_of_eq (hn.other _ fieldOf_ne_global.symm)).trans (hr.held z)
  made := hr.made
  declared := fun k hk => (hn.objects _).2 (hr.declared k hk)

/-- Objects of different identities have different fields. -/
theorem Faithful.setField (hf : Faithful m w σ) (hh : σ.Held h)
    (hn : m.SetsField (w h).id g s n) : Faithful n w (σ.setField h g s) where
  apart := hf.apart
  content := by
    intro k g' hk
    by_cases hsame : k = h ∧ g' = g
    · obtain ⟨rfl, rfl⟩ := hsame
      rw [Heap.fields_setField_self, hn.field]
      exact Entry.mem_ofValue.2 rfl
    · have hne : Index.fieldOf (w k).id g' ≠ .fieldOf (w h).id g := by
        intro heq
        obtain ⟨hid, hg⟩ := fieldOf_inj.1 heq
        exact hsame ⟨hf.apart k h hk hh hid, hg⟩
      rw [Heap.fields_setField_of_ne hsame, entryOrUndefined_of_eq (hn.other _ hne)]
      exact hf.content k g' hk

/-- The name of the next object is not used yet. -/
theorem Represents.ofHolding_update (hr : Represents m w σ) (y : String) (o : ObjectValue) :
    Value.ofHolding (Function.update w σ.next o) (σ.holds y) = .ofHolding w (σ.holds y) := by
  cases hy : σ.holds y with
  | none => rfl
  | some d =>
    cases d with
    | scalar s => rfl
    | object h =>
      exact congrArg Value.object (Function.update_of_ne (hr.made h ⟨y, hy⟩).ne o w)

/-- The new object is named as memory does. -/
theorem Represents.gain (hr : Represents m w σ) (hn : m.Gains y o fields n) :
    Represents n (Function.update w σ.next o) (σ.gain y fields) where
  toHoldsFields := hn.holds
  held := by
    intro z
    change n.entryOrUndefined _ = .ofValue (.ofHolding (Function.update w σ.next o)
      (Function.update σ.holds y (some (.object σ.next)) z))
    by_cases hz : z = y
    · rw [hz, Function.update_self, hn.held]
      simp only [Value.ofHolding, Function.update_self]
    · have hsame := hn.other (.global z) (global_ne hz) fun g hg => absurd hg fieldOf_ne_global.symm
      rw [Function.update_of_ne hz, entryOrUndefined_of_eq hsame, hr.held z,
        hr.ofHolding_update z o]
  made := by
    intro h hh
    rcases Heap.held_gain hh with rfl | ⟨z, -, hz⟩
    · exact Nat.lt_succ_self _
    · exact Nat.lt_succ_of_lt (hr.made h ⟨z, hz⟩)
  declared := by
    intro h hh
    rcases Heap.held_gain hh with rfl | ⟨z, -, hz⟩
    · rw [Function.update_self]
      exact (hn.objects _).2 (.inl rfl)
    · rw [Function.update_of_ne (hr.made h ⟨z, hz⟩).ne]
      exact (hn.objects _).2 (.inr (hr.declared h ⟨z, hz⟩))

/-- What another variable holds does not have the unused identity. -/
theorem Represents.ne_of_unused (hr : Represents m w σ) {id : ObjectId}
    (hu : m.Unused y id fields) {z : String} (hz : z ≠ y) (hh : σ.holds z = some (.object h)) :
    (w h).id ≠ id := by
  apply hu.released (.ofName z) hz
  rw [hr.read_variable]
  change _ ∈ Entry.ofValue (.ofHolding w (σ.holds z))
  rw [hh]
  exact Entry.mem_ofValue.2 rfl

theorem Faithful.gain (hf : Faithful m w σ) (hr : Represents m w σ) (hn : m.Gains y o fields n)
    (hu : m.Unused y o.id fields) :
    Faithful n (Function.update w σ.next o) (σ.gain y fields) where
  apart := by
    intro h k hh hk hid
    rcases Heap.held_gain hh with rfl | ⟨z, hz, hhz⟩ <;>
      rcases Heap.held_gain hk with rfl | ⟨z', hz', hkz⟩
    · rfl
    · rw [Function.update_self, Function.update_of_ne (hr.made k ⟨z', hkz⟩).ne] at hid
      exact absurd hid.symm (hr.ne_of_unused hu hz' hkz)
    · rw [Function.update_self, Function.update_of_ne (hr.made h ⟨z, hhz⟩).ne] at hid
      exact absurd hid (hr.ne_of_unused hu hz hhz)
    · rw [Function.update_of_ne (hr.made h ⟨z, hhz⟩).ne,
        Function.update_of_ne (hr.made k ⟨z', hkz⟩).ne] at hid
      exact hf.apart h k ⟨z, hhz⟩ ⟨z', hkz⟩ hid
  content := by
    intro h g hh
    change Value.ofContent (Function.update σ.fields σ.next (fieldIn fields) h g) ∈ _
    rcases Heap.held_gain hh with rfl | ⟨z, hz, hhz⟩
    · rw [Function.update_self, Function.update_self]
      cases hg : fieldIn fields g with
      | some s => exact hn.field g s hg
      | none =>
        have hsame := hn.other (.fieldOf o.id g) fieldOf_ne_global fun g' heq => by
          rw [← (fieldOf_inj.1 heq).2]
          exact hg
        rw [entryOrUndefined_of_eq hsame, ← hr.toHoldsFields.readIndex_fieldOf]
        exact hu.cleared g hg
    · have hlt := hr.made h ⟨z, hhz⟩
      have hsame := hn.other (.fieldOf (w h).id g) fieldOf_ne_global fun g' heq =>
        absurd (fieldOf_inj.1 heq).1 (hr.ne_of_unused hu hz hhz)
      rw [Function.update_of_ne hlt.ne, Function.update_of_ne hlt.ne, entryOrUndefined_of_eq hsame]
      exact hf.content h g ⟨z, hhz⟩

end Step

/-- The names of the objects after a step. -/
def named (σ : Heap) (w : Nat → ObjectValue) : HeapStep → Nat → ObjectValue
  | .gain _ o _ => Function.update w σ.next o
  | _ => w

theorem Effect.represents (hr : Represents m w σ) (he : Effect m w (c.step σ) n) :
    Represents n (named σ w (c.step σ)) (c.apply σ) := by
  have hgrounded := grounded_step σ c
  unfold apply
  cases hst : c.step σ with
  | set y d =>
    rw [hst] at he hgrounded
    exact hr.set he hgrounded
  | setField h g s =>
    rw [hst] at he
    exact hr.setField he
  | gain y o fields =>
    rw [hst] at he
    exact hr.gain he

theorem Effect.faithful (hr : Represents m w σ) (hf : Faithful m w σ)
    (he : Effect m w (c.step σ) n)
    (hu : ∀ x o fields, c.step σ = .gain x o fields → m.Unused x o.id fields) :
    Faithful n (named σ w (c.step σ)) (c.apply σ) := by
  have hgrounded := grounded_step σ c
  unfold apply
  cases hst : c.step σ with
  | set y d =>
    rw [hst] at he hgrounded
    exact hf.set he hgrounded
  | setField h g s =>
    rw [hst] at he hgrounded
    exact hf.setField hgrounded he
  | gain y o fields =>
    rw [hst] at he
    exact hf.gain hr he (hu y o fields hst)

/-- The identity of no object so far is unused. -/
theorem Represents.unused (hr : Represents m w σ) {id : ObjectId} (hid : id ∉ m.objects)
    (x : String) (fields : List (String × Scalar)) : m.Unused x id fields where
  released := by
    intro y _ o ho heq
    obtain ⟨h, hy, rfl⟩ := hr.exists_of_mem_read ho
    exact hid (heq ▸ hr.declared h ⟨y.name, hy⟩)
  cleared := by
    intro g _
    have hnone : m.entry? (.fieldOf id g) = none := by
      cases he : m.entry? (.fieldOf id g) with
      | none => rfl
      | some e =>
        rcases hr.located _ e he with hd | ⟨y, hy⟩ | ⟨id', g', hi, hmem, -⟩
        · cases hd
        · exact absurd hy fieldOf_ne_global
        · exact absurd ((fieldOf_inj.1 hi).1 ▸ hmem) hid
    rw [hr.toHoldsFields.readIndex_fieldOf, entryOrUndefined_of_none hnone]
    exact Entry.mem_ofValue.2 rfl

/-- If all that is read may be so, also when a field of the new object is set once more, the
identity of the object was unused. -/
theorem unused_of_reads {y : String} {o : ObjectValue} {fields : List (String × Scalar)}
    (hr : Represents m w σ) (hn : m.Gains y o fields n) (hreads : Reads n (σ.gain y fields))
    (hset : ∀ g s, ∃ k, n.SetsField o.id g s k ∧ Reads k ((σ.gain y fields).setField σ.next g s)) :
    m.Unused y o.id fields where
  released := by
    intro z hz o' ho' hid
    obtain ⟨h, hh, rfl⟩ := hr.exists_of_mem_read ho'
    -- what is then set through one variable is read through the other
    obtain ⟨s, hs⟩ : ∃ s, σ.fields h "" ≠ some s := by
      by_cases hnull : σ.fields h "" = some .null
      · exact ⟨.integer 0, by rw [hnull]; simp⟩
      · exact ⟨.null, hnull⟩
    obtain ⟨k, hk, hkreads⟩ := hset "" s
    have hheld : k.entryOrUndefined (.global z.name) = .ofValue (.object (w h)) := by
      rw [← hr.holds_object (Heap.object?_eq_some.2 hh)]
      exact entryOrUndefined_of_eq ((hk.other _ fieldOf_ne_global.symm).trans
        (hn.other _ (global_ne hz) fun g hg => absurd hg.symm fieldOf_ne_global))
    have hmem := hkreads z ""
    rw [hk.holds.read_field z.isVariable_path hheld, hid, hk.field, Entry.mem_ofValue,
      Heap.field_gain_setField hz hh (hr.made h ⟨_, hh⟩).ne] at hmem
    exact hs (Value.ofContent_eq_scalar.1 hmem)
  cleared := by
    intro g hg
    have hmem := hreads (.ofName y) g
    have hsame := hn.other (.fieldOf o.id g) fieldOf_ne_global fun g' heq => by
      rw [← (fieldOf_inj.1 heq).2]
      exact hg
    rw [hn.holds.read_field (Variable.ofName y).isVariable_path hn.held,
      entryOrUndefined_of_eq hsame] at hmem
    change Value.ofContent ((σ.gain y fields).field y g) ∈ _ at hmem
    rw [Heap.field_gain_self, hg] at hmem
    rw [hr.toHoldsFields.readIndex_fieldOf]
    exact hmem

/-- The transaction that makes the changes ends with the memory. -/
def Leaves (changes : List HeapChange) (m : Memory) : Prop :=
  Transact.Yields (changes.forM perform) {} .initial () m

theorem after_snoc (l : List HeapChange) (c : HeapChange) :
    after (l ++ [c]) = c.apply (after l) := by
  unfold after
  rw [List.foldl_append]
  rfl

theorem identities_append (σ : Heap) (l k : List HeapChange) : identities σ (l ++ k) =
    identities σ l ++ identities (l.foldl (fun σ c => c.apply σ) σ) k := by
  induction l generalizing σ with
  | nil => rfl
  | cons c l ih =>
    change _ ++ identities (c.apply σ) (l ++ k) = (_ ++ _) ++ _
    rw [ih, List.append_assoc]
    rfl

theorem identities_snoc (l : List HeapChange) (c : HeapChange) : identities .empty (l ++ [c]) =
    identities .empty l ++ (c.step (after l)).identity?.toList := by
  rw [identities_append]
  exact congrArg _ (List.append_nil _)

theorem Leaves.session (hm : Leaves l m) : ∃ t, session l = .ok () t ∧ t.memory = m :=
  Transact.Yields.session hm

/-- Every sequence of changes succeeds, and memory holds what the variables do afterwards. -/
theorem exists_leaves (changes : List HeapChange) : ∃ m w, Leaves changes m ∧
    Represents m w (after changes) ∧ ∀ id : ObjectId, id ∈ m.objects →
      id ∈ identities .empty changes := by
  induction changes using List.reverseRecOn with
  | nil =>
    refine ⟨_, fun _ => ⟨"", ""⟩, Transact.Yields.pure {} .initial (), represents_initial _, ?_⟩
    exact fun id hid => absurd hid ExtTreeMap.not_mem_empty
  | append_singleton l c ih =>
    obtain ⟨m, w, hm, hr, hids⟩ := ih
    obtain ⟨n, hn, he⟩ := yields_perform hr c
    refine ⟨n, named (after l) w (c.step (after l)), Transact.Yields.snoc hm hn, ?_, ?_⟩
    · rw [after_snoc]
      exact he.represents hr
    · intro id hid
      rw [identities_snoc, List.mem_append, Option.mem_toList]
      exact ((he.objects id).1 hid).symm.imp_left (hids id)

theorem sound_iff (hm : Leaves l m) : Sound l ↔ Reads m (after l) := by
  obtain ⟨t, ht, htm⟩ := hm.session
  unfold Sound Reads
  rw [ht, ← htm]
  simp

theorem fresh_iff (hm : Leaves l m) : Fresh l c ↔
    ∀ x o fields, c.step (after l) = .gain x o fields → m.Unused x o.id fields := by
  obtain ⟨t, ht, htm⟩ := hm.session
  unfold Fresh
  rw [ht, ← htm]
  simp

/-- As long as new objects get unused identities, memory describes the heap. -/
theorem faithful_of_fresh (hl : ∀ k c, k ++ [c] <+: l → Fresh k c) :
    ∃ m w, Leaves l m ∧ Represents m w (after l) ∧ Faithful m w (after l) := by
  induction l using List.reverseRecOn with
  | nil =>
    exact ⟨_, fun _ => ⟨"", ""⟩, Transact.Yields.pure {} .initial (), represents_initial _,
      faithful_initial _⟩
  | append_singleton l c ih =>
    obtain ⟨m, w, hm, hr, hf⟩ := ih fun k d hk => hl k d (hk.trans (List.prefix_append l [c]))
    obtain ⟨n, hn, he⟩ := yields_perform hr c
    have hu := (fresh_iff hm).1 (hl l c List.prefix_rfl)
    refine ⟨n, named (after l) w (c.step (after l)), Transact.Yields.snoc hm hn, ?_, ?_⟩
    · rw [after_snoc]
      exact he.represents hr
    · rw [after_snoc]
      exact he.faithful hr hf hu

/-- Where some object gets an identity that is in use, a field of some variable is not described, if
need be once a field of the object is set. -/
theorem fresh_of_sound (hl : ∀ k c, k ++ [c] <+: l → Fresh k c) (hsound : Sound (l ++ [c]))
    (hset : ∀ x g s force, ((after (l ++ [c])).object? x.name).isSome →
      Sound (l ++ [c] ++ [.setField x g s force])) : Fresh l c := by
  obtain ⟨m, w, hm, hr, -⟩ := faithful_of_fresh hl
  obtain ⟨n, hn, he⟩ := yields_perform hr c
  have hleaves : Leaves (l ++ [c]) n := Transact.Yields.snoc hm hn
  rw [fresh_iff hm]
  intro y o fields hst
  have hafter : after (l ++ [c]) = (after l).gain y fields := by
    rw [after_snoc]
    unfold apply
    rw [hst]
    rfl
  rw [hst] at he
  have hobject : ((after l).gain y fields).object? y = some (after l).next :=
    Heap.object?_eq_some.2 (Function.update_self y _ _)
  refine unused_of_reads hr he ?_ ?_
  · rw [← hafter]
    exact (sound_iff hleaves).1 hsound
  · intro g s
    have hrn := hr.gain he
    obtain ⟨k, hk, hek⟩ := yields_perform hrn (.setField (.ofName y) g s false)
    rw [step_setField_of_some hobject] at hek
    have hsame : after (l ++ [c] ++ [.setField (.ofName y) g s false]) =
        ((after l).gain y fields).setField (after l).next g s := by
      rw [after_snoc, hafter]
      unfold apply
      rw [step_setField_of_some hobject]
      rfl
    refine ⟨k, ?_, ?_⟩
    · have hfield : n.SetsField (Function.update w (after l).next o (after l).next).id g s k := hek
      rwa [Function.update_self] at hfield
    · rw [← hsame]
      refine (sound_iff (Transact.Yields.snoc hleaves hk)).1 (hset _ g s false ?_)
      rw [hafter]
      exact Option.isSome_of_eq_some hobject

theorem fresh_of_nodup (hnodup : (identities .empty (l ++ [c])).Nodup) : Fresh l c := by
  obtain ⟨m, w, hm, hr, hids⟩ := exists_leaves l
  rw [fresh_iff hm]
  intro x o fields hst
  apply hr.unused
  intro hid
  rw [identities_snoc, hst] at hnodup
  exact List.disjoint_of_nodup_append hnodup (hids _ hid) List.mem_cons_self

/-- Fields of objects are described exactly as long as no object gets an identity that is in use.
Every sequence of changes succeeds. All its beginnings are described, and still are after any field
of any object that a variable holds is set, if and only if at each change the identity of the object
that it makes is unused; if the objects get different identities, it always is. -/
theorem sound_iff_fresh (changes : List HeapChange) :
    (∃ t, session changes = .ok () t) ∧
    ((∀ l c, l ++ [c] <+: changes → Fresh l c) ↔
      ∀ l, l <+: changes → Sound l ∧ ∀ x g s force, ((after l).object? x.name).isSome →
        Sound (l ++ [.setField x g s force])) ∧
    ((identities .empty changes).Nodup → ∀ l c, l ++ [c] <+: changes → Fresh l c) := by
  refine ⟨?_, ⟨?_, ?_⟩, ?_⟩
  · obtain ⟨m, w, hm, -⟩ := exists_leaves changes
    obtain ⟨t, ht, -⟩ := hm.session
    exact ⟨t, ht⟩
  · intro hfresh l hl
    obtain ⟨m, w, hm, hr, hf⟩ := faithful_of_fresh fun k c hk => hfresh k c (hk.trans hl)
    refine ⟨(sound_iff hm).2 (hf.reads hr), ?_⟩
    intro x g s force hx
    obtain ⟨n, hn, he⟩ := yields_perform hr (.setField x g s force)
    obtain ⟨h, hh⟩ := Option.isSome_iff_exists.1 hx
    rw [sound_iff (Transact.Yields.snoc hm hn), after_snoc]
    refine (he.faithful hr hf fun y o fields hst => ?_).reads (he.represents hr)
    rw [step_setField_of_some hh] at hst
    cases hst
  · intro hsound
    have hall (k : Nat) : ∀ l c, l.length = k → l ++ [c] <+: changes → Fresh l c := by
      induction k using Nat.strongRecOn with
      | ind k ih =>
        rintro l c rfl hl
        obtain ⟨hread, hset⟩ := hsound _ hl
        refine fresh_of_sound (fun k d hk => ?_) hread hset
        refine ih k.length ?_ k d rfl (hk.trans ((List.prefix_append l [c]).trans hl))
        have hlength := hk.length_le
        rw [List.length_append, List.length_singleton] at hlength
        omega
    exact fun l c => hall _ l c rfl
  · intro hnodup l c hl
    apply fresh_of_nodup
    obtain ⟨rest, rfl⟩ := hl
    rw [identities_append] at hnodup
    exact (List.nodup_append.1 hnodup).1

/-- Whether what the field of the variable is after the changes is among the values that the
snapshot reads. -/
def readsField (changes : List HeapChange) (x : Variable) (g : String) : Bool :=
  match session changes with
  | .ok _ t => (t.memory.read (x.path.member (.field g))).contains
      (.ofContent ((after changes).field x.name g))
  | .error _ _ => false

theorem Sound.readsField (h : Sound changes) (x : Variable) (g : String) :
    readsField changes x g = true := by
  obtain ⟨t, ht, hsound⟩ := h
  unfold HeapChange.readsField
  rw [ht]
  exact Entry.contains_eq_true.2 (hsound x g)

end HeapChange

namespace Sample

/-- An object that comes with its first field is shared by a second variable. -/
def shared : List HeapChange :=
  [.setField (.ofName "x") "f" (.integer 1) false, .copy (.ofName "y") (.ofName "x") false]

end Sample

namespace HeapChange

/-- A field set through one of the variables may be read through the other. -/
theorem sound_iff_fresh_shared :
    Sound (Sample.shared ++ [.setField (.ofName "y") "f" (.integer 2) false]) := by
  have hnodup : (identities .empty Sample.shared).Nodup := List.nodup_singleton _
  obtain ⟨-, hiff, hfresh⟩ := sound_iff_fresh Sample.shared
  exact (hiff.1 (hfresh hnodup) _ List.prefix_rfl).2 _ _ _ _ rfl

set_option maxRecDepth 20000 in
/-- Once the first variable holds no object any more, setting its field makes another one of the
same identity: the field of the first object is not read as what it is. -/
theorem not_sound_reused : ¬Sound (Sample.shared ++
    [.assign (.ofName "x") (.integer 5) false,
      .setField (.ofName "x") "f" (.integer 2) false]) := by
  have hlost : readsField (Sample.shared ++ [.assign (.ofName "x") (.integer 5) false,
      .setField (.ofName "x") "f" (.integer 2) false]) (.ofName "y") "f" = false := by
    decide +kernel
  intro hsound
  exact Bool.false_ne_true (hlost.symm.trans (hsound.readsField (.ofName "y") "f"))

end HeapChange
end ScriptMemory
