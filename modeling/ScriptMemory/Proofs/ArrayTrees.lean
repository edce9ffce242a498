import Mathlib.Logic.Function.Basic
import ScriptMemory.Proofs.Memory.ValueTree

/-! Arrays as value trees. Beside any sequence of writes, copies and removals at known keys the
variables can be run as trees: reading memory afterwards tells what the trees are. Copies are deep
and share nothing, since a tree has no identity that could be shared. -/
namespace ScriptMemory
open Std

/-- A variable of the top level with some known keys below it. -/
structure KeyPath where
  scope : Scope
  name : String
  keys : List Key

namespace KeyPath

def path (p : KeyPath) : Path :=
  ⟨p.scope, p.name, segmentsOf p.keys⟩

/-- The variable that the path starts from. -/
def start (p : KeyPath) : Index :=
  .ofVariable p.name .global

/-- The location that the path names. -/
def index (p : KeyPath) : Index :=
  p.start.descend (segmentsOf p.keys)

theorem indexAt_path (p : KeyPath) : p.path.indexAt 0 = p.start := by
  unfold Path.indexAt start path
  cases p.scope <;> rfl

end KeyPath

/-- The value of each variable. -/
abbrev Forest := String → ValueTree

namespace Forest

def get (σ : Forest) (p : KeyPath) : ValueTree :=
  (σ p.name).get (segmentsOf p.keys)

def set (σ : Forest) (p : KeyPath) (t : ValueTree) : Forest :=
  Function.update σ p.name ((σ p.name).set p.keys t)

def remove (σ : Forest) (p : KeyPath) : Forest :=
  Function.update σ p.name ((σ p.name).remove p.keys)

end Forest

/-- What scripts do with arrays. -/
inductive ArrayOperation where
  | assign (p : KeyPath) (s : Scalar) (force : Bool)
  | createArray (p : KeyPath)
  | unset (p : KeyPath)
  /-- Assigns what is read at `q`. -/
  | copy (p q : KeyPath) (force : Bool)

namespace ArrayOperation

def perform : ArrayOperation → Transact Unit
  | assign p s force => Snapshot.assign p.path (.ofValue (.scalar s)) force
  | createArray p => Snapshot.createArray p.path
  | unset p => Snapshot.unset p.path
  | copy p q force => do Snapshot.assign p.path ((← get).memory.read q.path) force

/-- What becomes of the trees. -/
def apply (σ : Forest) : ArrayOperation → Forest
  | assign p s _ => σ.set p (.scalar s)
  | createArray p => σ.set p (.array [])
  | unset p => σ.remove p
  | copy p q _ => σ.set p (σ.get q)

/-- A copy leads from one variable to another. -/
def Apart : ArrayOperation → Prop
  | copy p q _ => p.name ≠ q.name
  | _ => True

end ArrayOperation

namespace Memory
variable {m n : Memory} {σ : Forest} {p q : KeyPath} {i j : Index} {t : ValueTree}

/-- Memory of the top level without aliases that holds a tree in each variable. -/
structure EncodesAll (m : Memory) (σ : Forest) : Prop where
  neat : m.Neat
  unaliased : m.Unaliased
  level_eq : m.level = 0
  encodes : ∀ name, m.Encodes (.ofVariable name .global) (σ name)

theorem encodesAll_initial : initial.EncodesAll fun _ => .undefined where
  neat := ⟨tidy_initial, fun i j s hs => by
    rw [aliases_initial, AliasSet.strength?_empty] at hs
    cases hs⟩
  unaliased := aliases_initial
  level_eq := rfl
  encodes := by
    intro name
    apply encodes_undefined
    intro j hj
    rw [entry?_initial, if_neg]
    rintro rfl
    cases hj.base_eq

/-- What one variable contains another one does not. -/
theorem not_contains_of_ne {name name' : String} (hne : name' ≠ name)
    (hj : (Index.ofVariable name' .global).Contains j) :
    ¬(Index.ofVariable name .global).Contains j := by
  intro h
  have hbase : Root.var name' .global = .var name .global := hj.base_eq.symm.trans h.base_eq
  cases hbase
  exact hne rfl

/-- Where one variable has changed, the others still hold their trees. -/
theorem EncodesAll.update (h : m.EncodesAll σ) (hn : n.Neat) (hu : n.Unaliased) (hl : n.level = 0)
    {name : String} (ht : n.Encodes (.ofVariable name .global) t)
    (hothers : ∀ j, ¬(Index.ofVariable name .global).Contains j → n.entry? j = m.entry? j) :
    n.EncodesAll (Function.update σ name t) where
  neat := hn
  unaliased := hu
  level_eq := hl
  encodes := by
    intro name'
    by_cases hname : name' = name
    · subst hname
      rwa [Function.update_self]
    · rw [Function.update_of_ne hname]
      apply (h.encodes name').congr
      intro j hj
      exact entryOrUndefined_congr (hothers j (not_contains_of_ne hname hj))

end Memory

namespace Draft
variable {d d' : Draft} {σ : Forest} {p q : KeyPath} {e : Entry} {t : ValueTree}

/-- Resolving a path for writing leads to one location, and leaves everything as it is but the
containers on the way. -/
theorem encodesAll_resolve (hlimit : d.limit = none) (h : d.memory.EncodesAll σ) (p : KeyPath) :
    ∃ d', d.resolve p.path 0 = (d', .single p.index) ∧ d.Renewed p.start.Contains d' ∧
      d'.memory.Hosts p.index ∧ ∀ d'' t, d'.Renewed p.index.Contains d'' →
        d''.memory.Encodes p.index t → d''.memory.EncodesAll (σ.set p t) := by
  have hhosts : d.memory.Hosts p.start := fun id hid => nomatch hid
  obtain ⟨d', hfold, hrenewed, hindex, hset⟩ :=
    encodes_follow hlimit h.neat h.unaliased hhosts (h.encodes p.name) p.keys
  have hunaliased : d'.memory.Unaliased := fun i => (hrenewed.aliases_eq i).trans (h.unaliased i)
  refine ⟨d', ?_, hrenewed, hindex, ?_⟩
  · have hfollow : d.follow p.path 0 = (d', .single p.index) := by
      unfold follow
      rw [Memory.ofVariable_eq, p.indexAt_path]
      exact hfold
    unfold resolve
    rw [hfollow]
    dsimp only
    rw [Memory.expand_single hunaliased]
  · intro d'' t hd'' ht
    have hwithin : d.Renewed p.start.Contains d'' :=
      hrenewed.trans (hd''.mono fun j hj => Index.Contains.trans ⟨segmentsOf p.keys, rfl⟩ hj)
    exact h.update hwithin.neat (fun i => (hwithin.aliases_eq i).trans (h.unaliased i))
      (hwithin.level_eq.trans h.level_eq) (hset d'' t hd'' ht) hwithin.entry?_eq

theorem encodesAll_assign (hlimit : d.limit = none) (h : d.memory.EncodesAll σ) (p : KeyPath)
    (s : Scalar) (force : Bool) :
    (d.assign p.path 0 (.ofValue (.scalar s)) force).memory.EncodesAll (σ.set p (.scalar s)) := by
  obtain ⟨d', hresolve, hrenewed, hhosts, hset⟩ := encodesAll_resolve hlimit h p
  have hflat : (Entry.ofValue (.scalar s)).IsFlat := Entry.all_ofValue ⟨rfl, rfl⟩
  have hassign : d.assign p.path 0 (.ofValue (.scalar s)) force =
      d'.place p.index (.ofValue (.scalar s)) false true := by
    unfold assign
    rw [hresolve]
    dsimp only
    rw [storeAll_single, ofEntry_flat _ hflat]
    rfl
  rw [hassign]
  apply hset _ _ (renewed_place hrenewed.neat hhosts hflat.isData ?_ false true)
  · apply encodes_place (hrenewed.limit_eq.trans hlimit) hrenewed.neat hhosts rfl
    exact hflat.filter_eq
  · exact fun o ho => nomatch Entry.mem_ofValue.1 ho

theorem encodesAll_createArray (hlimit : d.limit = none) (h : d.memory.EncodesAll σ)
    (p : KeyPath) : ((d.resolve p.path 0).1.storeAll (d.resolve p.path 0).2
      (.ofValue (.array .freshArray)) [.blank] true).memory.EncodesAll (σ.set p (.array [])) := by
  obtain ⟨d', hresolve, hrenewed, hhosts, hset⟩ := encodesAll_resolve hlimit h p
  rw [hresolve]
  dsimp only
  rw [storeAll_single]
  have hstore : d'.store p.index (.ofValue (.array .freshArray)) [.blank] true =
      d'.place p.index (.ofValue (.array .freshArray)) true true := rfl
  rw [hstore]
  apply hset _ _ (renewed_place hrenewed.neat hhosts (Entry.all_ofValue rfl) ?_ true true)
  · apply encodes_place (hrenewed.limit_eq.trans hlimit) hrenewed.neat hhosts rfl
    unfold placed
    rw [ValueTree.filter_ofValue_array]
    rfl
  · exact fun o ho => nomatch Entry.mem_ofValue.1 ho

/-- The source of a copy is untouched while its target comes into being. -/
theorem encodesAll_copy (hlimit : d.limit = none) (h : d.memory.EncodesAll σ)
    (hne : p.name ≠ q.name) (force : Bool) :
    (d.assign p.path 0 ((σ.get q).entryAt q.index) force).memory.EncodesAll
      (σ.set p (σ.get q)) := by
  obtain ⟨d', hresolve, hrenewed, hhosts, hset⟩ := encodesAll_resolve hlimit h p
  have hsource : d'.memory.Encodes q.index (σ.get q) := by
    have hvariable : d'.memory.Encodes q.start (σ q.name) := by
      apply (h.encodes q.name).congr
      intro j hj
      exact hrenewed.entryOrUndefined_eq (Memory.not_contains_of_ne hne.symm hj)
    intro segments
    have hat := hvariable (segmentsOf q.keys ++ segments)
    rwa [ValueTree.get_append, Index.descend_append] at hat
  have hroot : d'.memory.entryOrUndefined q.index = (σ.get q).entryAt q.index := hsource.root
  have hassign : d.assign p.path 0 ((σ.get q).entryAt q.index) force =
      d'.store p.index (d'.memory.entryOrUndefined q.index)
        (ArraySource.held d'.memory q.index) true := by
    unfold assign
    rw [hresolve]
    dsimp only
    rw [storeAll_single, ValueTree.ofEntry_entryAt hroot, hroot]
  have hobject : ∀ id, q.index ≠ .object id := by
    intro id heq
    have hbase : q.index.base = .var q.name .global := Index.base_descend q.start _
    rw [heq] at hbase
    cases hbase
  rw [hassign]
  apply hset
  · apply renewed_store hrenewed.neat hhosts
    · exact fun v hv => (hrenewed.neat.held_entryOrUndefined _ v hv).1
    · exact hrenewed.neat.introduces_entryOrUndefined _
    · exact fun a => ArraySource.available_of_mem_held hrenewed.neat.toTidy fun _ => id
  · apply hsource.replicated
    exact replicates_store (hrenewed.limit_eq.trans hlimit) hrenewed.neat hhosts
      hrenewed.neat.toTidy (fun _ => id) hobject

end Draft

namespace Memory
variable {m : Memory} {σ : Forest}

theorem follow_single (h : m.Unaliased) (use : AliasReach) (i : Index) (keys : List Key) :
    (segmentsOf keys).foldl (fun l s => m.step (m.expand use l) s) (.single i) =
      .single (i.descend (segmentsOf keys)) := by
  induction keys generalizing i with
  | nil => rfl
  | cons k keys ih =>
    change List.foldl _ (m.step (m.expand use (.single i)) (.key k)) (segmentsOf keys) = _
    rw [expand_single h, step_single, ih]
    rfl

theorem EncodesAll.follow_eq (h : m.EncodesAll σ) (use : AliasReach) (p : KeyPath) :
    m.follow use p.path 0 = .single p.index := by
  unfold follow
  rw [ofVariable_eq, p.indexAt_path]
  exact follow_single h.unaliased use p.start p.keys

/-- Reading tells what the tree is. -/
theorem EncodesAll.read_eq (h : m.EncodesAll σ) (p : KeyPath) :
    m.read p.path = (σ.get p).entryAt p.index := by
  have hindex : m.readIndex p.index = (σ.get p).entryAt p.index :=
    (h.encodes p.name).readIndex_eq p.keys
  unfold read readAt resolve
  rw [h.level_eq, h.follow_eq, expand_single h.unaliased, readLocations_single, hindex]

theorem encodesAll_unset {d : Draft} (h : d.memory.EncodesAll σ) (p : KeyPath) :
    (d.unset p.path).memory.EncodesAll (σ.remove p) := by
  have hobject : ∀ id, p.index ≠ .object id := by
    intro id heq
    have hbase : p.index.base = .var p.name .global := Index.base_descend p.start _
    rw [heq] at hbase
    cases hbase
  have hunset : (d.unset p.path).memory = d.memory.remove [p.index] := by
    have hmust : (Locations.single p.index).must.toList = [p.index] :=
      Locations.toList_insert_empty p.index
    have hmay : (Locations.single p.index).may.toList = [] := Locations.toList_empty
    unfold Draft.unset
    rw [h.level_eq, h.follow_eq]
    dsimp only
    rw [hmust, hmay]
    rfl
  rw [hunset]
  apply h.update (h.neat.discard (tidy_remove h.neat.toTidy _))
  · intro i
    apply AliasSet.ext_strength?
    intro j
    rw [strength?_discard, h.unaliased i]
    exact ite_self none
  · exact h.level_eq
  · apply (h.encodes p.name).remove p.keys
    · exact fun j hj => h.neat.entry?_remove hobject hj
    · exact fun j hj => h.neat.entry?_remove_of_not hj
  · intro j hj
    apply h.neat.entry?_remove_of_not
    exact fun hc => hj (Index.Contains.trans ⟨segmentsOf p.keys, rfl⟩ hc)

end Memory

namespace ArrayOperation
variable {σ : Forest} {o : ArrayOperation} {limits : Limits}

theorem yields_assign {m : Memory} {p : Path} {e : Entry} (hlimit : limits.simplify = none)
    (he : e.IsData) (hl : m.level = 0) (force : Bool) : Transact.Yields (Snapshot.assign p e force)
      limits m () (Draft.assign { memory := m, limit := none } p 0 e force).memory := by
  apply Transact.Yields.mutate
  rw [hlimit, ← hl]
  exact Edit.assign_run _ p he force

/-- Every operation succeeds and does to memory what it does to the trees. -/
theorem leads_perform (hlimit : limits.simplify = none) (ho : o.Apart) :
    Transact.Leads limits (Memory.EncodesAll · σ) o.perform fun _ n =>
      n.EncodesAll (o.apply σ) := by
  intro m hm
  cases o with
  | assign p s force =>
    exact ⟨(), _, yields_assign hlimit (Entry.all_ofValue rfl) hm.level_eq force,
      Draft.encodesAll_assign (d := ⟨m, none, 0⟩) rfl hm p s force⟩
  | createArray p =>
    have hrun : (Edit.createArray p.path).run { memory := m, limit := limits.simplify } = .ok ()
        (((⟨m, none, 0⟩ : Draft).resolve p.path 0).1.storeAll
          ((⟨m, none, 0⟩ : Draft).resolve p.path 0).2 (.ofValue (.array .freshArray))
          [.blank] true) := by
      rw [hlimit, ← hm.level_eq]
      rfl
    exact ⟨(), _, Transact.Yields.mutate hrun,
      Draft.encodesAll_createArray (d := ⟨m, none, 0⟩) rfl hm p⟩
  | unset p =>
    have hrun : (Edit.unset p.path).run { memory := m, limit := limits.simplify } =
        .ok () ((⟨m, limits.simplify, 0⟩ : Draft).unset p.path) := rfl
    exact ⟨(), _, Transact.Yields.mutate hrun,
      Memory.encodesAll_unset (d := ⟨m, limits.simplify, 0⟩) hm p⟩
  | copy p q force =>
    refine ⟨(), _, Transact.Yields.get_bind ?_ (yields_assign hlimit ?_ hm.level_eq force), ?_⟩
    · intro s t hst
      rw [hst]
    · dsimp only
      rw [hm.read_eq]
      exact ValueTree.entryAt_isData _ _
    · dsimp only
      rw [hm.read_eq]
      exact Draft.encodesAll_copy (d := ⟨m, none, 0⟩) rfl hm ho force

theorem leads_forM (hlimit : limits.simplify = none) {os : List ArrayOperation}
    (hos : ∀ o ∈ os, o.Apart) :
    Transact.Leads limits (Memory.EncodesAll · σ) (os.forM perform) fun _ n =>
      n.EncodesAll (os.foldl apply σ) := by
  induction os generalizing σ with
  | nil => exact Transact.Leads.pure fun m hm => hm
  | cons o os ih =>
    change Transact.Leads limits _ (o.perform >>= fun _ => os.forM perform) _
    exact (leads_perform hlimit (hos o List.mem_cons_self)).bind fun _ =>
      ih fun o' ho' => hos o' (List.mem_cons_of_mem o ho')

end ArrayOperation

namespace Snapshot

/-- In one transaction over a fresh snapshot without limits any sequence of assignments, creations
and removals of arrays and copies between variables succeeds, and afterwards a path reads as what
the trees have there: nothing, a scalar, or the array of the location. -/
theorem arrays_as_trees (os : List ArrayOperation) (hos : ∀ o ∈ os, o.Apart) :
    ∃ s : Snapshot, (do Snapshot.start; os.forM ArrayOperation.perform).run {} = .ok () s ∧
      ∀ p : KeyPath, s.memory.read p.path =
        ((os.foldl ArrayOperation.apply fun _ => .undefined).get p).entryAt p.index := by
  have hleads : Transact.Leads {} (Memory.EncodesAll · fun _ => .undefined)
      (os.forM ArrayOperation.perform) fun _ n => n.EncodesAll _ :=
    ArrayOperation.leads_forM rfl hos
  obtain ⟨_, n, hyields, hn⟩ := hleads .initial Memory.encodesAll_initial
  obtain ⟨started, hstart, hlimits, hmemory, hopen⟩ : ∃ s : Snapshot,
      Snapshot.start.run {} = .ok () s ∧ s.limits = {} ∧ s.memory = .initial ∧
        ∃ b, s.phase = .open b := ⟨_, rfl, rfl, rfl, _, rfl⟩
  obtain ⟨s, hrun, -, rfl, -⟩ := hyields started hlimits hmemory hopen
  refine ⟨s, ?_, hn.read_eq⟩
  rw [EStateM.run_bind, hstart]
  exact hrun

/-- A script that copies an array and then takes the member out of the original. -/
def arrayScript : List ArrayOperation :=
  [.assign ⟨.current, "a", [.integer 1]⟩ (.integer 5) false,
    .copy ⟨.current, "b", []⟩ ⟨.current, "a", []⟩ false,
    .unset ⟨.current, "a", [.integer 1]⟩]

theorem arrays_as_trees_copied : (∀ o ∈ arrayScript, o.Apart) ∧
    ∃ s : Snapshot, (do Snapshot.start; arrayScript.forM ArrayOperation.perform).run {} = .ok () s ∧
      s.memory.read ⟨.current, "b", [.key (.integer 1)]⟩ = .ofValue (.scalar (.integer 5)) ∧
      s.memory.read ⟨.current, "a", [.key (.integer 1)]⟩ = .undefined := by
  have hapart : ∀ o ∈ arrayScript, o.Apart := by
    intro o ho
    rcases List.mem_cons.1 ho with rfl | ho
    · trivial
    rcases List.mem_cons.1 ho with rfl | ho
    · exact fun h => nomatch h
    rcases List.mem_cons.1 ho with rfl | ho
    · trivial
    · cases ho
  obtain ⟨s, hrun, hread⟩ := arrays_as_trees arrayScript hapart
  exact ⟨hapart, s, hrun, hread ⟨.current, "b", [.integer 1]⟩, hread ⟨.current, "a", [.integer 1]⟩⟩

end Snapshot
end ScriptMemory
