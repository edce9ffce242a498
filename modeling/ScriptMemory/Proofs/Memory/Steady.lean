import ScriptMemory.Proofs.Analysis.Transfer
import ScriptMemory.Proofs.Memory.Complete

/-! Properties of complete memory that statements keep. A statement reaches the variables in three
ways: it stores at a path, it binds one variable to another, or it unsets one; a property that
survives these, and does not look below the variables, withstands all statements. -/
namespace ScriptMemory
open Std Transact

theorem Index.IsVariable.eq_of_contains {x i : Index} (hi : i.IsVariable) (hc : x.Contains i) :
    x = i := by
  obtain ⟨name, table, rfl⟩ := hi
  exact Index.contains_root_iff.1 hc

namespace Memory
variable {limits : Limits} {R : Path → Path → Prop} {U : Path → Prop} {J : Memory → Prop}
  {k : Nat} {m : Memory} {d d' : Draft} {P : Index → Prop} {e : Entry} {i : Index}

/-- A property of complete memory that statements keep. It says nothing of what lies below the
variables. `R` says which path may be made a reference to which, and `U` which path may be unset. -/
structure Steady (limits : Limits) (R : Path → Path → Prop) (U : Path → Prop)
    (J : Memory → Prop) : Prop where
  renewed : ∀ {d d' : Draft} {P : Index → Prop}, d.memory.Complete → J d.memory → d.Renewed P d' →
    (∀ i, i.IsVariable → ¬P i) → J d'.memory
  store : ∀ {d : Draft} {p : Path} {level : Nat} {e : Entry} {arrays : List ArraySource}
    {force : Bool}, d.memory.Complete → d.limit = limits.simplify → J d.memory →
    Draft.Storable (d.resolve p level).1.memory e arrays →
    J ((d.resolve p level).1.storeAll (d.resolve p level).2 e arrays force).memory
  refers : ∀ {target source : Path}, R target source →
    target.isVariable = true ∧ source.isVariable = true
  bound : ∀ {d d' : Draft} {target source : Path} {targetLevel sourceLevel : Nat},
    R target source → d.memory.Complete → d.limit = limits.simplify → J d.memory →
    (d.referring (source.indexAt sourceLevel)).Bound (target.indexAt targetLevel)
      (source.indexAt sourceLevel) d' → J d'.memory
  unset : ∀ {m : Memory} {p : Path}, U p → p.isVariable = true → m.Complete → J m →
    J (m.remove [p.indexAt m.level])

/-- Complete memory of a level that has a property. -/
structure Upheld (J : Memory → Prop) (level : Nat) (m : Memory) : Prop extends Complete m where
  level_eq : m.level = level
  kept : J m

/-- An entry that memory may hold. -/
structure Admits (m : Memory) (e : Entry) : Prop where
  isData : e.IsData
  introduces : m.Introduces e

theorem Admits.renewed (h : d.memory.Admits e) (hr : d.Renewed P d') : d'.memory.Admits e :=
  ⟨h.isData, h.introduces.mono hr.objects⟩

theorem Tidy.admits_readIndex (h : m.Tidy) (i : Index) : m.Admits (m.readIndex i) where
  isData := isData_readIndex (fun i e he v hv => (h.held i e he v hv).1) i
  introduces := introduces_iff.2 <| all_readIndex (fun _ ho => nomatch ho) (fun _ ho => nomatch ho)
    (fun i e he => introduces_iff.1 (h.introduces i e he)) i

theorem Admits.returned (h : m.Admits e) : m.Admits e.returned where
  isData := h.isData.returned
  introduces := introduces_iff.2 ((introduces_iff.1 h.introduces).returned fun _ ho => nomatch ho)

theorem Tidy.admits_readAt (h : m.Tidy) (p : Path) (level : Nat) : m.Admits (m.readAt p level) where
  isData := isData_readAt (fun i e he v hv => (h.held i e he v hv).1) p level
  introduces := introduces_iff.2 <| all_readAt (fun _ ho => nomatch ho) (fun _ ho => nomatch ho)
    (fun _ _ ho => nomatch ho) (fun i e he => introduces_iff.1 (h.introduces i e he)) p level

theorem admits_of_isFresh (m : Memory) (he : e.All Value.IsFresh) : m.Admits e where
  isData := fun v hv => (he v hv).isReference
  introduces := fun _ ho => (he _ ho).elim

namespace Steady
variable (hJ : Steady limits R U J)
include hJ

theorem kept_renewed (h : Upheld J k d.memory) (hr : d.Renewed P d')
    (hP : ∀ i, i.IsVariable → ¬P i) : Upheld J k d'.memory where
  toComplete := hr.complete h.toComplete
  level_eq := hr.level_eq.trans h.level_eq
  kept := hJ.renewed h.toComplete h.kept hr hP

theorem kept_assign (h : Upheld J k d.memory) (hd : d.limit = limits.simplify)
    (he : d.memory.Admits e) (p : Path) (level : Nat) (force : Bool) :
    Upheld J k (d.assign p level e force).memory := by
  have hassign := Draft.renewed_assign h.toNeat he.isData he.introduces p level force
  obtain ⟨hresolved, -, -⟩ := Draft.ready_resolve h.toNeat p level
  exact ⟨hassign.complete h.toComplete, hassign.level_eq.trans h.level_eq,
    hJ.store h.toComplete hd h.kept (Draft.storable_ofEntry hresolved.neat.toTidy he.isData
      (he.introduces.mono hresolved.objects) fun _ => id)⟩

/-- A store at a location that is no variable. -/
theorem kept_assignIndex (h : Upheld J k d.memory) (he : d.memory.Admits e) (hi : d.memory.Hosts i)
    (hv : ¬i.IsVariable) (strong : Bool) :
    ∃ d', (Edit.assignIndex i e strong).run d = .ok () d' ∧ Upheld J k d'.memory ∧
      d.Renewed i.Contains d' := by
  have hstorable := Draft.storable_ofEntry h.toTidy he.isData he.introduces fun _ => id
  have hrenewed :=
    Draft.renewed_store h.toNeat hi he.isData he.introduces hstorable.available strong
  refine ⟨_, Edit.assignIndex_run d i he.isData strong, ?_, hrenewed⟩
  exact hJ.kept_renewed h hrenewed fun j hj hc => hv (hj.eq_of_contains hc ▸ hj)

/-- A finding goes to its slot. -/
theorem kept_report (h : Upheld J k d.memory) (f : Finding) :
    ∃ d', (Edit.report f).run d = .ok () d' ∧ Upheld J k d'.memory ∧
      d.Renewed Index.diagnostics.Contains d' := by
  have hbelongs : (((d.memory.entry? .diagnostics).getD ∅).insert (.info f)).All
      (Value.Belongs .diagnostics) := by
    apply Entry.All.insert _ (Value.belongs_of_arrayOwner? rfl rfl)
    cases hold : d.memory.entry? .diagnostics with
    | none => exact Entry.all_empty
    | some e => exact h.held _ e hold
  have hin : d.memory.Introduces (((d.memory.entry? .diagnostics).getD ∅).insert (.info f)) := by
    refine Introduces.insert ?_ fun _ ho => nomatch ho
    cases hold : d.memory.entry? .diagnostics with
    | none => exact fun o ho => absurd ho Entry.not_mem_empty
    | some e => exact h.introduces _ e hold
  have hhosts : d.memory.Hosts .diagnostics := fun _ => (nomatch ·)
  have hrenewed := Draft.renewed_write h.toNeat hhosts hbelongs hin
  refine ⟨_, rfl, hJ.kept_renewed h hrenewed ?_, hrenewed⟩
  intro i hi hc
  have hdiagnostics := hi.eq_of_contains hc
  subst hdiagnostics
  obtain ⟨name, table, heq⟩ := hi
  cases heq

/-- An object comes into being with all its fields. -/
theorem kept_createObject (h : Upheld J k d.memory) (className : String) (site : ObjectId)
    {fields : List (String × Entry)} (hf : ∀ x ∈ fields, ∃ s, x.2 = .ofValue (.scalar s)) :
    ∃ o d', (Edit.createObject className site fields).run d = .ok o d' ∧ Upheld J k d'.memory ∧
      d'.memory.Admits (.ofValue (.object o)) := by
  let o : ObjectValue := { id := site, className }
  let declared := d.update (·.declareObject o)
  have hdeclared : d.Renewed (fun _ => False) declared :=
    Draft.renewed_declareObject h.toNeat o
  have hkept : Upheld J k declared.memory ∧ o.id ∈ declared.memory.objects :=
    ⟨hJ.kept_renewed h hdeclared fun _ _ => id, (mem_objects_declareObject d.memory o o.id).2
      (.inl rfl)⟩
  have hfields : Edit.Keeps (fun m => Upheld J k m ∧ o.id ∈ m.objects)
      (fields.forM fun x => Edit.assignIndex (o.index.member (.field x.1)) x.2
        !d.memory.objects.contains site) fun _ => True := by
    apply Edit.Keeps.forM
    rintro ⟨name, e⟩ hx d' ⟨hd', hobject⟩
    obtain ⟨s, hs⟩ := hf _ hx
    have he : d'.memory.Admits e := by
      have hs : e = .ofValue (.scalar s) := hs
      rw [hs]
      exact admits_of_isFresh d'.memory (Entry.all_ofValue trivial)
    obtain ⟨d'', hrun, hkept, hrenewed⟩ :=
      hJ.kept_assignIndex hd' he (i := o.index.member (.field name))
      (.inr ⟨rfl, o.id, rfl, hobject⟩) (fun ⟨_, _, heq⟩ => nomatch heq)
      (!d.memory.objects.contains site)
    exact ⟨(), d'', hrun, ⟨hkept, hrenewed.objects _ hobject⟩, trivial⟩
  obtain ⟨u, d', hrun, ⟨hd', hobject⟩, -⟩ := hfields declared hkept
  refine ⟨o, d', ?_, hd', ?_⟩
  · unfold Edit.createObject
    rw [EStateM.run_bind, EStateM.run_get]
    dsimp only
    rw [EStateM.run_bind, EStateM.run_modify]
    dsimp only
    rw [EStateM.run_bind, hrun]
    rfl
  · exact ⟨Entry.all_ofValue rfl, introduces_ofValue fun o' ho' => by cases ho'; exact hobject⟩

end Steady

theorem Steady.withstands (hJ : Steady limits R U J) (k : Nat) :
    Withstands limits (fun _ => True) Admits (Upheld J k) where
  fresh := fun _ he => admits_of_isFresh _ he
  read := fun h p level => h.toTidy.admits_readAt p level
  report := by
    intro e f _
    apply Leads.mutate
    rintro d - ⟨h, he⟩
    obtain ⟨d', hrun, hkept, hrenewed⟩ := hJ.kept_report h f
    exact ⟨(), d', hrun, hkept, he.renewed hrenewed⟩
  createObject := by
    intro className site fields hf
    apply Leads.mutate
    intro d _ h
    exact hJ.kept_createObject h className site hf

theorem Steady.leads_assign (hJ : Steady limits R U J) (k : Nat) (p : Path) (e : Entry)
    (force : Bool) : Leads limits (fun m => Upheld J k m ∧ m.Admits e) (Snapshot.assign p e force)
      fun _ => Upheld J k := by
  apply Leads.mutate
  rintro d hd ⟨h, he⟩
  exact ⟨(), _, Edit.assign_run d p he.isData force, hJ.kept_assign h hd he p _ force⟩

/-- References are made wherever they are allowed. -/
theorem Steady.kept_bindPaths (hJ : Steady limits R U J) (h : Upheld J k d.memory)
    (hd : d.limit = limits.simplify) {target source : Path} (hr : R target source)
    (targetLevel sourceLevel : Nat) :
    ∃ d', (Edit.bindPaths target targetLevel source sourceLevel).run d = .ok () d' ∧
      Upheld J k d'.memory := by
  obtain ⟨htarget, hsource⟩ := hJ.refers hr
  obtain ⟨d', hrun, hbound⟩ :=
    Draft.exists_bound h.toComplete htarget hsource targetLevel sourceLevel
  refine ⟨d', hrun, hbound.complete, ?_, hJ.bound hr h.toComplete hd h.kept hbound⟩
  have hreferring := Draft.renewed_referring h.toNeat (Index.isVariable_indexAt source sourceLevel)
  exact (hbound.level_eq.trans hreferring.level_eq).trans h.level_eq

theorem Steady.leads_assignAlias (hJ : Steady limits R U J) (k : Nat) {target source : Path}
    (hr : R target source) : Leads limits (Upheld J k) (Snapshot.assignAlias target source)
      fun _ => Upheld J k := by
  apply Leads.mutate
  intro d hd h
  obtain ⟨d', hrun, hkept⟩ := hJ.kept_bindPaths h hd hr d.memory.level d.memory.level
  exact ⟨(), d', (Edit.assignAlias_run d target source).trans hrun, hkept⟩

theorem Steady.leads_bindReference (hJ : Steady limits R U J) (k : Nat) {target source : Path}
    (hr : R target source) : Leads limits (Upheld J (k + 1)) (Snapshot.bindReference target source)
      fun _ => Upheld J (k + 1) := by
  apply Leads.mutate
  intro d hd h
  obtain ⟨d', hrun, hkept⟩ := hJ.kept_bindPaths h hd hr (k + 1) k
  exact ⟨(), d', (Edit.bindReference_run h.level_eq target source).trans hrun, hkept⟩

theorem Steady.upkeep (hJ : Steady limits R U J) (k : Nat) :
    Upkeep limits Admits R U (Upheld J k) where
  toWithstands := hJ.withstands k
  assign := hJ.leads_assign k
  assignReturn := by
    rintro e m ⟨h, he⟩
    have hstore : Leads limits (fun m => Upheld J k m ∧ m.Admits e)
        (Snapshot.assignIndex (.returnSlot m.level) e true) fun _ => Upheld J k := by
      apply Leads.mutate
      rintro d - ⟨h, he⟩
      obtain ⟨d', hrun, hkept, -⟩ := hJ.kept_assignIndex h he (i := .returnSlot m.level)
        (fun _ => (nomatch ·)) (fun ⟨_, _, heq⟩ => nomatch heq) true
      exact ⟨(), d', hrun, hkept⟩
    obtain ⟨a, n, hy, hn⟩ := hstore m ⟨h, he⟩
    exact ⟨a, n, Yields.get_bind (fun s t h => by simp only [h]) hy, hn⟩
  assignAlias := fun _ _ hr => hJ.leads_assignAlias k hr
  unset := by
    intro p hp
    apply Leads.mutate
    intro d _ h
    refine ⟨(), d.unset p, rfl, ?_⟩
    cases hv : p.isVariable with
    | true =>
      rw [unset_variable d hv]
      exact ⟨Draft.complete_remove h.toComplete _, h.level_eq, hJ.unset hp hv h.toComplete h.kept⟩
    | false =>
      apply hJ.kept_renewed h (Draft.renewed_unset h.toComplete hv)
      intro i hi hle
      rw [hi.depth_eq] at hle
      cases hle

end Memory
end ScriptMemory
