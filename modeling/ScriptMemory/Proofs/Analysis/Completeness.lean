import ScriptMemory.Proofs.Analysis.Inheritance
import ScriptMemory.Proofs.Consistency
import ScriptMemory.Proofs.Memory.Steady

/-! No orphans. Where references are made between variables only, every snapshot defines exactly the
locations that have an entry, and their containers list them. A reference to a location deeper down
may outlive that location. -/
namespace ScriptMemory
open Std Transact

namespace Program
variable {p : Program} {R : Path → Path → Prop}

/-- Every reference that a statement makes is between paths that pass a test. -/
def bindsOnlyIn (q : Path → Bool) (p : Program) : Statement → Bool
  | .assignAlias target source => q target && q source
  | .call name args => (p.function? name).all fun f => (f.params.zip args).all fun (param, arg) =>
    match param.byReference, arg with
    | true, .read source => q source
    | _, _ => true
  | _ => true

/-- Every reference that the program makes is between paths that pass a test. -/
def bindsOnly (q : Path → Bool) (p : Program) : Bool :=
  p.functions.toList.all fun (_, f) =>
    f.graph.nodes.all fun node => p.bindsOnlyIn q node.statement

/-- Every reference that the program makes is between variables. -/
def bindsVariables (p : Program) : Bool :=
  p.bindsOnly Path.isVariable

/-- `R` allows every reference that the program makes. -/
structure Refers (p : Program) (R : Path → Path → Prop) : Prop where
  assignAlias : ∀ {name f i target source}, p.function? name = some f →
    f.graph.statement? i = some (.assignAlias target source) → R target source
  call : ∀ {name f i callee args g}, p.function? name = some f →
    f.graph.statement? i = some (.call callee args) → p.function? callee = some g →
    ∀ x ∈ g.params.zip args, ∀ source, x.1.byReference = true → x.2 = .read source →
      R (.ofVariable x.1.name) source

theorem Refers.mono {R' : Path → Path → Prop} (h : p.Refers R)
    (hR : ∀ target source, R target source → R' target source) : p.Refers R' where
  assignAlias hf hst := hR _ _ (h.assignAlias hf hst)
  call hf hst hg x hx source hby hread := hR _ _ (h.call hf hst hg x hx source hby hread)

/-- A parameter is a variable, so it is the paths referred to that have to pass the test. -/
theorem refers_of_bindsOnly {q : Path → Bool} (h : p.bindsOnly q = true)
    (hq : ∀ name, q (.ofVariable name) = true) :
    p.Refers fun target source => q target = true ∧ q source = true := by
  have hstatement {name : String} {f : Function} (hf : p.function? name = some f) {i : Nat}
      {st : Statement} (hst : f.graph.statement? i = some st) : p.bindsOnlyIn q st = true := by
    obtain ⟨node, hnode, rfl⟩ := Option.map_eq_some_iff.1 hst
    have hmem : (name, f) ∈ p.functions.toList := ExtTreeMap.mem_toList_iff_getElem?_eq_some.2 hf
    exact List.all_eq_true.1 (List.all_eq_true.1 h _ hmem) node (List.mem_of_getElem? hnode)
  refine ⟨fun hf hst => Bool.and_eq_true_iff.1 (hstatement hf hst), ?_⟩
  intro name f i callee args g hf hst hg x hx source hby hread
  have hargs := hstatement hf hst
  unfold bindsOnlyIn at hargs
  dsimp only at hargs
  rw [hg] at hargs
  have hx := List.all_eq_true.1 hargs x hx
  rw [hby, hread] at hx
  exact ⟨hq _, hx⟩

theorem refers_of_bindsVariables (h : p.bindsVariables = true) :
    p.Refers fun target source => target.isVariable = true ∧ source.isVariable = true :=
  refers_of_bindsOnly h fun _ => rfl

end Program

namespace Memory
variable {limits : Limits} {R : Path → Path → Prop} {U : Path → Prop} {J : Memory → Prop}
  {k : Nat} {m : Memory} {d : Draft}

/-- A steady property that memory keeps on the way from point to point. -/
structure Portable (limits : Limits) (R : Path → Path → Prop) (U : Path → Prop)
    (J : Memory → Prop) : Prop extends Steady limits R U J where
  initial : J .initial
  withLevel : ∀ {m : Memory} {level : Nat}, J m → J { m with level }
  takenOver : ∀ {sources : List Memory}, sources ≠ [] → (∀ m ∈ sources, m.Complete ∧ J m) →
    J (Memory.takenOver limits.simplify sources)
  close : ∀ {d : Draft} {level : Nat}, d.memory.Complete → J d.memory → J (d.close level).memory

/-- What a call returns may be stored when its frame is closed; the objects of the callee stay
around. -/
theorem storable_returned (h : d.memory.Tidy) (level : Nat) : Draft.Storable (d.close level).memory
    (d.memory.readIndex (.returnSlot (level + 1))).returned
    (ArraySource.ofEntry d.memory (d.memory.readIndex (.returnSlot (level + 1))).returned) := by
  have hreturned := (h.admits_readIndex (.returnSlot (level + 1))).returned
  exact Draft.storable_ofEntry h hreturned.isData hreturned.introduces
    fun id => (mem_objects_discard d.memory (·.isRootedAtLevel (level + 1)) id).2

/-- What a call returns is read before its frame is closed, and stored after that. -/
theorem Portable.leave (hJ : Portable limits R U J) (h : Upheld J (k + 1) d.memory)
    (hd : d.limit = limits.simplify) (result : Option Path) :
    Upheld J k ((d.close k).storeResult k result
      (d.memory.readIndex (.returnSlot (k + 1))).returned
      (ArraySource.ofEntry d.memory
        (d.memory.readIndex (.returnSlot (k + 1))).returned)).memory := by
  have hclosed := h.close k
  have hkept : Upheld J k (d.close k).memory := ⟨hclosed, rfl, hJ.close h.toComplete h.kept⟩
  have hstorable := storable_returned h.toTidy k
  cases result with
  | none => exact hkept
  | some p =>
    obtain ⟨hresolved, -, -⟩ := Draft.ready_resolve hclosed.toNeat p k
    have hresult := Draft.renewed_storeResult hclosed.toNeat hstorable k (some p)
    exact ⟨hresult.complete hclosed, hresult.level_eq,
      hJ.store hclosed hd hkept.kept (hstorable.mono hresolved.objects)⟩

end Memory

namespace Analysis
variable {a : Analysis} {R : Path → Path → Prop} {U : Path → Prop} {J : Memory → Prop}

/-- The parameters that are bound belong to the function that the program has under the name of the
call. -/
theorem refers_bindings (hR : a.program.Refers R) {s : AnalysisState} (hs : s.Tree a)
    {id : ContextId} {c : Context} (hc : s.contexts[id]? = some c) : ∀ x ∈ bindings s c, ∀ source,
      x.1.byReference = true → x.2 = .read source → R (.ofVariable x.1.name) source := by
  intro x hx source hby hread
  unfold bindings at hx
  cases hcaller : c.caller with
  | none =>
    rw [hcaller] at hx
    cases hx
  | some call =>
    obtain ⟨caller, name, args, hctx, hst, hverdict⟩ := hs.entered id c call hc hcaller
    obtain ⟨hfunction, -⟩ := verdict_ok hverdict
    rw [hcaller, Option.bind_some, hctx, Option.bind_some, hst] at hx
    obtain ⟨callerName, hcallerName⟩ := hs.function hctx
    exact hR.call hcallerName hst hfunction x hx source hby hread

/-- A portable property is handed on from point to point. -/
theorem inherited_of_portable (hJ : Memory.Portable a.config.limits R U J)
    (hR : a.program.Refers R) (hU : ∀ p, U p) : a.Inherited (Memory.Upheld J) where
  initial := ⟨Memory.complete_initial, rfl, hJ.initial⟩
  level_eq := fun h => h.level_eq
  join := fun hne h => ⟨Memory.complete_takenOver hne (fun m hm => (h m hm).toComplete) _,
    Memory.level_takenOver hne (fun m hm => (h m hm).level_eq) _,
    hJ.takenOver hne fun m hm => ⟨(h m hm).toComplete, (h m hm).kept⟩⟩
  enter := fun h => ⟨h.toComplete.withLevel _, rfl, hJ.withLevel h.kept⟩
  bind := by
    intro s id c k hs hc
    apply leads_bindAll (hJ.withstands (k + 1))
    · exact fun x _ e => hJ.leads_assign (k + 1) _ e true
    · intro x hx source hby hread
      exact hJ.leads_bindReference k (refers_bindings hR hs hc x hx source hby hread)
  leave := fun h hd result => hJ.leave h hd result
  apply := by
    intro s p c st target k hs hsite
    apply leads_apply (hJ.upkeep k)
    · rintro path source rfl
      obtain ⟨name, hname⟩ := hs.function hsite.context
      exact hR.assignAlias hname hsite.statement
    · exact fun path _ => hU path

end Analysis

namespace Books

/-- What the structure defines is what has an entry, and all of it is listed by its container. -/
structure Orphanless (b : Books) : Prop where
  defined_iff : ∀ i : Index, (∃ d, b.shapes[i]? = some d) ↔ ∃ e, b.entries[i]? = some e
  /-- A member under a key is listed by the array of its parent, which holds that array. -/
  key : ∀ (i : Index) s, s.isField = false → (∃ d, b.shapes[i.member s]? = some d) →
    ∃ d ms e, b.shapes[i]? = some d ∧ d.members = some ms ∧ s ∈ ms ∧
      b.entries[i]? = some e ∧ .array i ∈ e
  /-- A field lies below an object, which lists it. -/
  field : ∀ (i : Index) s, s.isField = true → (∃ d, b.shapes[i.member s]? = some d) →
    ∃ id d, i = .object id ∧ b.objects[id]? = some d ∧ s ∈ d.fields

end Books

namespace Memory
variable {m : Memory}

theorem exists_shape_iff {i : Index} : (∃ d, m.shapes[i]? = some d) ↔ m.isDefined i = true := by
  rw [getElem?_shapes]
  split
  · next h => exact iff_of_true ⟨_, rfl⟩ h
  · next h => exact iff_of_false (fun ⟨_, hd⟩ => nomatch hd) h

theorem Complete.orphanless (h : m.Complete) : m.books.Orphanless where
  defined_iff := by
    intro i
    change (∃ d, m.shapes[i]? = some d) ↔ ∃ e, m.entries[i]? = some e
    rw [exists_shape_iff, getElem?_entries]
    constructor
    · exact fun hi => Option.isSome_iff_exists.1 (h.hasEntries i hi)
    · rintro ⟨e, he⟩
      exact isDefined_of_entry? he
  key := by
    intro i s hs hi
    obtain ⟨e, he⟩ := Option.isSome_iff_exists.1 (h.hasEntries _ (exists_shape_iff.1 hi))
    obtain ⟨-, hlisted⟩ | ⟨hfield, -⟩ := h.lists _ e he
    · obtain ⟨f, hf, harray⟩ := holdsArray_iff.1 (h.member i s hlisted).1
      have hshape : m.shapes[i]? = some (m.shape i) := by
        rw [getElem?_shapes, if_pos <| isDefined_of_entry? hf]
      have hmembers : (m.shape i).members = some (m.cell i).members :=
        if_pos (h.member i s hlisted).1
      refine ⟨m.shape i, (m.cell i).members, f, hshape, hmembers, hlisted, ?_, harray⟩
      exact (getElem?_entries m i).trans hf
    · rw [hs] at hfield
      cases hfield
  field := by
    intro i s hs hi
    obtain ⟨e, he⟩ := Option.isSome_iff_exists.1 (h.hasEntries _ (exists_shape_iff.1 hi))
    obtain ⟨hkey, -⟩ | ⟨-, id, d, rfl, hd, hlisted⟩ := h.lists _ e he
    · rw [hs] at hkey
      cases hkey
    · exact ⟨id, d, rfl, hd, hlisted⟩

/-- Every statement keeps complete memory complete. -/
theorem portable_true (limits : Limits) : Portable limits
    (fun target source => target.isVariable = true ∧ source.isVariable = true) (fun _ => True)
    fun _ => True where
  renewed _ _ _ _ := trivial
  store _ _ _ _ := trivial
  refers hr := hr
  bound _ _ _ _ _ := trivial
  unset _ _ _ _ := trivial
  initial := trivial
  withLevel _ := trivial
  takenOver _ _ := trivial
  close _ _ := trivial

end Memory

namespace Sample

/-- A body that writes an element of its parameter. -/
def filling : Graph where
  nodes := [⟨0, .enter⟩,
    ⟨1, .assign ((Path.ofVariable "list").member (.key (.integer 1))) (.literal (.integer 5))⟩,
    ⟨2, .exit⟩]
  edges := [(0, 1), (1, 2)]
  entry := 0
  exit := 2

/-- A script that makes a reference, and hands it on to a function. -/
def referring (name : String) : Graph where
  nodes := [⟨0, .assignAlias (.ofVariable "a") (.ofVariable "b")⟩,
    ⟨1, .call name [.read (.ofVariable "a")]⟩, ⟨2, .callReturn none⟩, ⟨3, .exit⟩]
  edges := [(0, 1), (1, 2), (2, 3)]
  entry := 0
  exit := 3

/-- A script that refers to an element of an array, and with that replaces the array. -/
def replacing : Graph where
  nodes := [⟨0, .enter⟩,
    ⟨1, .assignAlias ((Path.ofVariable "a").member (.field "f"))
      ((Path.ofVariable "a").member (.key (.integer 1)))⟩,
    ⟨2, .exit⟩]
  edges := [(0, 1), (1, 2)]
  entry := 0
  exit := 2

/-- An array that is filled through a reference, while another variable refers to it, too. -/
def sharing : Analysis where
  program := (Program.withFunction {} ⟨"fill", [⟨"list", true⟩], filling⟩).withFunction
    ⟨"main", [], referring "fill"⟩

theorem isBuilt_sharing : sharing.program.IsBuilt :=
  (Program.isBuilt_empty.withFunction
    ⟨{ nodes := filling.nodes, edges := [(0, 1), (1, 2)] }, rfl⟩).withFunction
      ⟨{ nodes := (referring "fill").nodes, edges := [(0, 1), (1, 2), (2, 3)] }, rfl⟩

/-- A reference to an element that is gone. -/
def dangling : Analysis where
  program := Program.withFunction {} ⟨"main", [], replacing⟩

theorem isBuilt_dangling : dangling.program.IsBuilt :=
  Program.isBuilt_empty.withFunction ⟨{ nodes := replacing.nodes, edges := [(0, 1), (1, 2)] }, rfl⟩

end Sample

namespace Analysis
variable {a : Analysis} {p : Point} {t : Snapshot}

/-- Where references are made between variables only, no snapshot of a run that succeeds has an
orphan. -/
theorem run_orphanless (hp : a.program.IsBuilt) (hv : a.program.bindsVariables = true)
    {nodes : List Nat} {r : Report} (h : a.run (.ofNodes nodes) = .ok r)
    (ht : r.snapshots[p]? = some t) : t.memory.books.Orphanless := by
  have hI := inherited_of_portable (Memory.portable_true a.config.limits)
    (Program.refers_of_bindsVariables hv) fun _ => trivial
  have hwiden {k : Nat} {m : Memory} (before : Memory)
      (hm : Memory.Upheld (fun _ => True) k m) :
      Memory.Upheld (fun _ => True) k (m.widen before) :=
    ⟨hm.toComplete.widen before, hm.level_eq, trivial⟩
  exact (hI.run hwiden hp (Worklist.consistent_ofNodes nodes) h ht).toComplete.orphanless

set_option maxRecDepth 20000 in
/-- An element that was written below a reference has all the containers that it needs. -/
theorem run_orphanless_sharing : ∃ r t, Sample.sharing.run (.ofNodes []) = .ok r ∧
    r.snapshots[Point.mk 1 2]? = some t ∧ t.memory.books.Orphanless ∧
      ∃ e, t.memory.books.entries[(Index.ofVariable "b" .global).member (.key (.integer 1))]? =
        some e := by
  have hrun : ((Sample.sharing.run (.ofNodes [])).toOption.bind fun r =>
      (r.snapshots[Point.mk 1 2]?).map fun t => (t.memory.entry?
        ((Index.ofVariable "b" .global).member (.key (.integer 1)))).isSome) = some true := by
    decide +kernel
  cases hr : Sample.sharing.run (.ofNodes []) with
  | error e =>
    rw [hr] at hrun
    cases hrun
  | ok r =>
    rw [hr] at hrun
    obtain ⟨t, ht, helement⟩ := Option.map_eq_some_iff.1 hrun
    obtain ⟨e, he⟩ := Option.isSome_iff_exists.1 helement
    have horphanless := run_orphanless (p := ⟨1, 2⟩) Sample.isBuilt_sharing
      (by decide +kernel) hr ht
    exact ⟨r, t, rfl, ht, horphanless, e, (Memory.getElem?_entries t.memory _).trans he⟩

set_option maxRecDepth 20000 in
/-- Making the object takes away the array, and with it the element that was referred to. The
reference stays, and with it a location without an entry. -/
theorem run_orphaned : Sample.dangling.program.IsBuilt ∧
    ∃ r t, Sample.dangling.run (.ofNodes []) = .ok r ∧ r.snapshots[Point.mk .main 2]? = some t ∧
      (∃ d, t.memory.books.shapes[(Index.ofVariable "a" .global).member (.key (.integer 1))]? =
        some d) ∧
      t.memory.books.entries[(Index.ofVariable "a" .global).member (.key (.integer 1))]? = none ∧
      ¬t.memory.books.Orphanless := by
  have hrun : ((Sample.dangling.run (.ofNodes [])).toOption.bind fun r =>
      (r.snapshots[Point.mk .main 2]?).map fun t =>
        let element := (Index.ofVariable "a" .global).member (.key (.integer 1))
        (t.memory.isDefined element, t.memory.entry? element)) = some (true, none) := by
    decide +kernel
  refine ⟨Sample.isBuilt_dangling, ?_⟩
  cases hr : Sample.dangling.run (.ofNodes []) with
  | error e =>
    rw [hr] at hrun
    cases hrun
  | ok r =>
    rw [hr] at hrun
    obtain ⟨t, ht, helement⟩ := Option.map_eq_some_iff.1 hrun
    obtain ⟨hdefined, hnone⟩ := Prod.mk.inj helement
    have hshape := Memory.exists_shape_iff.2 hdefined
    have hentry := (Memory.getElem?_entries t.memory _).trans hnone
    refine ⟨r, t, rfl, ht, hshape, hentry, fun h => ?_⟩
    obtain ⟨e, he⟩ := (h.defined_iff _).1 hshape
    exact nomatch he.symm.trans hentry

end Analysis
end ScriptMemory
