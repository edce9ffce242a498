import ScriptMemory.Proofs.Books.Ledger

/-! The edits of a snapshot, carried out on books. A posting runs through the same steps as the
edit, on a ledger and with the books of its sources; where ledger and draft tallied before, the two
are refused alike or give the same, and the ledger tallies with the draft again. -/
namespace ScriptMemory
open Std

abbrev Posting := EStateM ContractError Ledger

namespace Posting

def rejectReferences (e : Entry) : Posting Unit :=
  if e.hasReference then throw .referenceAsData else pure ()

def assign (p : Path) (e : Entry) (force : Bool) : Posting Unit := do
  rejectReferences e
  modify fun l => l.assign p l.books.level e force

def assignIndex (i : Index) (e : Entry) (strong : Bool) : Posting Unit := do
  rejectReferences e
  modify fun l => l.store i e (BookedArray.ofEntry l.books e) strong

def follow (p : Path) (level : Nat) : Posting Locations :=
  modifyGet fun l => (l.follow p level).swap

def link (i target : Index) : Posting Unit := do
  match (← get).books.link i target with
  | .ok b => modify (·.update fun _ => b)
  | .error e => throw e

def bindPaths (target : Path) (targetLevel : Nat) (source : Path) (sourceLevel : Nat) :
    Posting Unit := do
  let sources ← follow source sourceLevel
  let create (strong : Bool) (l : Ledger) (i : Index) :=
    if l.books.isDefined i then l else l.store i (.ofValue (.scalar .null)) [] strong
  modify fun l => sources.must.toList.foldl (create true) l
  modify fun l => sources.may.toList.foldl (create false) l
  let b := (← get).books
  let e := (sources.toList.map b.readIndex).foldl Entry.join ∅
  let targets ← follow target targetLevel
  targets.toList.forM fun t => sources.toList.forM fun s => link t s
  modify fun l => l.storeAll targets e (BookedArray.ofEntry b e) true

def assignAlias (target source : Path) : Posting Unit := do
  let level := (← get).books.level
  bindPaths target level source level

def bindReference (target source : Path) : Posting Unit := do
  match (← get).books.level with
  | 0 => throw .noCallFrame
  | caller + 1 => bindPaths target (caller + 1) source caller

def createAlias (i target : Index) : Posting Unit := do
  [i, target].forM fun j => do
    if !(← get).books.isDefined j then throw (.missingIndex j)
  link i target

def createArray (p : Path) : Posting Unit :=
  modify fun l =>
    let (l, targets) := l.resolve p l.books.level
    l.storeAll targets (.ofValue (.array .freshArray)) [.blank] true

def createObject (className : String) (site : ObjectId) (fields : List (String × Entry)) :
    Posting ObjectValue := do
  let o : ObjectValue := { id := site, className }
  let revisited := (← get).books.objects.contains site
  modify (·.update (·.declareObject o))
  fields.forM fun (name, e) => assignIndex (o.index.member (.field name)) e !revisited
  pure o

def unset (p : Path) : Posting Unit :=
  modify (·.unset p)

def report (f : Finding) : Posting Unit :=
  modify fun l => l.write .diagnostics (((l.books.entry? .diagnostics).getD ∅).insert (.info f))

def extend : List Books → Posting Unit
  | [] => throw .noSources
  | first :: rest =>
    match rest.find? (·.level ≠ first.level) with
    | some other => throw (.callLevelMismatch first.level other.level)
    | none =>
      if rest.isEmpty then modify (·.update fun _ => first)
      else modify fun l => (l.update fun _ => .join (first :: rest) first.level).simplifyAll

def enterCall (caller : Books) : Posting Unit :=
  modify (·.update fun _ => { caller with level := caller.level + 1 })

def leaveCall (result : Option Path) (outputs : List Books) : Posting Unit := do
  extend outputs
  let b := (← get).books
  match b.level with
  | 0 => throw .noCallFrame
  | level + 1 =>
    let returned := (b.readIndex (.returnSlot (level + 1))).returned
    modify (·.update fun b => { b.closeFrame (level + 1) with level })
    if let some p := result then
      modify fun l =>
        let (l, targets) := l.resolve p level
        l.storeAll targets returned (BookedArray.ofEntry b returned) true

def mergeInto (output : Index) (sources : List (Index × Books)) : Posting Unit := do
  if sources.isEmpty then throw .noSources
  let e := (sources.map fun (i, b) => b.entryOrUndefined i).foldl Entry.join ∅
  let arrays := sources.flatMap fun (i, b) => BookedArray.ofEntry b (b.entryOrUndefined i)
  let aliases := AliasSet.merge (sources.map fun (i, b) => b.aliases i)
  modify fun l => l.store output e arrays true
  modify (·.update (·.realias output aliases))

end Posting

namespace Edit
variable {α α' β β' : Type} {d : Draft} {l : Ledger} {R : α → β → Prop} {S : α' → β' → Prop}

/-- Where ledger and draft tally, the posting is refused for the same reason as the edit, or both
give results that are related by `R`, and ledger and draft tally again. -/
def Tallies (R : α → β → Prop) (x : Edit α) (y : Posting β) : Prop :=
  ∀ d l, d.Tallies l → match x.run d with
    | .ok a d' => ∃ b l', y.run l = .ok b l' ∧ d'.Tallies l' ∧ R a b
    | .error e _ => ∃ l', y.run l = .error e l'

/-- Nothing is asked of the results. -/
abbrev TalliesUnit (x : Edit Unit) (y : Posting Unit) : Prop :=
  Tallies (fun _ _ => True) x y

namespace Tallies

theorem pure {a : α} {b : β} (h : R a b) : Tallies R (pure a) (pure b) :=
  fun _ l hd => ⟨b, l, rfl, hd, h⟩

theorem throw (e : ContractError) : Tallies R (throw e) (throw e) :=
  fun _ l _ => ⟨l, rfl⟩

theorem get : Tallies Draft.Tallies get get :=
  fun _ l hd => ⟨l, l, rfl, hd, hd⟩

theorem modify {f : Draft → Draft} {g : Ledger → Ledger}
    (h : ∀ d l, d.Tallies l → (f d).Tallies (g l)) : TalliesUnit (modify f) (modify g) :=
  fun d l hd => ⟨(), g l, rfl, h d l hd, trivial⟩

theorem bind {x : Edit α} {y : Posting β} {f : α → Edit α'} {g : β → Posting β'}
    (hx : Tallies R x y) (hf : ∀ a b, R a b → Tallies S (f a) (g b)) :
    Tallies S (x >>= f) (y >>= g) := by
  intro d l hd
  have h := hx d l hd
  rw [EStateM.run_bind, EStateM.run_bind]
  cases hrun : x.run d with
  | ok a d' =>
    rw [hrun] at h
    obtain ⟨b, l', hy, hd', hab⟩ := h
    rw [hy]
    exact hf a b hab d' l' hd'
  | error e d' =>
    rw [hrun] at h
    obtain ⟨l', hy⟩ := h
    rw [hy]
    exact ⟨l', rfl⟩

theorem forM {as : List α} {f : α → Edit Unit} {g : α → Posting Unit}
    (h : ∀ a ∈ as, TalliesUnit (f a) (g a)) : TalliesUnit (as.forM f) (as.forM g) := by
  induction as with
  | nil => exact pure trivial
  | cons a as ih =>
    change TalliesUnit (f a >>= fun _ => as.forM f) (g a >>= fun _ => as.forM g)
    exact (h a List.mem_cons_self).bind fun _ _ _ => ih fun b hb => h b (List.mem_cons_of_mem a hb)

/-- An entry is refused on both sides, or it is data. -/
theorem rejectReferences (e : Entry) :
    Tallies (fun _ _ => e.IsData) (rejectReferences e) (Posting.rejectReferences e) := by
  unfold Edit.rejectReferences Posting.rejectReferences
  split
  · exact throw _
  · next he => exact pure (Entry.hasReference_eq_false_iff.1 (Bool.not_eq_true _ ▸ he))

theorem assign (p : Path) (e : Entry) (force : Bool) :
    TalliesUnit (assign p e force) (Posting.assign p e force) := by
  refine (rejectReferences e).bind fun _ _ he => modify fun d l h => ?_
  rw [h.level]
  exact h.assign he p _ force

theorem assignIndex (i : Index) (e : Entry) (strong : Bool) :
    TalliesUnit (assignIndex i e strong) (Posting.assignIndex i e strong) := by
  refine (rejectReferences e).bind fun _ _ he => modify fun d l h => ?_
  rw [h.booked_ofEntry]
  exact h.store he (h.filed_ofEntry e) strong

theorem follow (p : Path) (level : Nat) :
    Tallies (· = ·) (follow p level) (Posting.follow p level) := by
  intro d l h
  obtain ⟨hfollow, heq⟩ := h.follow p level
  exact ⟨_, _, rfl, hfollow, heq.symm⟩

theorem link (i j : Index) : TalliesUnit (link i j) (Posting.link i j) := by
  refine get.bind fun d l h => ?_
  have hlink : l.books.link i j = (d.memory.link i j).map Memory.books := by
    rw [h.told]
    exact Memory.link_books d.memory i j
  rw [hlink]
  cases hm : d.memory.link i j with
  | ok m => exact modify fun _ _ h' => h'.update (h.filed.link hm) rfl
  | error e => exact throw e

/-- What the sources hold is read from the same books on both sides, before the targets come into
being. -/
theorem bindPaths (target : Path) (targetLevel : Nat) (source : Path) (sourceLevel : Nat) :
    TalliesUnit (bindPaths target targetLevel source sourceLevel)
      (Posting.bindPaths target targetLevel source sourceLevel) := by
  have hcreate (strong : Bool) (is : List Index) (d : Draft) (l : Ledger) (h : d.Tallies l) :
      (is.foldl (fun d i => if d.memory.isDefined i then d
        else d.store i (.ofValue (.scalar .null)) [] strong) d).Tallies
      (is.foldl (fun l i => if l.books.isDefined i then l
        else l.store i (.ofValue (.scalar .null)) [] strong) l) := by
    refine List.foldl_rel (r := Draft.Tallies) h fun i _ d l h => ?_
    rw [h.isDefined]
    split
    · exact h
    · exact h.store (Entry.all_ofValue rfl) (by simp) strong
  refine (follow source sourceLevel).bind fun sources _ hsources => ?_
  subst hsources
  refine (modify fun d l h => hcreate true _ d l h).bind fun _ _ _ => ?_
  refine (modify fun d l h => hcreate false _ d l h).bind fun _ _ _ => ?_
  refine get.bind fun d l h => ?_
  refine (follow target targetLevel).bind fun targets _ htargets => ?_
  subst htargets
  refine (forM fun t _ => forM fun s _ => link t s).bind fun _ _ _ => modify fun d' l' h' => ?_
  have hread : sources.toList.map l.books.readIndex = sources.toList.map d.memory.readIndex :=
    List.map_congr_left fun i _ => h.readIndex i
  rw [hread, h.booked_ofEntry]
  have hdata : ((sources.toList.map d.memory.readIndex).foldl Entry.join ∅).IsData := by
    apply Entry.isData_foldl_join
    intro f hf
    obtain ⟨i, -, rfl⟩ := List.mem_map.1 hf
    exact Memory.isData_readIndex h.filed.isData i
  exact h'.storeAll hdata (h.filed_ofEntry _) true

theorem assignAlias (target source : Path) :
    TalliesUnit (assignAlias target source) (Posting.assignAlias target source) := by
  refine get.bind fun d l h => ?_
  dsimp only
  rw [h.level]
  exact bindPaths target _ source _

theorem bindReference (target source : Path) :
    TalliesUnit (bindReference target source) (Posting.bindReference target source) := by
  refine get.bind fun d l h => ?_
  rw [h.level]
  cases d.memory.level with
  | zero => exact throw _
  | succ caller => exact bindPaths target _ source _

theorem createAlias (i j : Index) : TalliesUnit (createAlias i j) (Posting.createAlias i j) := by
  refine Tallies.bind (forM fun k _ => get.bind fun d l h => ?_) fun _ _ _ => link i j
  rw [h.isDefined]
  split
  · exact throw _
  · exact pure trivial

theorem createArray (p : Path) : TalliesUnit (createArray p) (Posting.createArray p) := by
  refine modify fun d l h => ?_
  rw [h.level]
  exact h.createArray p _

theorem createObject (className : String) (site : ObjectId) (fields : List (String × Entry)) :
    Tallies (· = ·) (createObject className site fields)
      (Posting.createObject className site fields) := by
  refine get.bind fun d l h => ?_
  have hobjects : l.books.objects = d.memory.objects := by
    rw [h.told]
    rfl
  rw [hobjects]
  have hdeclare (d : Draft) (l : Ledger) (h : d.Tallies l) :
      (d.update (·.declareObject { id := site, className })).Tallies
        (l.update (·.declareObject { id := site, className })) :=
    h.update (Memory.filed_durable.declareObject h.filed)
      (Memory.books_declareObject d.memory _).symm
  refine (modify hdeclare).bind fun _ _ _ => ?_
  exact (forM fun x _ => assignIndex _ x.2 _).bind fun _ _ _ => pure rfl

theorem unset (p : Path) : TalliesUnit (unset p) (Posting.unset p) :=
  modify fun _ _ h => h.unset p

theorem report (f : Finding) : TalliesUnit (report f) (Posting.report f) := by
  refine modify fun d l h => ?_
  have hentry : l.books.entry? .diagnostics = d.memory.entry? .diagnostics := by
    rw [h.told]
    exact Memory.entry?_books d.memory _
  rw [hentry]
  apply h.write
  cases he : d.memory.entry? .diagnostics with
  | none => exact Entry.all_empty.insert (Value.belongs_of_arrayOwner? rfl rfl)
  | some e => exact (h.filed.held _ e he).insert (Value.belongs_of_arrayOwner? rfl rfl)

variable {sources : List Memory}

/-- Several sources are joined book by book. -/
theorem extend (hs : ∀ m ∈ sources, m.Filed) :
    TalliesUnit (extend sources) (Posting.extend (sources.map Memory.books)) := by
  cases sources with
  | nil => exact throw _
  | cons first rest =>
    have hfind : (rest.map Memory.books).find? (·.level ≠ first.books.level) =
        (rest.find? (·.level ≠ first.level)).map Memory.books := List.find?_map
    rw [List.map_cons, Edit.extend, Posting.extend, hfind]
    cases rest.find? (·.level ≠ first.level) with
    | some other => exact throw _
    | none =>
      rw [Option.map_none, List.isEmpty_map]
      dsimp only
      split
      · exact modify fun d l h => h.update (hs first List.mem_cons_self) rfl
      · have hconsistent : ∀ m ∈ first :: rest, m.Consistent := fun m hm => (hs m hm).toConsistent
        refine modify fun d l h => Draft.Tallies.simplifyAll ?_
        exact h.update (Memory.Filed.join hs _) (Memory.books_join hconsistent _).symm

theorem enterCall {caller : Memory} (hc : caller.Filed) :
    TalliesUnit (enterCall caller) (Posting.enterCall caller.books) :=
  modify fun _ _ h => h.update (Memory.filed_durable.withLevel hc _) rfl

/-- The return slot is read before its frame is closed, location by location on the books. -/
theorem leaveCall (result : Option Path) (hs : ∀ m ∈ sources, m.Filed) :
    TalliesUnit (leaveCall result sources)
      (Posting.leaveCall result (sources.map Memory.books)) := by
  refine (extend hs).bind fun _ _ _ => get.bind fun d l h => ?_
  dsimp only
  rw [h.level]
  cases d.memory.level with
  | zero => exact throw _
  | succ level =>
    have hclose (d : Draft) (l : Ledger) (h : d.Tallies l) : (d.close level).Tallies
        (l.update fun b => { b.closeFrame (level + 1) with level }) := by
      refine h.update (Memory.filed_durable.withLevel (h.filed.discard _) level) ?_
      rw [h.filed.closeFrame_books]
      rfl
    refine (modify hclose).bind fun _ _ _ => ?_
    cases result with
    | none => exact pure trivial
    | some p =>
      refine modify fun d' l' h' => ?_
      obtain ⟨hresolved, htargets⟩ := h'.resolve p level
      rw [htargets, h.readIndex, h.booked_ofEntry]
      have hdata := (Memory.isData_readIndex h.filed.isData (.returnSlot (level + 1))).returned
      exact hresolved.storeAll hdata (h.filed_ofEntry _) true

theorem mergeInto (output : Index) {sources : List (Index × Memory)}
    (hs : ∀ x ∈ sources, x.2.Filed) : TalliesUnit (mergeInto output sources)
      (Posting.mergeInto output (sources.map fun x => (x.1, x.2.books))) := by
  have hdata : ((sources.map fun x => x.2.entryOrUndefined x.1).foldl Entry.join ∅).IsData := by
    apply Entry.isData_foldl_join
    intro e he
    obtain ⟨x, hx, rfl⟩ := List.mem_map.1 he
    exact Memory.isData_entryOrUndefined (hs x hx).isData x.1
  have harrays : ∀ a ∈ sources.flatMap fun x => ArraySource.ofEntry x.2 (x.2.entryOrUndefined x.1),
      a.memory.Filed := by
    intro a ha
    obtain ⟨x, hx, ha⟩ := List.mem_flatMap.1 ha
    obtain ⟨i, -, rfl⟩ := List.mem_map.1 ha
    exact hs x hx
  unfold Edit.mergeInto Posting.mergeInto
  simp only [List.isEmpty_map, List.map_map, List.flatMap_map, Function.comp_def,
    Memory.entryOrUndefined_books, Memory.aliases_books, ← ArraySource.booked_ofEntry,
    ← List.map_flatMap]
  split
  · exact (throw _).bind (R := fun _ _ => False) fun _ _ hf => hf.elim
  · refine (modify fun d l h => h.store hdata harrays true).bind fun _ _ _ => ?_
    refine modify fun d l h => h.update (Memory.filed_durable.realias h.filed output _) ?_
    exact Memory.realias_books d.memory output _

end Tallies
end Edit
end ScriptMemory
