import ScriptMemory.Proofs.Memory.Edit

/-! Properties that no use of memory breaks, be it ever so raw: any index may be written, memories
may be joined and frames closed. An edit on such memory may be refused, but never because an alias
would be both certain and uncertain. -/
namespace ScriptMemory
open Std

namespace Entry
variable {e f : Entry}

/-- The entry `f` is `e` with some detail lost: new are kinds and intervals only, and nothing
vanishes but scalars, intervals and what they can stand for. -/
structure Coarsened (e f : Entry) : Prop where
  new : ∀ v ∈ f, v ∈ e ∨ (∃ k, v = .anyOf k) ∨ ∃ i, v = .interval i
  kept : ∀ v ∈ e, v.IsSolid → v.isSimplifiable = false → v ∈ f

theorem coarsened_refl (e : Entry) : e.Coarsened e :=
  ⟨fun _ => .inl, fun _ h _ _ => h⟩

theorem WrittenAs.coarsened (h : e.WrittenAs f) : e.Coarsened f := by
  obtain heq | ⟨limit, hs⟩ := h
  · exact heq ▸ coarsened_refl e
  · refine ⟨fun v hv => ?_, fun v hv hsolid hn => mem_simplify_of_isSolid hs hsolid hn hv⟩
    exact (mem_or_anyOf_of_mem_simplify hs hv).imp_right .inl

theorem coarsened_widen (e previous : Entry) : e.Coarsened (e.widen previous) where
  new := by
    intro v hv
    cases v with
    | anyOf k => exact .inr (.inl ⟨k, rfl⟩)
    | interval i => exact .inr (.inr ⟨i, rfl⟩)
    | _ => exact .inl (mem_of_mem_widen hv rfl (by simp))
  kept := fun _ hv _ hn => mem_widen_of_mem hv hn

theorem Coarsened.all {P : Value → Prop} (h : e.Coarsened f) (hk : ∀ k, P (.anyOf k))
    (hi : ∀ i, P (.interval i)) (he : e.All P) : f.All P := by
  intro v hv
  rcases h.new v hv with hv | ⟨k, rfl⟩ | ⟨i, rfl⟩
  · exact he v hv
  · exact hk k
  · exact hi i

end Entry

namespace Memory

theorem coarsened_widenEntry (before : Memory) (i : Index) (e : Entry) :
    e.Coarsened (before.widenEntry i e) := by
  unfold widenEntry
  split
  · split
    · exact Entry.coarsened_refl e
    · exact Entry.coarsened_widen e _
  · exact Entry.coarsened_refl e

/-- A property of memory that survives everything that is ever done with memory. -/
structure Durable (V : Index → Value → Prop) (I : Memory → Prop) : Prop
    extends Survives (fun _ => True) V I where
  initial : I .initial
  realias : ∀ {m}, I m → ∀ i a, I (m.realias i a)
  withLevel : ∀ {m}, I m → ∀ level, I { m with level }
  mapEntries : ∀ {m} {f : Index → Entry → Entry}, I m →
    (∀ i (e : Entry), e.Coarsened (f i e)) → I (m.mapEntries f)
  join : ∀ {sources}, sources ≠ [] → (∀ m ∈ sources, I m) → ∀ level, I (join sources level)

end Memory

namespace Edit
variable {α β : Type} {V : Index → Value → Prop} {I : Memory → Prop} {Q : α → Prop}

/-- On memory that satisfies `I` the edit either leaves such memory, with a result that satisfies
`Q`, or it is refused for another reason than a conflict of aliases. -/
def Maintains (I : Memory → Prop) (x : Edit α) (Q : α → Prop) : Prop :=
  ∀ d : Draft, I d.memory → match x.run d with
    | .ok a d' => I d'.memory ∧ Q a
    | .error e _ => ∀ i, e ≠ .conflictingAlias i

theorem Keeps.maintains {x : Edit α} (h : Keeps I x Q) : Maintains I x Q := by
  intro d hd
  obtain ⟨a, d', hrun, hd', ha⟩ := h d hd
  rw [hrun]
  exact ⟨hd', ha⟩

theorem Maintains.throw {e : ContractError} (he : ∀ i, e ≠ .conflictingAlias i) :
    Maintains I (throw e : Edit α) Q :=
  fun _ _ => he

theorem Maintains.bind {x : Edit α} {f : α → Edit β} {R : β → Prop} (hx : Maintains I x Q)
    (hf : ∀ a, Q a → Maintains I (f a) R) : Maintains I (x >>= f) R := by
  intro d hd
  have h := hx d hd
  rw [EStateM.run_bind]
  cases hrun : x.run d with
  | ok a d' =>
    rw [hrun] at h
    exact hf a h.2 d' h.1
  | error e d' =>
    rw [hrun] at h
    exact h

theorem Maintains.forM {l : List α} {f : α → Edit Unit}
    (hf : ∀ a ∈ l, Maintains I (f a) fun _ => True) : Maintains I (l.forM f) fun _ => True := by
  induction l with
  | nil => exact (Keeps.pure trivial).maintains
  | cons a l ih =>
    change Maintains I (f a >>= fun _ => l.forM f) _
    exact (hf a List.mem_cons_self).bind fun _ _ => ih fun b hb => hf b (List.mem_cons_of_mem a hb)

variable {e : Entry} {i j : Index} {sources : List Memory}

theorem all_true (p : Path) (level : Nat) : (Locations.ofVariable p level).All fun _ => True :=
  Locations.all_ofVariable (fun _ _ => trivial) p level

/-- An entry is refused, or it is data. -/
theorem maintains_rejectReferences (e : Entry) :
    Maintains I (rejectReferences e) fun _ => e.IsData := by
  by_cases he : e.hasReference = true
  · have hr : rejectReferences e = (throw .referenceAsData : Edit Unit) := if_pos he
    rw [hr]
    exact Maintains.throw (by simp)
  · have hd : e.IsData := Entry.hasReference_eq_false_iff.1 (by simpa using he)
    rw [rejectReferences_eq hd]
    exact (Keeps.pure hd).maintains

variable (hI : Memory.Durable V I)
include hI

theorem maintains_assign (p : Path) (e : Entry) (force : Bool) :
    Maintains I (assign p e force) fun _ => True := by
  refine (maintains_rejectReferences e).bind fun _ he => ?_
  have hk := (keeps_assign hI.toSurvives he (fun _ _ => all_true p _) force).maintains
  rwa [assign, rejectReferences_eq he, pure_bind] at hk

theorem maintains_assignIndex (i : Index) (e : Entry) (strong : Bool) :
    Maintains I (assignIndex i e strong) fun _ => True := by
  refine (maintains_rejectReferences e).bind fun _ he => ?_
  have hk := (keeps_assignIndex hI.toSurvives (i := i) trivial he strong).maintains
  rwa [assignIndex, rejectReferences_eq he, pure_bind] at hk

theorem maintains_bindReference (target source : Path) :
    Maintains I (bindReference target source) fun _ => True := by
  refine Keeps.get.maintains.bind fun d _ => ?_
  split
  · exact Maintains.throw (by simp)
  · exact (keeps_bindPaths hI.toSurvives (all_true target _) (all_true source _)).maintains

theorem maintains_createAlias (i target : Index) :
    Maintains I (createAlias i target) fun _ => True := by
  have hcheck : Maintains I ([i, target].forM fun j => do
      if !(← get).memory.isDefined j then throw (.missingIndex j)) fun _ => True := by
    apply Maintains.forM
    intro j _
    refine Keeps.get.maintains.bind fun d _ => ?_
    split
    · exact Maintains.throw (by simp)
    · exact (Keeps.pure trivial).maintains
  exact hcheck.bind fun _ _ => (keeps_link hI.toSurvives trivial trivial).maintains

theorem maintains_createArray (p : Path) : Maintains I (createArray p) fun _ => True :=
  (Keeps.modify fun _ h => Draft.survives_createArray hI.toSurvives h (all_true p _)).maintains

theorem maintains_createObject (className : String) (site : ObjectId)
    (fields : List (String × Entry)) :
    Maintains I (createObject className site fields) fun _ => True := by
  refine Keeps.get.maintains.bind fun d _ => ?_
  refine (Keeps.modify fun d h => hI.declareObject h).maintains.bind fun _ _ => ?_
  refine Maintains.bind (Q := fun _ => True) ?_ fun _ _ => (Keeps.pure trivial).maintains
  exact Maintains.forM fun x _ => maintains_assignIndex hI _ x.2 _

theorem maintains_report (f : Finding) : Maintains I (report f) fun _ => True :=
  (keeps_report_of_survives hI.toSurvives trivial f).maintains

theorem maintains_extend (h : ∀ m ∈ sources, I m) :
    Maintains I (extend sources) fun _ => True := by
  cases sources with
  | nil => exact Maintains.throw (by simp)
  | cons first rest =>
    rw [extend]
    split
    · exact Maintains.throw (by simp)
    · split
      · exact Keeps.maintains (Keeps.modify fun _ _ => h first List.mem_cons_self)
      · refine Keeps.maintains (Keeps.modify fun d _ => ?_)
        exact hI.mapEntries (hI.join (by simp) h _) fun _ e =>
          (Entry.writtenAs_getD d.limit e).coarsened

theorem maintains_enterCall {caller : Memory} (h : I caller) :
    Maintains I (enterCall caller) fun _ => True :=
  (Keeps.modify fun _ _ => hI.withLevel h _).maintains

theorem maintains_leaveCall (result : Option Path) (h : ∀ m ∈ sources, I m) :
    Maintains I (leaveCall result sources) fun _ => True := by
  refine (maintains_extend hI h).bind fun _ _ => ?_
  refine Keeps.get.maintains.bind fun d hd => ?_
  dsimp only
  split
  · exact Maintains.throw (by simp)
  · next level _ =>
    have hclose : Keeps I (modify fun d : Draft => d.close level) fun _ => True := by
      refine Keeps.modify fun d h => hI.withLevel (hI.discard h fun i hgone => ⟨trivial, ?_⟩) level
      rintro rfl
      cases hgone
    refine hclose.maintains.bind fun _ _ => ?_
    have hreturned :=
      (Memory.isData_readIndex (hI.isData hd) (.returnSlot (level + 1))).returned
    cases result with
    | none => exact (Keeps.pure trivial).maintains
    | some p =>
      exact Keeps.maintains (Keeps.modify fun d' h' => Draft.survives_storeResult hI.toSurvives h'
        (some p) (fun p _ => all_true p level) hreturned
        fun _ => ArraySource.isData_of_mem_ofEntry (hI.isData hd))

theorem maintains_mergeInto (output : Index) {sources : List (Index × Memory)}
    (h : ∀ x ∈ sources, I x.2) : Maintains I (mergeInto output sources) fun _ => True := by
  have hdata : ((sources.map fun x => x.2.entryOrUndefined x.1).foldl Entry.join ∅).IsData := by
    apply Entry.isData_foldl_join
    intro e he
    obtain ⟨x, hx, rfl⟩ := List.mem_map.1 he
    exact Memory.isData_entryOrUndefined (hI.isData (h x hx)) x.1
  have harrays : ∀ a ∈ sources.flatMap fun x => ArraySource.ofEntry x.2 (x.2.entryOrUndefined x.1),
      a.IsData := by
    intro a ha
    obtain ⟨x, hx, ha⟩ := List.mem_flatMap.1 ha
    exact ArraySource.isData_of_mem_ofEntry (hI.isData (h x hx)) ha
  unfold mergeInto
  split
  · exact (Maintains.throw (by simp)).bind (Q := fun _ => False) fun _ hf => hf.elim
  · have hstore : Keeps I (modify fun d : Draft => d.store output _ _ true) fun _ => True :=
      Keeps.modify fun d hd => Draft.survives_store hI.toSurvives hd trivial hdata harrays true
    refine hstore.maintains.bind fun _ _ => ?_
    exact Keeps.maintains (Keeps.modify fun d hd => hI.realias hd output _)

end Edit
end ScriptMemory
