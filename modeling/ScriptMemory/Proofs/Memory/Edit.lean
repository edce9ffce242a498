import ScriptMemory.Proofs.Memory.Draft

/-! Edits on well-formed memory. None of them fails when it is used as the analysis uses it, and
every stable property survives. Taking over other memories is different: the result does not depend
on the memory it replaces. -/
namespace ScriptMemory
open Std

/-- The unknown member of its container, which an absent location falls back on. An unknown member
has nothing to fall back on. -/
def Index.standIn? : Index → Option Index
  | .root _ => none
  | .member parent s => if s.isUnknown then none else some (parent.member s.unknownLike)

theorem Index.exists_of_standIn? {i k : Index} (h : i.standIn? = some k) :
    ∃ parent s, k = .member parent s ∧ s.isUnknown = true := by
  cases i with
  | root _ => cases h
  | member parent s =>
    refine ⟨parent, s.unknownLike, (Option.some.inj (Option.ite_none_left_eq_some.1 h).2).symm, ?_⟩
    unfold Segment.unknownLike
    split <;> rfl

namespace Memory
variable {m : Memory} {i : Index}

/-- What an absent location falls back on. -/
def fallback (m : Memory) (i : Index) : Entry :=
  match i.standIn? with
  | some k => m.entryOrUndefined k
  | none => .undefined

theorem readAbsent_eq (m : Memory) (i : Index) : m.readAbsent i =
    if m.isBelowOpaque i then (m.fallback i).insert .any else m.fallback i := by
  cases i with
  | root _ => rfl
  | member parent s =>
    unfold readAbsent fallback Index.standIn?
    dsimp only
    cases s.isUnknown <;> rfl

section
variable {P : Value → Prop} (hundefined : P .undefined) (hany : P .any) (hkind : ∀ k, P (.anyOf k))

section
variable (h : ∀ i e, m.entry? i = some e → e.All P)

include hundefined hany h

theorem all_readAbsent (i : Index) : (m.readAbsent i).All P := by
  have hfallback : (m.fallback i).All P := by
    unfold fallback
    split
    · exact all_entryOrUndefined hundefined (h _)
    · exact Entry.all_ofValue hundefined
  rw [readAbsent_eq]
  split
  · exact hfallback.insert hany
  · exact hfallback

theorem all_readIndex (i : Index) : (m.readIndex i).All P := by
  unfold readIndex
  cases he : m.entry? i with
  | none => exact all_readAbsent hundefined hany h i
  | some e => exact h i e he

end

include hundefined hany hkind

theorem all_summarize (entries : List Entry) : (summarize entries).All P := by
  have hsummary : ∀ e : Entry, e.All P → ∀ b : Bool,
      (if b then e.insert .undefined else e).All P := by
    intro e he b
    split
    · exact he.insert hundefined
    · exact he
  unfold summarize
  dsimp only
  apply hsummary
  split
  · exact Entry.all_ofValue hany
  · exact Entry.all_empty
  · split
    · exact Entry.all_ofValue (hkind _)
    · exact Entry.all_ofValue hany

/-- Reading makes up nothing but undefined values and summaries. -/
theorem all_readAt (h : ∀ i e, m.entry? i = some e → e.All P) (p : Path) (level : Nat) :
    (m.readAt p level).All P := by
  unfold readAt readLocations
  split
  · exact Entry.all_ofValue hundefined
  · split
    · exact all_summarize hundefined hany hkind _
    · refine Entry.all_foldl_join (P := P) Entry.all_empty ?_
      intro e he
      obtain ⟨i, -, rfl⟩ := List.mem_map.1 he
      exact all_readIndex hundefined hany h i

end

section
variable (h : ∀ i e, m.entry? i = some e → e.IsData)
include h

theorem isData_entryOrUndefined (i : Index) : (m.entryOrUndefined i).IsData :=
  all_entryOrUndefined rfl (h i)

theorem isData_readIndex (i : Index) : (m.readIndex i).IsData :=
  all_readIndex (P := fun v => v.isReference = false) rfl rfl h i

theorem isData_readAt (p : Path) (level : Nat) : (m.readAt p level).IsData :=
  all_readAt (P := fun v => v.isReference = false) rfl rfl (fun _ => rfl) h p level

end

/-- The entries over the limit simplified. -/
def simplified (m : Memory) (limit : Option Nat) : Memory :=
  m.mapEntries fun _ e => (limit.bind e.simplify?).getD e

/-- What is taken over from some sources. -/
def takenOver (limit : Option Nat) : List Memory → Memory
  | [m] => m
  | ms => (join ms ((ms.head?.map (·.level)).getD 0)).simplified limit

theorem level_takenOver {sources : List Memory} {level : Nat} (hne : sources ≠ [])
    (h : ∀ m ∈ sources, m.level = level) (limit : Option Nat) :
    (takenOver limit sources).level = level := by
  unfold takenOver
  split
  · exact h _ List.mem_cons_self
  · cases sources with
    | nil => exact absurd rfl hne
    | cons m rest => exact h m List.mem_cons_self

theorem wellFormed_simplified (h : m.WellFormed) (limit : Option Nat) :
    (m.simplified limit).WellFormed where
  data := by
    intro i e he
    rw [simplified, entry?_mapEntries] at he
    obtain ⟨f, hf, rfl⟩ := Option.map_eq_some_iff.1 he
    exact (h.data i f hf).writtenAs (Entry.writtenAs_getD limit f)
  symmetric := aliasesSymmetric_of_aliases_eq h.symmetric fun i => aliases_mapEntries ..
  ordinary := by
    intro i j s hs
    rw [simplified, aliases_mapEntries] at hs
    exact h.ordinary i j s hs

theorem wellFormed_join {sources : List Memory} (h : ∀ m ∈ sources, m.WellFormed) (level : Nat) :
    (join sources level).WellFormed where
  data := by
    intro i e he
    rw [entry?_join] at he
    split at he
    · cases he
      apply Entry.isData_foldl_join
      intro f hf
      obtain ⟨m, hm, rfl⟩ := List.mem_map.1 hf
      exact isData_entryOrUndefined (h m hm).data i
    · cases he
  symmetric := aliasesSymmetric_join (fun m hm => (h m hm).symmetric) level
  ordinary := by
    intro i j s hs
    rw [strength?_join] at hs
    split at hs
    · next hany =>
      obtain ⟨m, hm, hc⟩ := List.any_eq_true.1 hany
      obtain ⟨t, ht⟩ := AliasSet.contains_iff.1 hc
      exact (h m hm).ordinary i j t ht
    · cases hs

theorem reports_simplified {f : Finding} (h : m.Reports f) (limit : Option Nat) :
    (m.simplified limit).Reports f := by
  obtain ⟨e, he, hf⟩ := h
  exact ⟨(limit.bind e.simplify?).getD e, by rw [simplified, entry?_mapEntries, he]; rfl,
    (Entry.writtenAs_getD limit e).info_mem hf⟩

theorem reports_join {sources : List Memory} {f : Finding} (hm : m ∈ sources) (h : m.Reports f)
    (level : Nat) : (join sources level).Reports f := by
  obtain ⟨e, he, hf⟩ := h
  refine ⟨_, by rw [entry?_join, if_pos ⟨m, hm, isDefined_of_entry? he⟩], ?_⟩
  rw [Entry.mem_foldl_join_iff_of_isSolid (Value.info_isSolid f)]
  exact .inr ⟨e, List.mem_map.2 ⟨m, hm, by rw [entryOrUndefined, he]; rfl⟩, hf⟩

/-- Several memories of one level taken over make up a frame of that level, with the findings of
all of them. -/
theorem frame_takenOver {level : Nat} {sources : List Memory} (hne : sources ≠ [])
    (h : ∀ m ∈ sources, m.WellFormed ∧ m.level = level) (limit : Option Nat) :
    Frame level (fun f => ∃ m ∈ sources, m.Reports f) (takenOver limit sources) := by
  unfold takenOver
  split
  · next m =>
    obtain ⟨hwf, hlevel⟩ := h m List.mem_cons_self
    refine ⟨hwf, hlevel, ?_⟩
    rintro f ⟨n, hn, hf⟩
    rwa [← List.mem_singleton.1 hn]
  · refine ⟨wellFormed_simplified (wellFormed_join (fun m hm => (h m hm).1) _) limit, ?_, ?_⟩
    · cases sources with
      | nil => exact absurd rfl hne
      | cons m rest => exact (h m List.mem_cons_self).2
    · rintro f ⟨m, hm, hf⟩
      exact reports_simplified (reports_join hm hf _) limit

theorem frame_withLevel {level : Nat} {found : Finding → Prop} (h : Frame level found m)
    (level' : Nat) : Frame level' found { m with level := level' } :=
  ⟨wellFormed_of_lookup h.toWellFormed (fun _ => rfl) fun _ => rfl, rfl,
    fun f hf => reports_of_entry? (h.reports f hf) rfl⟩

end Memory

/-- Where two computations succeed one after the other, both do. -/
theorem exists_of_run_bind {ε σ α β : Type} {x : EStateM ε σ α} {f : α → EStateM ε σ β} {s t : σ}
    {b : β} (h : (x >>= f).run s = .ok b t) : ∃ a u, x.run s = .ok a u ∧ (f a).run u = .ok b t := by
  rw [EStateM.run_bind] at h
  cases hx : x.run s with
  | ok a u =>
    rw [hx] at h
    exact ⟨a, u, rfl, h⟩
  | error e u =>
    rw [hx] at h
    cases h

/-- A location that is referred to comes into being. -/
def Draft.ensure (strong : Bool) (d : Draft) (i : Index) : Draft :=
  if d.memory.isDefined i then d else d.store i (.ofValue (.scalar .null)) [] strong

namespace Edit
variable {α β : Type} {D : Draft → Prop} {I : Memory → Prop}

/-- The edit succeeds on every draft of `D`, with a result that satisfies `Q`, and leaves a draft of
`D` again. -/
def Sustains (D : Draft → Prop) (x : Edit α) (Q : α → Prop) : Prop :=
  ∀ d, D d → ∃ a d', x.run d = .ok a d' ∧ D d' ∧ Q a

namespace Sustains

theorem pure {Q : α → Prop} {a : α} (ha : Q a) : Sustains D (pure a) Q :=
  fun d h => ⟨a, d, rfl, h, ha⟩

theorem bind {x : Edit α} {f : α → Edit β} {Q : α → Prop} {R : β → Prop}
    (hx : Sustains D x Q) (hf : ∀ a, Q a → Sustains D (f a) R) : Sustains D (x >>= f) R := by
  intro d h
  obtain ⟨a, d', hrun, h', ha⟩ := hx d h
  obtain ⟨b, d'', hrun', h'', hb⟩ := hf a ha d' h'
  refine ⟨b, d'', ?_, h'', hb⟩
  rw [EStateM.run_bind, hrun]
  exact hrun'

theorem modify {f : Draft → Draft} (hf : ∀ d, D d → D (f d)) :
    Sustains D (modify f) fun _ => True :=
  fun d h => ⟨(), f d, rfl, hf d h, trivial⟩

theorem modifyGet {f : Draft → α × Draft} {Q : α → Prop}
    (hf : ∀ d, D d → D (f d).2 ∧ Q (f d).1) : Sustains D (modifyGet f) Q :=
  fun d h => ⟨(f d).1, (f d).2, rfl, (hf d h).1, (hf d h).2⟩

theorem get : Sustains D (get : Edit Draft) D :=
  fun d h => ⟨d, d, rfl, h, h⟩

theorem forM {l : List α} {f : α → Edit Unit}
    (hf : ∀ a ∈ l, Sustains D (f a) fun _ => True) : Sustains D (l.forM f) fun _ => True := by
  induction l with
  | nil => exact pure trivial
  | cons a l ih =>
    change Sustains D (f a >>= fun _ => l.forM f) _
    exact (hf a List.mem_cons_self).bind fun _ _ => ih fun b hb => hf b (List.mem_cons_of_mem a hb)

end Sustains

/-- The edit succeeds wherever `I` holds, with a result that satisfies `Q`, and `I` holds again. -/
def Keeps (I : Memory → Prop) (x : Edit α) (Q : α → Prop) : Prop :=
  ∀ d : Draft, I d.memory → ∃ a d', x.run d = .ok a d' ∧ I d'.memory ∧ Q a

/-- An invariant of memory is one of drafts that looks at nothing else. -/
theorem keeps_iff {x : Edit α} {Q : α → Prop} : Keeps I x Q ↔ Sustains (fun d => I d.memory) x Q :=
  Iff.rfl

theorem Keeps.pure {Q : α → Prop} {a : α} (ha : Q a) : Keeps I (pure a) Q :=
  keeps_iff.2 (Sustains.pure ha)

theorem Keeps.bind {x : Edit α} {f : α → Edit β} {Q : α → Prop} {R : β → Prop}
    (hx : Keeps I x Q) (hf : ∀ a, Q a → Keeps I (f a) R) : Keeps I (x >>= f) R :=
  keeps_iff.2 (Sustains.bind hx hf)

theorem Keeps.modify {f : Draft → Draft} (hf : ∀ d, I d.memory → I (f d).memory) :
    Keeps I (modify f) fun _ => True :=
  keeps_iff.2 (Sustains.modify hf)

theorem Keeps.modifyGet {f : Draft → α × Draft} {Q : α → Prop}
    (hf : ∀ d, I d.memory → I (f d).2.memory ∧ Q (f d).1) : Keeps I (modifyGet f) Q :=
  keeps_iff.2 (Sustains.modifyGet hf)

theorem Keeps.get : Keeps I (get : Edit Draft) fun d => I d.memory :=
  keeps_iff.2 Sustains.get

theorem Keeps.forM {l : List α} {f : α → Edit Unit}
    (hf : ∀ a ∈ l, Keeps I (f a) fun _ => True) : Keeps I (l.forM f) fun _ => True :=
  keeps_iff.2 (Sustains.forM hf)

/-- An edit has one outcome. -/
theorem Keeps.of_run {x : Edit α} {Q : α → Prop} {a : α} {d d' : Draft} (h : Keeps I x Q)
    (hd : I d.memory) (hrun : x.run d = .ok a d') : I d'.memory := by
  obtain ⟨b, d'', hrun', hd'', -⟩ := h d hd
  cases hrun.symm.trans hrun'
  exact hd''

variable {e : Entry} {p target source : Path} {i j : Index} {P : Index → Prop}
  {V : Index → Value → Prop}

theorem rejectReferences_eq (he : e.IsData) : rejectReferences e = pure () := by
  unfold rejectReferences
  rw [if_neg (by simp [Entry.hasReference_eq_false_iff.2 he])]

theorem assign_run (d : Draft) (p : Path) (he : e.IsData) (force : Bool) :
    (assign p e force).run d = .ok () (d.assign p d.memory.level e force) := by
  unfold assign
  rw [rejectReferences_eq he, pure_bind]
  rfl

theorem assignIndex_run (d : Draft) (i : Index) (he : e.IsData) (strong : Bool) :
    (assignIndex i e strong).run d =
      .ok () (d.store i e (ArraySource.ofEntry d.memory e) strong) := by
  unfold assignIndex
  rw [rejectReferences_eq he, pure_bind]
  rfl

/-- Whatever goes on after its check, an edit that is carried out was given data. -/
theorem isData_of_run {x : Edit Unit} {d d' : Draft}
    (hrun : (rejectReferences e >>= fun _ => x).run d = .ok () d') : e.IsData := by
  cases he : e.hasReference with
  | false => exact Entry.hasReference_eq_false_iff.1 he
  | true =>
    have hreject : rejectReferences e = throw .referenceAsData := if_pos he
    rw [hreject] at hrun
    cases hrun

theorem forM_assignIndex_run {i : String → Index} {strong : Bool} {fields : List (String × Entry)}
    {d d' : Draft}
    (hrun : (fields.forM fun x => assignIndex (i x.1) x.2 strong).run d = .ok () d') :
    (∀ x ∈ fields, x.2.IsData) ∧ d' = fields.foldl (fun d x =>
      d.store (i x.1) x.2 (ArraySource.ofEntry d.memory x.2) strong) d := by
  induction fields generalizing d with
  | nil =>
    cases hrun
    exact ⟨List.forall_mem_nil _, rfl⟩
  | cons x fields ih =>
    change (assignIndex (i x.1) x.2 strong >>= fun _ =>
      fields.forM fun x => assignIndex (i x.1) x.2 strong).run d = _ at hrun
    have hdata : x.2.IsData := by
      unfold assignIndex at hrun
      rw [bind_assoc] at hrun
      exact isData_of_run hrun
    rw [EStateM.run_bind, assignIndex_run d (i x.1) hdata strong] at hrun
    obtain ⟨hall, heq⟩ := ih hrun
    exact ⟨List.forall_mem_cons.2 ⟨hdata, hall⟩, heq⟩

theorem keeps_assign (hI : Memory.Survives P V I) (he : e.IsData)
    (hp : ∀ m, I m → (Locations.ofVariable p m.level).All P) (force : Bool) :
    Keeps I (assign p e force) fun _ => True := by
  unfold assign
  rw [rejectReferences_eq he, pure_bind]
  exact Keeps.modify fun d h => Draft.survives_assign hI h he (hp _ h) force

theorem keeps_assignIndex (hI : Memory.Survives P V I) (hi : P i) (he : e.IsData)
    (strong : Bool) : Keeps I (assignIndex i e strong) fun _ => True := by
  unfold assignIndex
  rw [rejectReferences_eq he, pure_bind]
  exact Keeps.modify fun d h => Draft.survives_store hI h hi he
    (fun a => ArraySource.isData_of_mem_ofEntry (hI.isData h)) strong

theorem keeps_follow (hI : Memory.Survives P V I) {level : Nat}
    (hp : (Locations.ofVariable p level).All P) : Keeps I (follow p level) (Locations.All P) :=
  Keeps.modifyGet fun _ h => Draft.survives_follow hI h hp

theorem keeps_link (hI : Memory.Survives P V I) (hi : P i) (hj : P j) :
    Keeps I (link i j) fun _ => True := by
  intro d h
  have hex : ∃ n, d.memory.link i j = .ok n := by
    by_cases hne : i = j
    · exact ⟨_, if_pos hne⟩
    · obtain ⟨n, hn, -⟩ := Memory.exists_linkedTo (hI.symmetric h) hne
      exact ⟨n, hn⟩
  obtain ⟨n, hn⟩ := hex
  refine ⟨(), d.update fun _ => n, ?_, hI.link h hi hj hn, trivial⟩
  unfold link
  rw [EStateM.run_bind, EStateM.run_get]
  dsimp only
  rw [hn]
  rfl

theorem keeps_bindPaths (hI : Memory.Survives P V I) {targetLevel sourceLevel : Nat}
    (htarget : (Locations.ofVariable target targetLevel).All P)
    (hsource : (Locations.ofVariable source sourceLevel).All P) :
    Keeps I (bindPaths target targetLevel source sourceLevel) fun _ => True := by
  -- sources that do not exist yet come into being, certain ones for certain
  have hcreate (strong : Bool) (d : Draft) (i : Index) (h : I d.memory) (hi : P i) :
      I (if d.memory.isDefined i then d
        else d.store i (.ofValue (.scalar .null)) [] strong).memory := by
    split
    · exact h
    · exact Draft.survives_store hI h hi (Entry.all_ofValue rfl) (by simp) strong
  unfold bindPaths
  apply (keeps_follow hI hsource).bind
  intro sources hs
  apply (Keeps.modify fun d h => Draft.survives_foldl (hcreate true) h
    hs.mem_must).bind
  intro _ _
  apply (Keeps.modify fun d h => Draft.survives_foldl (hcreate false) h
    hs.mem_may).bind
  intro _ _
  apply Keeps.get.bind
  intro d hd
  apply (keeps_follow hI htarget).bind
  intro targets ht
  -- then every target is linked to every source, and what was read is written to the targets
  have hlinks : Keeps I (targets.toList.forM fun t => sources.toList.forM fun s => link t s)
      fun _ => True := by
    apply Keeps.forM
    intro t hmt
    apply Keeps.forM
    intro s hms
    exact keeps_link hI (ht t (Locations.mem_toList.1 hmt)) (hs s (Locations.mem_toList.1 hms))
  apply hlinks.bind
  intro _ _
  apply Keeps.modify
  intro d' h'
  apply Draft.survives_storeAll hI h' ht
  · apply Entry.isData_foldl_join
    intro f hf
    obtain ⟨i, -, rfl⟩ := List.mem_map.1 hf
    exact Memory.isData_readIndex (hI.isData hd) i
  · exact fun a => ArraySource.isData_of_mem_ofEntry (hI.isData hd)

/-- The steps of a binding: the sources come into being, the targets are linked to them, and what
the sources hold by then is written to the targets. -/
theorem bindPaths_eq {d followed created ready linked : Draft} {sources targets : Locations}
    {targetLevel sourceLevel : Nat}
    (hsources : d.follow source sourceLevel = (followed, sources))
    (hcreated : sources.may.toList.foldl (Draft.ensure false)
      (sources.must.toList.foldl (Draft.ensure true) followed) = created)
    (htargets : created.follow target targetLevel = (ready, targets))
    (hlinks : (targets.toList.forM fun t => sources.toList.forM fun s => link t s).run ready =
      .ok () linked) :
    let e := (sources.toList.map created.memory.readIndex).foldl Entry.join ∅
    (bindPaths target targetLevel source sourceLevel).run d =
      .ok () (linked.storeAll targets e (ArraySource.ofEntry created.memory e) true) := by
  have hfollow {d d' : Draft} {p : Path} {level : Nat} {l : Locations}
      (h : d.follow p level = (d', l)) : (follow p level).run d = .ok l d' := by
    change EStateM.Result.ok (d.follow p level).2 (d.follow p level).1 = _
    rw [h]
  subst hcreated
  unfold bindPaths
  rw [EStateM.run_bind, hfollow hsources]
  dsimp only
  rw [EStateM.run_bind, EStateM.run_modify]
  dsimp only
  rw [EStateM.run_bind, EStateM.run_modify]
  dsimp only
  rw [EStateM.run_bind, EStateM.run_get]
  dsimp only
  delta Draft.ensure at htargets ⊢
  rw [EStateM.run_bind, hfollow htargets]
  dsimp only
  rw [EStateM.run_bind, hlinks]
  rfl

theorem assignAlias_run (d : Draft) (target source : Path) :
    (assignAlias target source).run d =
      (bindPaths target d.memory.level source d.memory.level).run d := by
  unfold assignAlias
  rw [EStateM.run_bind, EStateM.run_get]

theorem bindReference_run {d : Draft} {level : Nat} (h : d.memory.level = level + 1)
    (target source : Path) :
    (bindReference target source).run d = (bindPaths target (level + 1) source level).run d := by
  unfold bindReference
  rw [EStateM.run_bind, EStateM.run_get]
  dsimp only
  rw [h]

theorem keeps_assignAlias (hI : Memory.Survives P V I)
    (htarget : ∀ m, I m → (Locations.ofVariable target m.level).All P)
    (hsource : ∀ m, I m → (Locations.ofVariable source m.level).All P) :
    Keeps I (assignAlias target source) fun _ => True :=
  Keeps.get.bind fun _ h => keeps_bindPaths hI (htarget _ h) (hsource _ h)

/-- A parameter can be bound wherever there is a caller. -/
theorem keeps_bindReference (hI : Memory.Survives P V I) (hlevel : ∀ m, I m → m.level ≠ 0)
    (htarget : ∀ m, I m → (Locations.ofVariable target m.level).All P)
    (hsource : ∀ m, I m → (Locations.ofVariable source (m.level - 1)).All P) :
    Keeps I (bindReference target source) fun _ => True := by
  apply Keeps.get.bind
  intro d hd
  have hne := hlevel _ hd
  have htarget := htarget _ hd
  have hsource := hsource _ hd
  split
  · next h0 => exact absurd h0 hne
  · next caller hcaller =>
    rw [hcaller] at htarget hsource
    exact keeps_bindPaths hI htarget hsource

theorem keeps_createObject (hI : Memory.Survives P V I) (className : String) (site : ObjectId)
    {fields : List (String × Entry)} (hf : ∀ x ∈ fields, x.2.IsData) :
    Keeps I (createObject className site fields) fun _ => True := by
  unfold createObject
  apply Keeps.get.bind
  intro d _
  apply (Keeps.modify fun d h => hI.declareObject h).bind
  intro _ _
  refine Keeps.bind (Q := fun _ => True) ?_ fun _ _ => Keeps.pure trivial
  apply Keeps.forM
  intro x hx
  exact keeps_assignIndex hI (hI.member _ _ (hI.object _)) (hf x hx) _

theorem keeps_unset (hI : Memory.Survives P V I)
    (hp : ∀ m, I m → (Locations.ofVariable p m.level).All P) : Keeps I (unset p) fun _ => True :=
  Keeps.modify fun _ h => Draft.survives_unset hI h (hp _ h)

/-- The findings of a diagnostics entry after another one was added. -/
theorem info_mem_insert_info {m : Memory} {f g : Finding} (h : m.Reports g) :
    .info g ∈ ((m.entry? .diagnostics).getD ∅).insert (.info f) := by
  obtain ⟨e, he, hg⟩ := h
  rw [he]
  exact (Entry.mem_insert_iff_of_isSolid (Value.info_isSolid g)).2 (.inr hg)

/-- A finding is written to its slot, if that may be reached. -/
theorem keeps_report_of_survives (hI : Memory.Survives P V I) (hP : P .diagnostics) (f : Finding) :
    Keeps I (report f) fun _ => True := by
  refine Keeps.modify fun d h => Draft.survives_write hI h hP ?_
  cases he : d.memory.entry? .diagnostics with
  | none => exact Entry.all_empty.insert (hI.storable rfl rfl)
  | some e => exact (hI.held h he).insert (hI.storable rfl rfl)

theorem keeps_report (hI : Memory.Stable I) (f : Finding) : Keeps I (report f) fun _ => True := by
  apply Keeps.modify
  intro d h
  have hdata : (((d.memory.entry? .diagnostics).getD ∅).insert (.info f)).IsData := by
    cases he : d.memory.entry? .diagnostics with
    | none => exact Entry.all_empty.insert rfl
    | some e => exact ((hI.wellFormed h).data _ e he).insert rfl
  obtain ⟨e, he, hwritten⟩ := Draft.write_eq d .diagnostics
    (((d.memory.entry? .diagnostics).getD ∅).insert (.info f))
  rw [he]
  exact hI.report h (hdata.writtenAs hwritten) fun g hg =>
    hwritten.info_mem (info_mem_insert_info hg)

variable {sources : List Memory} {level : Nat}

theorem extend_run (hne : sources ≠ []) (h : ∀ m ∈ sources, m.level = level)
    (limit : Option Nat) : ∃ d : Draft, d.memory = Memory.takenOver limit sources ∧
      d.limit = limit ∧ ∀ m, (extend sources).run { memory := m, limit } = .ok () d := by
  cases sources with
  | nil => exact absurd rfl hne
  | cons first rest =>
    have hfind : rest.find? (fun m => decide (m.level ≠ first.level)) = none := by
      rw [List.find?_eq_none]
      intro m hm
      simp [h first List.mem_cons_self, h m (List.mem_cons_of_mem _ hm)]
    cases rest with
    | nil => exact ⟨⟨first, limit, 0⟩, rfl, rfl, fun m => rfl⟩
    | cons second rest =>
      refine ⟨Draft.simplifyAll ⟨.join (first :: second :: rest) first.level, limit, 0⟩,
        rfl, rfl, ?_⟩
      intro m
      simp only [extend, hfind]
      rfl

/-- Sources of different levels are refused. -/
theorem extend_run_mismatch {first : Memory} {rest : List Memory}
    (h : ∃ m ∈ rest, m.level ≠ first.level) (d : Draft) :
    ∃ found, (extend (first :: rest)).run d =
      .error (.callLevelMismatch first.level found) d := by
  obtain ⟨m, hm, hlevel⟩ := h
  -- the first memory of another level is the one that is reported
  cases hfind : rest.find? (fun m => decide (m.level ≠ first.level)) with
  | none =>
    rw [List.find?_eq_none] at hfind
    exact absurd hlevel (by simpa using hfind m hm)
  | some other =>
    refine ⟨other.level, ?_⟩
    simp only [extend, hfind]
    rfl

end Edit

/-- What a call evaluates to if its return slot holds the entry: null in place of nothing. -/
def Entry.returned (e : Entry) : Entry :=
  if e.hasUndefined || (e.erase .undefined).isEmpty then
    (e.erase .undefined).insert (.scalar .null)
  else
    e.erase .undefined

theorem Entry.All.returned {P : Value → Prop} {e : Entry} (he : e.All P)
    (hnull : P (.scalar .null)) :
    e.returned.All P := by
  unfold Entry.returned
  split
  · exact (he.erase _).insert hnull
  · exact he.erase _

theorem Entry.IsData.returned {e : Entry} (he : e.IsData) : e.returned.IsData :=
  Entry.All.returned he rfl

namespace Draft

/-- Closes the frame above `level`. -/
def close (d : Draft) (level : Nat) : Draft :=
  d.update fun m => { m.discard (·.isRootedAtLevel (level + 1)) with level := level }

/-- Writes what a call evaluates to in the frame at `level`, where its result is wanted. -/
def storeResult (d : Draft) (level : Nat) (result : Option Path) (e : Entry)
    (arrays : List ArraySource) : Draft :=
  match result with
  | some p => (d.resolve p level).1.storeAll (d.resolve p level).2 e arrays true
  | none => d

theorem survives_storeResult {P : Index → Prop} {V : Index → Value → Prop} {I : Memory → Prop}
    (hI : Memory.Survives P V I) {d : Draft} {level : Nat} (h : I d.memory) (result : Option Path)
    (hp : ∀ p ∈ result, (Locations.ofVariable p level).All P) {e : Entry}
    {arrays : List ArraySource} (he : e.IsData) (ha : ∀ a ∈ arrays, a.IsData) :
    I (d.storeResult level result e arrays).memory := by
  cases result with
  | none => exact h
  | some p =>
    obtain ⟨h', hl⟩ := survives_resolve hI h (hp p rfl)
    exact survives_storeAll hI h' hl he ha true

end Draft

namespace Edit
variable {sources : List Memory} {level : Nat}

/-- The return slot is read before its frame is closed, and stored after that. -/
theorem leaveCall_eq (result : Option Path) {d d' : Draft}
    (hrun : (extend sources).run d = .ok () d') (hlevel : d'.memory.level = level + 1) :
    (leaveCall result sources).run d =
      .ok () ((d'.close level).storeResult level result
        (d'.memory.readIndex (.returnSlot (level + 1))).returned
        (ArraySource.ofEntry d'.memory
          (d'.memory.readIndex (.returnSlot (level + 1))).returned)) := by
  unfold leaveCall
  rw [EStateM.run_bind, hrun]
  dsimp only
  rw [EStateM.run_bind, EStateM.run_get]
  dsimp only
  rw [hlevel]
  cases result <;> rfl

/-- Returning closes one frame, whatever the memory it is written over. -/
theorem leaveCall_run (result : Option Path) (hne : sources ≠ [])
    (h : ∀ m ∈ sources, m.WellFormed ∧ m.level = level + 1) (limit : Option Nat) :
    ∃ d : Draft, Memory.Frame level (fun f => ∃ m ∈ sources, m.Reports f) d.memory ∧
      ∀ m, (leaveCall result sources).run { memory := m, limit } = .ok () d := by
  obtain ⟨d, hd, -, hrun⟩ := extend_run hne (fun m hm => (h m hm).2) limit
  have hframe := Memory.frame_takenOver hne h limit
  rw [← hd] at hframe
  have hclosed : Memory.Frame level (fun f => ∃ m ∈ sources, m.Reports f) (d.close level).memory :=
    Memory.frame_withLevel ((Memory.frame_stable (level + 1) _).discard hframe
      fun _ => Index.isOrdinary_of_isRootedAtLevel) level
  have hdata := hframe.toWellFormed.data
  have hreturned := (Memory.isData_readIndex hdata (.returnSlot (level + 1))).returned
  exact ⟨_, Draft.survives_storeResult (Memory.frame_stable level _).survives hclosed result
    (fun p _ => Locations.all_ofVariable Index.isOrdinary_ofVariable p level) hreturned
    fun a => ArraySource.isData_of_mem_ofEntry hdata,
    fun m => leaveCall_eq result (hrun m) hframe.level_eq⟩

/-- Where no frame is open, none is closed. -/
theorem leaveCall_run_noCallFrame (result : Option Path) {m : Memory} (hm : m.level = 0)
    (n : Memory) (limit : Option Nat) : (leaveCall result [m]).run { memory := n, limit } =
      .error .noCallFrame { memory := m, limit } := by
  have hextend : (extend [m]).run { memory := n, limit } = .ok () { memory := m, limit } := rfl
  unfold leaveCall
  rw [EStateM.run_bind, hextend]
  dsimp only
  rw [EStateM.run_bind, EStateM.run_get]
  dsimp only
  rw [hm]
  rfl

end Edit
end ScriptMemory
