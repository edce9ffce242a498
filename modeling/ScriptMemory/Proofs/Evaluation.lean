import ScriptMemory.Evaluation
import ScriptMemory.Proofs.Transaction

/-! Evaluation in a transaction: it never fails, and it changes memory only by findings and by the
objects that it allocates. What its results are like is a parameter: at least they are data. So is
what it may report. -/
namespace ScriptMemory

/-- A value that an expression makes without a look at memory. -/
def Value.IsFresh : Value → Prop
  | .any | .anyOf _ | .scalar _ | .interval _ => True
  | .array i => i = .freshArray
  | _ => False

theorem Value.IsFresh.isReference {v : Value} (h : v.IsFresh) : v.isReference = false := by
  cases v <;> first | rfl | exact h.elim

namespace Memory
variable {I : Memory → Prop}

/-- The invariant `I` of memory withstands evaluation that reports findings of `F` only, and what an
expression evaluates to is an entry that `E` admits to memory. -/
structure Withstands (limits : Limits) (F : Finding → Prop) (E : Memory → Entry → Prop)
    (I : Memory → Prop) : Prop where
  fresh : ∀ {m e}, I m → e.All Value.IsFresh → E m e
  read : ∀ {m}, I m → ∀ p level, E m (m.readAt p level)
  report : ∀ e f, F f → Transact.Leads limits (fun m => I m ∧ E m e) (Snapshot.report f)
    fun _ m => I m ∧ E m e
  createObject : ∀ className site (fields : List (String × Entry)),
    (∀ x ∈ fields, ∃ s, x.2 = .ofValue (.scalar s)) →
      Transact.Leads limits I (Snapshot.createObject className site fields)
        fun o m => I m ∧ E m (.ofValue (.object o))

/-- A property of memory that survives whatever evaluation does: findings, and objects whose fields
are scalars. -/
structure Persistent (I : Memory → Prop) : Prop where
  wellFormed : ∀ {m}, I m → m.WellFormed
  report : ∀ f, Edit.Keeps I (Edit.report f) fun _ => True
  createObject : ∀ className site (fields : List (String × Entry)),
    (∀ x ∈ fields, ∃ s, x.2 = .ofValue (.scalar s)) →
      Edit.Keeps I (Edit.createObject className site fields) fun _ => True

theorem Persistent.withstands (hI : Persistent I) (limits : Limits) :
    Withstands limits (fun _ => True) (fun _ => Entry.IsData) I where
  fresh := fun _ he v hv => (he v hv).isReference
  read := fun h p level => isData_readAt (hI.wellFormed h).data p level
  report := by
    rintro e f - m ⟨hm, he⟩
    obtain ⟨a, n, hy, hn, -⟩ := Transact.Keeps.mutate (hI.report f) .warning limits m hm
    exact ⟨a, n, hy, hn, he⟩
  createObject := by
    intro className site fields hf m hm
    obtain ⟨o, n, hy, hn, -⟩ :=
      Transact.Keeps.mutate (hI.createObject className site fields hf) .createObject limits m hm
    exact ⟨o, n, hy, hn, Entry.all_ofValue rfl⟩

theorem Stable.persistent (hI : Stable I) : Persistent I where
  wellFormed := hI.wellFormed
  report := Edit.keeps_report hI
  createObject := by
    intro className site fields hf
    apply Edit.keeps_createObject hI.survives
    intro x hx
    obtain ⟨s, hs⟩ := hf x hx
    rw [hs]
    exact Entry.all_ofValue rfl

end Memory

namespace Evaluator
open Transact
variable {limits : Limits} {F : Finding → Prop} {E : Memory → Entry → Prop} {I : Memory → Prop}
  {ev : Evaluator} {x : Expression}

/-- What is reported of a path that may be undefined. -/
def undefinedFinding (ev : Evaluator) (p : Path) : Finding where
  cause := if p.isVariable then .undefinedVariable else .undefinedIndex
  location := ev.location
  message := p.text ++ " may be undefined"

/-- Whatever the expression may report in memory of `I` is in `F`. -/
structure Confines (ev : Evaluator) (I : Memory → Prop) (F : Finding → Prop) (x : Expression) :
    Prop where
  read : ∀ p m, x.readPath? = some p → I m → (m.readAt p ev.level).hasUndefined = true →
    F (ev.undefinedFinding p)
  constant : ∀ f, f.cause = .classConstantDoesNotExist ∨ f.cause = .constantOnNonObject → F f

theorem confines_true (ev : Evaluator) (I : Memory → Prop) (x : Expression) :
    ev.Confines I (fun _ => True) x :=
  ⟨fun _ _ _ _ _ => trivial, fun _ _ => trivial⟩

theorem leads_warn_of {J : Memory → Prop} {cause : Cause} {message : String}
    (h : Leads limits J (Snapshot.report ⟨cause, ev.location, message⟩) fun _ => J) :
    Leads limits J (ev.warn cause message) fun _ => J := by
  unfold warn
  split
  · exact ((Keeps.record _).leads_same limits).bind fun _ => h
  · exact Leads.pure fun _ h => h

/-- A finding leaves alone what has been evaluated before. -/
theorem leads_warn (hI : Memory.Withstands limits F E I) (ev : Evaluator) {cause : Cause}
    {message : String} (hF : F ⟨cause, ev.location, message⟩) (e : Entry) :
    Leads limits (fun m => I m ∧ E m e) (ev.warn cause message) fun _ m => I m ∧ E m e :=
  leads_warn_of (hI.report e _ hF)

/-- A path is read as memory has it, with a finding if it may be undefined. -/
theorem leads_read_of {p : Path} (hread : ∀ m, I m → E m (m.readAt p ev.level))
    (hreport : ∀ m, I m → (m.readAt p ev.level).hasUndefined = true → ∀ e,
      Leads limits (fun n => I n ∧ E n e) (Snapshot.report (ev.undefinedFinding p))
        fun _ n => I n ∧ E n e) :
    Leads limits I (ev.read p) fun e m => I m ∧ E m e := by
  unfold read
  intro m hm
  have hread' : Leads limits (fun n => I n ∧ E n (m.readAt p ev.level)) (do
      if (m.readAt p ev.level).hasUndefined then
        ev.warn (if p.isVariable then .undefinedVariable else .undefinedIndex)
          (p.text ++ " may be undefined")
      return m.readAt p ev.level) fun e n => I n ∧ E n e := by
    split
    · next hundefined =>
      exact (leads_warn_of (hreport m hm hundefined _)).bind fun _ => Leads.pure fun _ h => h
    · exact Leads.pure fun _ h => h
  obtain ⟨e, n, hy, hn⟩ := hread' m ⟨hm, hread m hm⟩
  exact ⟨e, n, Yields.get_bind (fun s t h => by simp only [h]) hy, hn⟩

theorem leads_read (hI : Memory.Withstands limits F E I) (ev : Evaluator) (p : Path)
    (hF : ∀ m, I m → (m.readAt p ev.level).hasUndefined = true → F (ev.undefinedFinding p)) :
    Leads limits I (ev.read p) fun e m => I m ∧ E m e :=
  leads_read_of (fun _ hm => hI.read hm p ev.level) fun m hm h e => hI.report e _ (hF m hm h)

theorem leads_newObject (hI : Memory.Withstands limits F E I) (ev : Evaluator)
    (className : String) :
    Leads limits I (ev.newObject className) fun e m => I m ∧ E m e := by
  unfold newObject
  have hfields (l : List (String × Scalar)) : Keeps I (l.mapM fun x => do
      return (x.1, Entry.ofValue (← Snapshot.create (.scalar x.2))))
      fun fields => ∀ x ∈ fields, ∃ s, x.2 = Entry.ofValue (.scalar s) := by
    apply Keeps.mapM
    intro x _
    apply (Keeps.create _).bind
    rintro _ rfl
    exact Keeps.pure ⟨x.2, rfl⟩
  refine ((hfields _).leads limits).bind fun fields => ?_
  rintro m ⟨hm, hf⟩
  exact (hI.createObject className ev.location fields hf).bind
    (fun o => Leads.pure fun _ h => h) m hm

theorem leads_create {v : Value} (hv : v.IsFresh) {result : Entry} (h : result.All Value.IsFresh) :
    Leads limits I (do return result.insert (← Snapshot.create v))
      fun e m => I m ∧ e.All Value.IsFresh := by
  refine ((Keeps.create v).leads limits).bind fun w => Leads.pure ?_
  rintro m ⟨hm, rfl⟩
  exact ⟨hm, h.insert hv⟩

theorem leads_classConstant (hI : Memory.Withstands limits F E I) (ev : Evaluator) (target : Path)
    (name : String) (hF : ev.Confines I F (.classConstant target name)) :
    Leads limits I (ev.classConstant target name) fun e m => I m ∧ E m e := by
  have hwarn {cause : Cause} (hcause : cause = .classConstantDoesNotExist ∨
      cause = .constantOnNonObject) (message : String) :
      Leads limits I (ev.warn cause message) fun _ => I :=
    (leads_warn hI ev (hF.constant ⟨cause, ev.location, message⟩ hcause) ∅).mono
      (fun _ hm => ⟨hm, hI.fresh hm Entry.all_empty⟩) fun _ _ h => h.1
  have hadd {result : Entry} (h : result.All Value.IsFresh) {v : Value} (hv : v.IsFresh) :
      Leads limits (fun m => I m ∧ result.All Value.IsFresh)
        (do return result.insert (← Snapshot.create v)) fun e m => I m ∧ e.All Value.IsFresh :=
    (leads_create hv h).mono (fun _ h => h.1) fun _ _ h => h
  have hkeep (result : Entry) (x : Transact Unit) (hx : Leads limits I x fun _ => I) :
      Leads limits (fun m => I m ∧ result.All Value.IsFresh) (x >>= fun _ => pure result)
        fun e m => I m ∧ e.All Value.IsFresh := by
    rintro m ⟨hm, h⟩
    exact (hx.bind fun _ => Leads.pure fun n hn => ⟨hn, h⟩) m hm
  -- where nothing is found the constant may be anything
  have hresult (result : Entry) : Leads limits (fun m => I m ∧ result.All Value.IsFresh)
      (if result.isEmpty then do return result.insert (← Snapshot.create .any)
        else return result) fun e m => I m ∧ E m e := by
    have hlast : Leads limits (fun m => I m ∧ result.All Value.IsFresh)
        (if result.isEmpty then do return result.insert (← Snapshot.create .any)
          else return result) fun e m => I m ∧ e.All Value.IsFresh := by
      rintro m ⟨hm, h⟩
      split
      · exact hadd h (v := .any) trivial m ⟨hm, h⟩
      · exact Leads.pure (fun _ h => h) m ⟨hm, h⟩
    exact hlast.mono (fun _ h => h) fun _ _ h => ⟨h.1, hI.fresh h.1 h.2⟩
  unfold classConstant
  refine (leads_read hI ev target fun m => hF.read target m rfl).bind fun e => ?_
  refine Leads.bind (Q := fun result m => I m ∧ result.All Value.IsFresh) ?_ fun result => ?_
  · refine (Leads.foldlM (Q := fun result m => I m ∧ result.All Value.IsFresh) ?_).mono
      (fun _ h => ⟨h.1, Entry.all_empty⟩) fun _ _ h => h
    rintro result v - m ⟨hm, h⟩
    split
    · exact hadd h (v := .scalar _) trivial m ⟨hm, h⟩
    · exact hadd h (v := .any) trivial m ⟨hm, h⟩
    · exact hkeep result _ (hwarn (.inl rfl) _) m ⟨hm, h⟩
    · exact ⟨_, m, Yields.pure limits m result, hm, h⟩
    · exact ⟨_, m, Yields.pure limits m result, hm, h⟩
  · apply Leads.ite
    · rintro m ⟨hm, h⟩
      obtain ⟨u, n, hy, hn⟩ := hwarn (.inr rfl) (target.text ++ " may not be an object") m hm
      obtain ⟨e, k, hy', hk⟩ := hresult result n ⟨hn, h⟩
      exact ⟨e, k, hy.bind hy', hk⟩
    · exact hresult result

/-- Evaluation never fails, and its result is admitted to the memory that it leaves. -/
theorem leads_evaluate_of (hI : Memory.Withstands limits F E I) (hF : ev.Confines I F x) :
    Leads limits I (ev.evaluate x) fun e m => I m ∧ E m e := by
  have hcreate (v : Value) (hv : v.IsFresh) :
      Leads limits I (do return Entry.ofValue (← Snapshot.create v)) fun e m => I m ∧ E m e :=
    (leads_create hv Entry.all_empty).mono (fun _ h => h)
      fun _ _ h => ⟨h.1, hI.fresh h.1 h.2⟩
  cases x with
  | literal value => exact hcreate (.scalar _) trivial
  | any => exact hcreate .any trivial
  | anyOf k => exact hcreate (.anyOf k) trivial
  | interval first last => exact hcreate (.interval _) trivial
  | newArray =>
    refine Leads.pure fun m hm => ⟨hm, hI.fresh hm (Entry.all_ofValue ?_)⟩
    exact (rfl : Index.freshArray = .freshArray)
  | read p => exact leads_read hI ev p fun m => hF.read p m rfl
  | newObject className => exact leads_newObject hI ev className
  | classConstant target name => exact leads_classConstant hI ev target name hF

theorem leads_evaluate (hI : Memory.Withstands limits (fun _ => True) E I) (ev : Evaluator)
    (x : Expression) : Leads limits I (ev.evaluate x) fun e m => I m ∧ E m e :=
  leads_evaluate_of hI (ev.confines_true I x)

theorem keeps_warn (hI : Memory.Persistent I) (ev : Evaluator) (cause : Cause) (message : String) :
    Keeps I (ev.warn cause message) fun _ => True :=
  fun limits => (leads_warn (hI.withstands limits) ev trivial ∅).mono
    (fun _ hm => ⟨hm, Entry.all_empty⟩) fun _ _ h => ⟨h.1, trivial⟩

/-- What an expression evaluates to is data. -/
theorem keeps_evaluate (hI : Memory.Persistent I) (ev : Evaluator) (x : Expression) :
    Keeps I (ev.evaluate x) Entry.IsData :=
  fun limits => leads_evaluate (hI.withstands limits) ev x

end Evaluator
end ScriptMemory
