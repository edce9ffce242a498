import ScriptMemory.Proofs.Evaluation
import ScriptMemory.Proofs.Memory.Slot
import ScriptMemory.Proofs.Reachability

/-! Evaluation only observes. An expression that makes no object leaves memory as it is, but for the
findings that it reports; which these are can be told from the values that it reads, and so can what
a class constant evaluates to. -/
namespace ScriptMemory
open Std Transact

namespace Value

/-- The value may be an object of any class. -/
def IsUnknownObject (v : Value) : Prop :=
  v = .any ∨ v = .anyOf .object

/-- Whatever the value stands for is no object. -/
def IsNoObject : Value → Prop
  | .anyOf k => k ≠ .object
  | .scalar _ | .interval _ | .array _ | .resource _ => True
  | _ => False

end Value

/-- An entry that covers something is not empty. -/
theorem Entry.Covers.isEmpty_eq {e : Entry} {v : Value} (h : e.Covers v) : e.isEmpty = false := by
  obtain ⟨w, hw, -⟩ := h
  refine Bool.eq_false_iff.2 fun hempty => ?_
  have hvalues : e.values = ∅ := ExtTreeSet.isEmpty_iff.1 hempty
  have hmem : w ∈ e.values := hw
  rw [hvalues] at hmem
  exact ExtTreeSet.not_mem_empty hmem

namespace Evaluator
variable {ev : Evaluator} {m n : Memory} {limits : Limits} {x : Expression} {p : Path}
  {name : String} {v : Value} {f : Finding} {fs : List Finding}

/-- What is reported of a class without the constant. -/
def missingFinding (ev : Evaluator) (className name : String) : Finding where
  cause := .classConstantDoesNotExist
  location := ev.location
  message := className ++ "::" ++ name ++ " does not exist"

/-- What is reported of a path that may be no object. -/
def noObjectFinding (ev : Evaluator) (p : Path) : Finding where
  cause := .constantOnNonObject
  location := ev.location
  message := p.text ++ " may not be an object"

/-- Evaluating the expression over memory reports the finding, unless it is quiet. -/
inductive Reports (ev : Evaluator) (m : Memory) : Expression → Finding → Prop
  /-- The path that is read may be undefined. -/
  | undefined {x : Expression} {p : Path} (hx : x.readPath? = some p)
      (hv : .undefined ∈ m.readAt p ev.level) : Reports ev m x (ev.undefinedFinding p)
  /-- The class of an object that is held lacks the constant. -/
  | missing {p : Path} {name : String} {o : ObjectValue} (ho : .object o ∈ m.readAt p ev.level)
      (hnone : ev.program.constant? o.className name = none) :
      Reports ev m (.classConstant p name) (ev.missingFinding o.className name)
  /-- Something is held that is certainly no object. -/
  | noObject {p : Path} {name : String} {v : Value} (hv : v ∈ m.readAt p ev.level)
      (hno : v.IsNoObject) : Reports ev m (.classConstant p name) (ev.noObjectFinding p)

/-- The object is held by the path, and its class has the constant. -/
def Finds (ev : Evaluator) (m : Memory) (p : Path) (name : String) (c : Scalar) : Prop :=
  ∃ o, .object o ∈ m.readAt p ev.level ∧ ev.program.constant? o.className name = some c

/-- The path may hold an object of unknown class. -/
def MayHoldAny (ev : Evaluator) (m : Memory) (p : Path) : Prop :=
  ∃ v ∈ m.readAt p ev.level, v.IsUnknownObject

/-- The entry is what the class constant may be. -/
structure IsConstant (ev : Evaluator) (m : Memory) (p : Path) (name : String) (e : Entry) :
    Prop where
  nonempty : e.isEmpty = false
  found : ∀ c, ev.Finds m p name c → e.Covers (.scalar c)
  unknown : ev.MayHoldAny m p → .any ∈ e
  only : ∀ v ∈ e, (∃ c, ev.Finds m p name c ∧ v = .scalar c) ∨ ev.MayHoldAny m p ∧ v = .any ∨
    (∀ c, ¬ev.Finds m p name c) ∧ ¬ev.MayHoldAny m p ∧ e = .ofValue .any

/-- What a value adds to the class constant. -/
def constantOf? (ev : Evaluator) (name : String) (v : Value) : Option Value :=
  match ev.lookUp name v with
  | .found c => some (.scalar c)
  | .unknown => some .any
  | _ => none

/-- What is reported of a value. -/
def missingOf? (ev : Evaluator) (name : String) (v : Value) : Option Finding :=
  match ev.lookUp name v with
  | .missing className => some (ev.missingFinding className name)
  | _ => none

def saysNoObject (ev : Evaluator) (name : String) (v : Value) : Bool :=
  ev.lookUp name v matches .noObject

theorem saysNoObject_iff : ev.saysNoObject name v = true ↔ v.IsNoObject := by
  unfold saysNoObject lookUp
  cases v with
  | anyOf k => cases k <;> simp [Value.IsNoObject]
  | object o => cases h : ev.program.constant? o.className name <;> simp [h, Value.IsNoObject]
  | _ => simp [Value.IsNoObject]

theorem constantOf?_eq_some {w : Value} : ev.constantOf? name v = some w ↔
    (∃ o c, v = .object o ∧ ev.program.constant? o.className name = some c ∧ w = .scalar c) ∨
      v.IsUnknownObject ∧ w = .any := by
  unfold constantOf? lookUp Value.IsUnknownObject
  cases v with
  | any => simp [eq_comm]
  | anyOf k => cases k <;> simp [eq_comm]
  | object o => cases h : ev.program.constant? o.className name <;> simp [h, eq_comm]
  | _ => simp

theorem missingOf?_eq_some : ev.missingOf? name v = some f ↔
    ∃ o, v = .object o ∧ ev.program.constant? o.className name = none ∧
      f = ev.missingFinding o.className name := by
  unfold missingOf? lookUp
  cases v with
  | anyOf k => cases k <;> simp
  | object o => cases h : ev.program.constant? o.className name <;> simp [h, eq_comm]
  | _ => simp

def undefinedFindings (ev : Evaluator) (m : Memory) (p : Path) : List Finding :=
  if (m.readAt p ev.level).hasUndefined then [ev.undefinedFinding p] else []

/-- What the values of an entry add to the class constant together. -/
def constants (ev : Evaluator) (name : String) (values : List Value) : Entry :=
  .ofList (values.filterMap (ev.constantOf? name))

def noObjectFindings (ev : Evaluator) (p : Path) (name : String) (values : List Value) :
    List Finding :=
  if values.any (ev.saysNoObject name) then [ev.noObjectFinding p] else []

/-- The findings of an expression, in the order in which they are reported. -/
def findingsOf (ev : Evaluator) (m : Memory) : Expression → List Finding
  | .read p => ev.undefinedFindings m p
  | .classConstant p name =>
    let values := (m.readAt p ev.level).toList
    ev.undefinedFindings m p ++ values.filterMap (ev.missingOf? name) ++
      ev.noObjectFindings p name values
  | _ => []

/-- What a class constant evaluates to. -/
def constantEntry (ev : Evaluator) (m : Memory) (p : Path) (name : String) : Entry :=
  let e := ev.constants name (m.readAt p ev.level).toList
  if e.isEmpty then e.insert .any else e

theorem mem_undefinedFindings : f ∈ ev.undefinedFindings m p ↔
    .undefined ∈ m.readAt p ev.level ∧ f = ev.undefinedFinding p := by
  unfold undefinedFindings Entry.hasUndefined
  split
  · next h => simp [Entry.contains_eq_true.1 h]
  · next h => simp [mt Entry.contains_eq_true.2 h]

theorem mem_noObjectFindings {values : List Value} : f ∈ ev.noObjectFindings p name values ↔
    (∃ v ∈ values, v.IsNoObject) ∧ f = ev.noObjectFinding p := by
  have hany : values.any (ev.saysNoObject name) = true ↔ ∃ v ∈ values, v.IsNoObject := by
    rw [List.any_eq_true]
    simp only [saysNoObject_iff]
  unfold noObjectFindings
  split
  · next h => simp [hany.1 h]
  · next h => simp [mt hany.2 h]

theorem mem_findingsOf : f ∈ ev.findingsOf m x ↔ ev.Reports m x f := by
  constructor
  · intro h
    cases x with
    | read p =>
      obtain ⟨hv, rfl⟩ := mem_undefinedFindings.1 h
      exact .undefined rfl hv
    | classConstant p name =>
      rcases List.mem_append.1 h with h | h
      · rcases List.mem_append.1 h with h | h
        · obtain ⟨hv, rfl⟩ := mem_undefinedFindings.1 h
          exact .undefined rfl hv
        · obtain ⟨v, hv, hf⟩ := List.mem_filterMap.1 h
          obtain ⟨o, rfl, hnone, rfl⟩ := missingOf?_eq_some.1 hf
          exact .missing (Entry.mem_toList.1 hv) hnone
      · obtain ⟨⟨v, hv, hno⟩, rfl⟩ := mem_noObjectFindings.1 h
        exact .noObject (Entry.mem_toList.1 hv) hno
    | _ => exact absurd h List.not_mem_nil
  · rintro (⟨hx, hv⟩ | ⟨ho, hnone⟩ | ⟨hv, hno⟩)
    · cases x with
      | read p =>
        cases hx
        exact mem_undefinedFindings.2 ⟨hv, rfl⟩
      | classConstant p name =>
        cases hx
        exact List.mem_append_left _ (List.mem_append_left _ (mem_undefinedFindings.2 ⟨hv, rfl⟩))
      | _ => cases hx
    · refine List.mem_append_left _ (List.mem_append_right _ (List.mem_filterMap.2 ?_))
      exact ⟨_, Entry.mem_toList.2 ho, missingOf?_eq_some.2 ⟨_, rfl, hnone, rfl⟩⟩
    · refine List.mem_append_right _ (mem_noObjectFindings.2 ?_)
      exact ⟨⟨_, Entry.mem_toList.2 hv, hno⟩, rfl⟩

/-- A value that is among the constants was found, or is anything in place of an unknown class. -/
theorem exists_constantOf? {w : Value} :
    w ∈ (m.readAt p ev.level).toList.filterMap (ev.constantOf? name) ↔
      (∃ c, ev.Finds m p name c ∧ w = .scalar c) ∨ ev.MayHoldAny m p ∧ w = .any := by
  simp only [List.mem_filterMap, Entry.mem_toList, constantOf?_eq_some]
  constructor
  · rintro ⟨v, hv, ⟨o, c, rfl, hc, rfl⟩ | ⟨hunknown, rfl⟩⟩
    · exact .inl ⟨c, ⟨o, hv, hc⟩, rfl⟩
    · exact .inr ⟨⟨v, hv, hunknown⟩, rfl⟩
  · rintro (⟨c, ⟨o, ho, hc⟩, rfl⟩ | ⟨⟨v, hv, hunknown⟩, rfl⟩)
    · exact ⟨_, ho, .inl ⟨o, c, rfl, hc, rfl⟩⟩
    · exact ⟨v, hv, .inr ⟨hunknown, rfl⟩⟩

theorem isConstant_constantEntry (ev : Evaluator) (m : Memory) (p : Path) (name : String) :
    ev.IsConstant m p name (ev.constantEntry m p name) := by
  let l := (m.readAt p ev.level).toList.filterMap (ev.constantOf? name)
  have hcovers {w : Value} : (Entry.ofList l).Covers w ↔ ∃ v ∈ l, w.Within v :=
    Entry.covers_foldl_insert.trans (or_iff_left Entry.not_covers_empty)
  have hmember {w : Value} (hw : w ∈ Entry.ofList l) : w ∈ l :=
    (Entry.mem_or_mem_of_mem_foldl_insert hw).resolve_right Entry.not_mem_empty
  have heq : ev.constantEntry m p name =
      if (Entry.ofList l).isEmpty then (Entry.ofList l).insert .any else .ofList l := rfl
  by_cases hnil : l = []
  · -- nothing is known of the constant, so it may be anything
    have hnone (w : Value) : ¬((∃ c, ev.Finds m p name c ∧ w = .scalar c) ∨
        ev.MayHoldAny m p ∧ w = .any) := by
      rw [← exists_constantOf?]
      change w ∉ l
      rw [hnil]
      exact List.not_mem_nil
    have hfinds (c : Scalar) (hc : ev.Finds m p name c) : False := hnone _ (.inl ⟨c, hc, rfl⟩)
    have hany (h : ev.MayHoldAny m p) : False := hnone _ (.inr ⟨h, rfl⟩)
    have hentry : ev.constantEntry m p name = .ofValue .any := by
      rw [heq, hnil]
      rfl
    rw [hentry]
    exact ⟨rfl, fun c hc => (hfinds c hc).elim, fun h => (hany h).elim,
      fun v _ => .inr (.inr ⟨hfinds, hany, rfl⟩)⟩
  · obtain ⟨w, hw⟩ := List.exists_mem_of_ne_nil l hnil
    have hempty : (Entry.ofList l).isEmpty = false := (hcovers.2 ⟨w, hw, .refl w⟩).isEmpty_eq
    have hentry : ev.constantEntry m p name = .ofList l := by
      rw [heq, hempty]
      rfl
    rw [hentry]
    refine ⟨hempty, fun c hc => ?_, fun h => ?_, fun v hv => ?_⟩
    · exact hcovers.2 ⟨_, exists_constantOf?.2 (.inl ⟨c, hc, rfl⟩), .refl _⟩
    · refine (Entry.covers_iff_of_isSolid Value.any_isSolid).1 (hcovers.2 ⟨.any, ?_, .refl _⟩)
      exact exists_constantOf?.2 (.inr ⟨h, rfl⟩)
    · exact (exists_constantOf?.1 (hmember hv)).imp_right .inl

/-- The findings that are not dropped. -/
def voiced (ev : Evaluator) (fs : List Finding) : List Finding :=
  if ev.quiet then [] else fs

theorem voiced_append (ev : Evaluator) (fs more : List Finding) :
    ev.voiced (fs ++ more) = ev.voiced fs ++ ev.voiced more := by
  unfold voiced
  split <;> rfl

theorem leads_report (f : Finding) : Leads limits (m.Told limits.simplify fs)
    (Snapshot.report f) fun _ => m.Told limits.simplify (fs ++ [f]) := by
  refine Leads.mutate .warning fun d hd h => ⟨(), _, rfl, ?_⟩
  rw [Draft.write_memory]
  have htold := h.snoc (f := f)
  rw [← hd] at htold ⊢
  exact htold

/-- One finding more, unless it is dropped. -/
theorem leads_tell (cause : Cause) (message : String) :
    Leads limits (m.Told limits.simplify (ev.voiced fs)) (ev.warn cause message)
      fun _ => m.Told limits.simplify (ev.voiced (fs ++ [⟨cause, ev.location, message⟩])) := by
  rw [voiced_append]
  unfold warn voiced
  cases ev.quiet with
  | true => exact Leads.pure fun _ h => h
  | false => exact ((Keeps.record .valueCreated).leads_same limits).bind fun _ => leads_report _

/-- Before anything is read nothing is told. -/
theorem told_nil (hm : m.Slotted) (ev : Evaluator) (limits : Limits) :
    m.Told limits.simplify (ev.voiced []) m := by
  unfold voiced
  rw [ite_self]
  exact hm.told _

theorem leads_read_told (hm : m.Slotted) (ev : Evaluator) (p : Path) :
    Leads limits (· = m) (ev.read p) fun e n => e = m.readAt p ev.level ∧
      m.Told limits.simplify (ev.voiced (ev.undefinedFindings m p)) n := by
  have hstart := told_nil hm ev limits
  have hread : Leads limits (· = m) (do
      if (m.readAt p ev.level).hasUndefined then
        ev.warn (if p.isVariable then .undefinedVariable else .undefinedIndex)
          (p.text ++ " may be undefined")
      return m.readAt p ev.level) fun e n => e = m.readAt p ev.level ∧
        m.Told limits.simplify (ev.voiced (ev.undefinedFindings m p)) n := by
    unfold undefinedFindings
    split
    · rintro n rfl
      exact ((leads_tell _ _).bind fun _ => Leads.pure fun k hk => ⟨rfl, hk⟩) n hstart
    · refine Leads.pure ?_
      rintro n rfl
      exact ⟨rfl, hstart⟩
  rintro n rfl
  obtain ⟨e, k, hy, hk⟩ := hread n rfl
  exact ⟨e, k, Yields.get_bind (fun s t h => by simp only [h]) hy, hk⟩

theorem constants_snoc (ev : Evaluator) (name : String) (values : List Value) (v : Value) :
    ev.constants name (values ++ [v]) =
      ((ev.constantOf? name v).map (ev.constants name values).insert).getD
        (ev.constants name values) := by
  unfold constants Entry.ofList
  rw [List.filterMap_append, List.foldl_append]
  cases h : ev.constantOf? name v <;> simp [h]

/-- A value that is created adds to what was found before. -/
theorem leads_insert {J : Memory → Prop} (e : Entry) (v : Value) :
    Leads limits J (do return e.insert (← Snapshot.create v)) fun e' n =>
      e' = e.insert v ∧ J n := by
  refine ((Keeps.create v).leads limits).bind fun w => Leads.pure ?_
  rintro n ⟨hn, rfl⟩
  exact ⟨rfl, hn⟩

/-- One value after the other adds to the constant, or is reported. -/
theorem leads_constants (ev : Evaluator) (name : String) (values : List Value) :
    Leads limits (m.Told limits.simplify (ev.voiced fs))
      (values.foldlM (fun (result : Entry) v => do
        match ev.lookUp name v with
        | .found value => return result.insert (← Snapshot.create (.scalar value))
        | .unknown => return result.insert (← Snapshot.create .any)
        | .missing className =>
          ev.warn .classConstantDoesNotExist (className ++ "::" ++ name ++ " does not exist")
          return result
        | .noObject | .silent => return result) ∅)
      fun e n => e = ev.constants name values ∧
        m.Told limits.simplify (ev.voiced (fs ++ values.filterMap (ev.missingOf? name))) n := by
  let Q (done : List Value) (e : Entry) (n : Memory) : Prop := e = ev.constants name done ∧
    m.Told limits.simplify (ev.voiced (fs ++ done.filterMap (ev.missingOf? name))) n
  refine (Leads.foldlM_append (Q := Q) ?_ values).mono (fun n hn => ⟨rfl, ?_⟩)
    fun _ _ h => h
  · rintro done e v n ⟨rfl, hn⟩
    have hQ : Q (done ++ [v]) = fun e n => e = ((ev.constantOf? name v).map
        (ev.constants name done).insert).getD (ev.constants name done) ∧
          m.Told limits.simplify (ev.voiced (fs ++ done.filterMap (ev.missingOf? name) ++
            (ev.missingOf? name v).toList)) n := by
      funext e n
      dsimp only [Q]
      rw [constants_snoc, List.filterMap_append, List.append_assoc]
      cases h : ev.missingOf? name v <;> simp [h]
    rw [hQ]
    have hsame (k : Memory) (hk : m.Told limits.simplify
        (ev.voiced (fs ++ done.filterMap (ev.missingOf? name))) k) : m.Told limits.simplify
          (ev.voiced (fs ++ done.filterMap (ev.missingOf? name) ++ [])) k := by
      rwa [List.append_nil]
    unfold constantOf? missingOf?
    split
    · next value heq =>
      rw [heq]
      exact (leads_insert _ (.scalar value)).mono (fun _ h => h) (fun _ _ h => h) n (hsame n hn)
    · next heq =>
      rw [heq]
      exact (leads_insert _ .any).mono (fun _ h => h) (fun _ _ h => h) n (hsame n hn)
    · next className heq =>
      rw [heq]
      exact ((leads_tell _ _).bind fun _ => Leads.pure fun k hk => ⟨rfl, hk⟩) n hn
    · next heq =>
      rw [heq]
      exact ⟨_, n, Yields.pure limits n _, rfl, hsame n hn⟩
    · next heq =>
      rw [heq]
      exact ⟨_, n, Yields.pure limits n _, rfl, hsame n hn⟩
  · rwa [List.filterMap_nil, List.append_nil]

/-- Where nothing is found the constant may be anything. -/
theorem leads_completed {J : Memory → Prop} (e : Entry) :
    Leads limits J (if e.isEmpty then do return e.insert (← Snapshot.create .any) else return e)
      fun e' n => e' = (if e.isEmpty then e.insert .any else e) ∧ J n := by
  split
  · exact leads_insert e .any
  · exact Leads.pure fun _ h => ⟨rfl, h⟩

theorem leads_classConstant_told (hm : m.Slotted) (ev : Evaluator) (p : Path) (name : String) :
    Leads limits (· = m) (ev.classConstant p name) fun e n => e = ev.constantEntry m p name ∧
      m.Told limits.simplify (ev.voiced (ev.findingsOf m (.classConstant p name))) n := by
  have hfindings : ev.findingsOf m (.classConstant p name) = ev.undefinedFindings m p ++
      (m.readAt p ev.level).toList.filterMap (ev.missingOf? name) ++
        if (m.readAt p ev.level).toList.any (ev.saysNoObject name) then [ev.noObjectFinding p]
        else [] := rfl
  unfold classConstant
  rw [hfindings]
  refine (leads_read_told hm ev p).bind fun e => ?_
  rintro n ⟨rfl, hn⟩
  refine Leads.bind (leads_constants ev name _) (fun result => ?_) n hn
  rintro k ⟨rfl, hk⟩
  change ∃ e k', Yields (if (m.readAt p ev.level).toList.any (ev.saysNoObject name) then _ else _)
    limits k e k' ∧ _
  split
  · exact ((leads_tell _ _).bind fun _ => leads_completed _) k hk
  · rw [List.append_nil]
    exact leads_completed _ k hk

/-- Evaluation tells what it reports, and nothing else changes. -/
theorem leads_evaluate_told (hm : m.Slotted) (limits : Limits) (ev : Evaluator)
    (hx : ∀ className, x ≠ .newObject className) :
    Leads limits (· = m) (ev.evaluate x) fun e n =>
      m.Told limits.simplify (ev.voiced (ev.findingsOf m x)) n ∧
        ∀ p name, x = .classConstant p name → e = ev.constantEntry m p name := by
  have hstart := told_nil hm ev limits
  have hcreate (v : Value) : Leads limits (· = m) (do return Entry.ofValue (← Snapshot.create v))
      fun _ => m.Told limits.simplify (ev.voiced []) := by
    refine (leads_insert ∅ v).mono (fun _ h => h) ?_
    rintro e n ⟨-, rfl⟩
    exact hstart
  cases x with
  | read p => exact (leads_read_told hm ev p).mono (fun _ h => h) fun _ _ h => ⟨h.2, nofun⟩
  | classConstant p name =>
    refine (leads_classConstant_told hm ev p name).mono (fun _ h => h) fun e n h => ⟨h.2, ?_⟩
    rintro p name ⟨rfl, rfl⟩
    exact h.1
  | newObject className => exact absurd rfl (hx className)
  | newArray =>
    refine Leads.pure ?_
    rintro n rfl
    exact ⟨hstart, nofun⟩
  | _ => exact (hcreate _).mono (fun _ h => h) fun _ _ h => ⟨h, nofun⟩

end Evaluator

namespace Snapshot
variable {s : Snapshot} {b : Memory} {ev : Evaluator} {x : Expression}

/-- What evaluating an expression makes of a snapshot. -/
structure Observed (s : Snapshot) (ev : Evaluator) (x : Expression) (t : Snapshot) : Prop where
  limits : t.limits = s.limits
  phase : t.phase = s.phase
  commits : t.commits = s.commits
  sameStructure : s.memory.sameStructure t.memory = true
  entry?_eq : ∀ i, i ≠ .diagnostics → t.memory.entry? i = s.memory.entry? i
  /-- Memory is the same if nothing is to be reported, or if findings are dropped. -/
  untold : ev.quiet = true ∨ (∀ f, ¬ev.Reports s.memory x f) → t.memory = s.memory
  /-- Otherwise the findings are added to what was reported before. If there are scalars and
  intervals besides, more than the limit, they are simplified on that occasion. -/
  told : ev.quiet = false → (∃ f, ev.Reports s.memory x f) → ∀ v, v ∈ t.memory.slot ↔
    (∃ f, ev.Reports s.memory x f ∧ v = .info f) ∨ v ∈ s.memory.slot.fitted s.limits.simplify

/-- Evaluation of an expression that makes no object succeeds and changes nothing but the slot for
findings; a class constant evaluates to what the objects that are held have. -/
theorem evaluate_observes (hs : Reachable s) (hopen : s.phase = .open b) (ev : Evaluator)
    (hx : ∀ className, x ≠ .newObject className) :
    ∃ e t, (ev.evaluate x).run s = .ok e t ∧ s.Observed ev x t ∧
      ∀ p name, x = .classConstant p name → ev.IsConstant s.memory p name e := by
  have hslotted := (hs.upholds Memory.slotted_durable).memory
  obtain ⟨e, n, hy, htold, hconstant⟩ :=
    Evaluator.leads_evaluate_told hslotted s.limits ev hx s.memory rfl
  obtain ⟨t, hrun, hlimits, rfl, hphase, hcommits⟩ := hy s rfl rfl ⟨b, hopen⟩
  refine ⟨e, t, hrun, ⟨hlimits, hphase, hcommits, htold.sameStructure, htold.entry?_eq, ?_, ?_⟩, ?_⟩
  · intro hquiet
    apply htold.untold
    unfold Evaluator.voiced
    rcases hquiet with hquiet | hnone
    · rw [if_pos hquiet]
    · rw [List.eq_nil_iff_forall_not_mem.2 fun f hf =>
        hnone f (Evaluator.mem_findingsOf.1 hf), ite_self]
  · rintro hloud ⟨f, hf⟩ v
    have hvoiced : ev.voiced (ev.findingsOf s.memory x) = ev.findingsOf s.memory x :=
      if_neg (Bool.eq_false_iff.1 hloud)
    rw [hvoiced] at htold
    -- after the first finding the slot is within the limit
    have hfits := htold.fits (List.ne_nil_of_mem (Evaluator.mem_findingsOf.2 hf))
    rw [← hfits.fitted_eq, htold.mem_fitted]
    simp only [Evaluator.mem_findingsOf]
  · intro p name hp
    rw [hconstant p name hp]
    exact ev.isConstant_constantEntry s.memory p name

set_option maxRecDepth 20000 in
/-- A variable that holds a number, an object of a class with the constant, or one of a class
without it. The constant is found, and the other two are reported. -/
theorem evaluate_observes_mixed :
    let classes : OrdMap String ClassDeclaration := (∅ : OrdMap String ClassDeclaration).insert "A"
      { name := "A", constants := (∅ : OrdMap String Scalar).insert "X" (.integer 5) }
    let ev : Evaluator := { program := { classes }, location := "here", level := 0 }
    let path : Path := .ofVariable "o"
    let object (className : String) : ObjectValue := { id := className, className }
    let held : Entry := .ofList [.scalar (.integer 1), .object (object "A"), .object (object "B")]
    let s := [Operation.start, .change (.assign path held false)].foldl after {}
    Reachable s ∧ ∃ e t, (ev.evaluate (.classConstant path "X")).run s = .ok e t ∧
      e.Covers (.scalar (.integer 5)) ∧ .info (ev.missingFinding "B" "X") ∈ t.memory.slot ∧
      .info (ev.noObjectFinding path) ∈ t.memory.slot ∧
      .info (ev.undefinedFinding path) ∉ t.memory.slot := by
  intro classes ev path object held s
  have hs : Reachable s := (Reachable.blank {}).foldl
    (by simp [Operation.sources, Mutation.sources])
  have h := evaluate_observes (x := .classConstant path "X") (b := .initial) hs (by decide +kernel)
    ev (fun _ => nofun)
  have hread (v : Value) (hv : (s.memory.readAt path ev.level).contains v = true) :
      v ∈ s.memory.readAt path ev.level := Entry.contains_eq_true.1 hv
  have hA := hread (.object (object "A")) (by decide +kernel)
  have hB := hread (.object (object "B")) (by decide +kernel)
  have hone := hread (.scalar (.integer 1)) (by decide +kernel)
  have hmissing : ev.Reports s.memory (.classConstant path "X")
      (ev.missingFinding (object "B").className "X") := .missing hB (by decide +kernel)
  have hnoObject : ev.Reports s.memory (.classConstant path "X") (ev.noObjectFinding path) :=
    .noObject hone trivial
  have hunreported : ev.undefinedFinding path ∉
      ev.findingsOf s.memory (.classConstant path "X") := by decide +kernel
  have hempty : (s.memory.slot.fitted s.limits.simplify).contains
      (.info (ev.undefinedFinding path)) = false := by decide +kernel
  have hfinds : ev.Finds s.memory path "X" (.integer 5) := ⟨object "A", hA, by decide +kernel⟩
  obtain ⟨e, t, hrun, hobserved, hconstant⟩ := h
  have hslot := hobserved.told rfl ⟨_, hmissing⟩
  have htold {f : Finding} (hf : ev.Reports s.memory (.classConstant path "X") f) :
      .info f ∈ t.memory.slot := (hslot _).2 (.inl ⟨f, hf, rfl⟩)
  refine ⟨hs, e, t, hrun, (hconstant path "X" rfl).found _ hfinds, htold hmissing,
    htold hnoObject, fun hmem => ?_⟩
  rcases (hslot _).1 hmem with ⟨f, hf, heq⟩ | hold
  · exact hunreported (Evaluator.mem_findingsOf.2 (Value.info.inj heq ▸ hf))
  · exact Bool.false_ne_true (hempty.symm.trans (Entry.contains_eq_true.2 hold))

set_option maxRecDepth 20000 in
/-- A finding is added to a slot that holds a number, too, which is over the limit: the number gives
way to its kind. -/
theorem evaluate_simplifies_slot :
    let ev : Evaluator := { program := {}, location := "here", level := 0 }
    let one : Value := .scalar (.integer 1)
    let source := [Operation.start, .change (.assignIndex .diagnostics (.ofValue one) true),
      .commit].foldl after {}
    let s := [Operation.start, .change (.extend [source])].foldl after
      { limits := { simplify := some 0 } }
    let r := (ev.evaluate (.read (.ofVariable "x"))).run s
    Reachable s ∧ s.phase = .open .initial ∧ failure? r = none ∧
      one ∈ s.memory.slot ∧ one ∉ (left r).memory.slot := by
  intro ev one source s r
  have hsource : Reachable source := (Reachable.blank {}).foldl
    (by simp [Operation.sources, Mutation.sources])
  have hs : Reachable s := by
    refine (Reachable.blank { simplify := some 0 }).foldl fun o ho t ht => ?_
    rcases List.mem_pair.1 ho with rfl | rfl
    · cases ht
    · exact List.mem_singleton.1 ht ▸ hsource
  have hnot : (left r).memory.slot.contains one = false := by decide +kernel
  exact ⟨hs, by decide +kernel, by decide +kernel, Entry.contains_eq_true.1 (by decide +kernel),
    fun hmem => Bool.false_ne_true (hnot.symm.trans (Entry.contains_eq_true.2 hmem))⟩

end Snapshot
end ScriptMemory
