import ScriptMemory.Proofs.Memory.History
import ScriptMemory.Proofs.Returning

/-! Calls that pass variables by reference. The aliases of a parameter are edges of the frame that
it belongs to, and go with that frame; in between, edges of the caller are lost only with the
locations that they lead to. -/
namespace ScriptMemory
open Std

namespace Memory
variable {m n : Memory} {F : Index → Prop} {t s : Index} {k : Nat}

/-- The memory with `t` linked to another location. -/
def linked (m : Memory) (t s : Index) : Memory :=
  match m.link t s with
  | .ok n => n
  | .error _ => m

theorem link_run {d : Draft} (h : d.memory.AliasesSymmetric) (t s : Index) :
    (Edit.link t s).run d = .ok () (d.update (·.linked t s)) := by
  obtain ⟨n, hn, hrun, -⟩ := exists_link h t s
  have hlinked : d.memory.linked t s = n := by
    unfold linked
    rw [hn]
  rw [hrun, ← hlinked]
  rfl

theorem confined_linked (h : m.Confined (fun _ => True) k) (t s : Index) :
    (m.linked t s).Confined (fun _ => True) k := by
  unfold linked
  split
  · next n hn => exact confined_survives_anywhere.link h trivial trivial hn
  · exact h

/-- A link is an edge of `t`, and changes no edges but those of `t`. -/
theorem pruned_linked (h : m.AliasesSymmetric) (ht : F t) (s : Index) :
    Pruned F [] m (m.linked t s) := by
  obtain ⟨n, hn, -, hsame, hlinked⟩ := exists_link (d := { memory := m, limit := none }) h t s
  have heq : m.linked t s = n := by
    unfold linked
    rw [hn]
  rw [heq]
  by_cases hts : t = s
  · rw [hsame hts]
    exact .refl m
  · have hlinked := hlinked hts
    refine ⟨fun i j hi hj => ?_, fun i hi _ => (hlinked.isDefined_iff i).2 (.inr (.inr hi))⟩
    have hit : i ≠ t := fun heq => hi (heq ▸ ht)
    have hjt : j ≠ t := fun heq => hj (heq ▸ ht)
    rw [hlinked.strength?_eq, if_neg (by simp)]
    unfold strengthAfterLink
    rw [if_neg (by tauto), if_neg (by tauto)]

end Memory

namespace Draft
variable {d d' : Draft} {k : Nat}

def ensuring (strong : Bool) (d : Draft) (i : Index) : List Memory.Change :=
  if d.memory.isDefined i then [] else d.storing i (.ofValue (.scalar .null)) [] strong

theorem replay_ensuring (strong : Bool) (d : Draft) (i : Index) :
    d.memory.replay (d.ensuring strong i) = (d.ensure strong i).memory := by
  unfold ensuring ensure
  split
  · rfl
  · exact replay_storing ..

/-- The locations that a path of the caller denotes, in the draft in which all of them are there. -/
def provide (d : Draft) (source : Path) (caller : Nat) : Draft × Locations :=
  let (d, sources) := d.follow source caller
  (sources.visits.foldl (fun d v => d.ensure v.1 v.2) d, sources)

def providing (d : Draft) (source : Path) (caller : Nat) : List Memory.Change :=
  let (followed, sources) := d.follow source caller
  following source.segments d (.ofVariable source caller) ++
    along (fun d v => d.ensure v.1 v.2) (fun d v => d.ensuring v.1 v.2) followed sources.visits

theorem replay_providing (d : Draft) (source : Path) (caller : Nat) :
    d.memory.replay (d.providing source caller) = (d.provide source caller).1.memory := by
  unfold providing provide
  dsimp only
  rw [Memory.replay_append, replay_following]
  exact replay_along (fun d v => replay_ensuring ..) _ _

/-- What a parameter is about to hold. -/
def passed (created : Draft) (sources : Locations) : Entry :=
  (sources.toList.map created.memory.readIndex).foldl Entry.join ∅

/-- The draft with a parameter linked to all of its sources, before it is written. -/
def tie (created : Draft) (t : Index) (sources : Locations) : Draft :=
  sources.toList.foldl (fun d s => d.update (·.linked t s)) created

theorem confined_provide (h : d.memory.Confined (fun _ => True) k) (source : Path) (caller : Nat) :
    (d.provide source caller).1.memory.Confined (fun _ => True) k := by
  have hI := @Memory.confined_survives_anywhere k
  have hensure (d : Draft) (v : Bool × Index) (h : d.memory.Confined (fun _ => True) k) :
      (d.ensure v.1 v.2).memory.Confined (fun _ => True) k := by
    unfold ensure
    split
    · exact h
    · exact survives_store hI h trivial (Entry.all_ofValue rfl)
        (fun _ ha => absurd ha List.not_mem_nil) v.1
  unfold provide
  dsimp only
  have hfollowed := (survives_follow hI h (Edit.all_true source caller)).1
  generalize (d.follow source caller).2.visits = visits
  generalize (d.follow source caller).1 = d at hfollowed
  induction visits generalizing d with
  | nil => exact hfollowed
  | cons v visits ih => exact ih _ (hensure d v hfollowed)

theorem forM_link_run {t : Index} (h : d.memory.Confined (fun _ => True) k) (sources : List Index) :
    (sources.forM fun s => Edit.link t s).run d =
      .ok () (sources.foldl (fun d s => d.update (·.linked t s)) d) := by
  induction sources generalizing d with
  | nil => rfl
  | cons s sources ih =>
    change (Edit.link t s >>= fun _ => sources.forM fun s => Edit.link t s).run d = _
    rw [EStateM.run_bind, Memory.link_run h.symmetric]
    exact ih (Memory.confined_linked h t s)

/-- A parameter is one variable, which nothing has to be made for. -/
theorem bindReference_run_eq (h : d.memory.Confined (fun _ => True) (k + 1)) (name : String)
    (source : Path) :
    let (created, sources) := d.provide source k
    let e := created.passed sources
    (Edit.bindReference (.ofVariable name) source).run d =
      .ok () ((created.tie (.ofVariable name (.frame (k + 1))) sources).storeAll
        (.ofVariable (.ofVariable name) (k + 1)) e (ArraySource.ofEntry created.memory e)
        true) := by
  let created := (d.provide source k).1
  let sources := (d.follow source k).2
  have hcreated : sources.may.toList.foldl (ensure false)
      (sources.must.toList.foldl (ensure true) (d.follow source k).1) = created :=
    (Locations.foldl_visits (fun c (d : Draft) i => d.ensure c i) _).symm
  have htarget : created.follow (.ofVariable name) (k + 1) =
      (created, .ofVariable (.ofVariable name) (k + 1)) :=
    follow_of_isVariable created rfl (k + 1)
  have hlinks : ((Locations.ofVariable (.ofVariable name) (k + 1)).toList.forM fun t =>
      sources.toList.forM fun s => Edit.link t s).run created =
        .ok () (created.tie (.ofVariable name (.frame (k + 1))) sources) := by
    rw [Memory.toList_ofVariable]
    change ((sources.toList.forM fun s =>
      Edit.link (.ofVariable name (.frame (k + 1))) s) >>= fun _ => pure ()).run created = _
    rw [EStateM.run_bind, forM_link_run (confined_provide h source k)]
    rfl
  dsimp only
  rw [Edit.bindReference_run h.level_eq]
  exact Edit.bindPaths_eq rfl hcreated htarget hlinks

/-- What is removed while a parameter is bound to the locations of a path of the caller. -/
def removedInBinding (d : Draft) (name : String) (source : Path) : List Index :=
  let level := d.memory.level
  let (created, sources) := d.provide source (level - 1)
  let e := created.passed sources
  let tied := created.tie (.ofVariable name (.frame level)) sources
  d.memory.removedIn (d.providing source (level - 1)) ++
    tied.memory.removedIn (tied.storingAll (.ofVariable (.ofVariable name) level) e
      (ArraySource.ofEntry created.memory e) true)

theorem pruned_tie {F : Index → Prop} {t : Index} (ht : F t)
    (h : d.memory.Confined (fun _ => True) k) (sources : Locations) :
    Memory.Pruned F [] d.memory (d.tie t sources).memory := by
  unfold tie
  induction sources.toList generalizing d with
  | nil => exact .refl _
  | cons s sources ih =>
    exact (Memory.pruned_linked h.symmetric ht s).trans
      (ih (d := d.update (·.linked t s)) (Memory.confined_linked h t s))

/-- Binding a parameter removes edges of the caller only together with locations. -/
theorem pruned_bindReference {d' : Draft} {name : String} {source : Path}
    (h : d.memory.Confined (fun _ => True) (k + 1))
    (hrun : (Edit.bindReference (.ofVariable name) source).run d = .ok () d') :
    Memory.Pruned (·.isRootedAtLevel (k + 1) = true) (d.removedInBinding name source)
      d.memory d'.memory := by
  have hd' := hrun.symm.trans (bindReference_run_eq h name source)
  cases hd'
  let created := (d.provide source k).1
  let e := created.passed (d.provide source k).2
  let tied := created.tie (.ofVariable name (.frame (k + 1))) (d.provide source k).2
  have hprovided := Memory.pruned_of_replay (F := (·.isRootedAtLevel (k + 1) = true))
    (replay_providing d source k)
  have htied := pruned_tie (F := (·.isRootedAtLevel (k + 1) = true))
    (t := .ofVariable name (.frame (k + 1))) (Index.isRootedAtLevel_iff.2 rfl)
    (confined_provide h source k) (d.provide source k).2
  have hwritten := htied.trans (Memory.pruned_of_replay (replay_storingAll tied
    (.ofVariable (.ofVariable name) (k + 1)) e (ArraySource.ofEntry created.memory e) true))
  rw [List.nil_append] at hwritten
  unfold removedInBinding
  dsimp only
  rw [h.level_eq, Nat.add_sub_cancel]
  exact hprovided.trans hwritten

end Draft

/-- A change that a function makes in its own frame. It makes no aliases but those of its
parameters, which are bound to locations of the caller, and unsets nothing. -/
inductive CalleeChange where
  | bindReference (name : String) (source : Path)
  | assign (p : Path) (e : Entry) (force : Bool)
  | createArray (p : Path)
  | createObject (className : String) (site : ObjectId) (fields : List (String × Entry))
  | assignReturn (e : Entry)
  | report (f : Finding)

def CalleeChange.mutation : CalleeChange → Mutation
  | bindReference name source => .bindReference (.ofVariable name) source
  | assign p e force => .assign p e force
  | createArray p => .createArray p
  | createObject className site fields => .createObject className site fields
  | assignReturn e => .assignReturn e
  | report f => .report f

namespace CalleeChange
variable {d d' : Draft} {k : Nat} {c : CalleeChange}

/-- The locations that are removed while a change is made. -/
def removed (d : Draft) : CalleeChange → List Index
  | bindReference name source => d.removedInBinding name source
  | assign p e force =>
    d.memory.removedIn (d.storingAt p d.memory.level e (ArraySource.ofEntry · e) force)
  | createArray p =>
    d.memory.removedIn (d.storingAt p d.memory.level (.ofValue (.array .freshArray))
      (fun _ => [.blank]) true)
  | createObject className site fields =>
    d.memory.removedIn (d.creating { id := site, className } fields)
  | assignReturn e =>
    d.memory.removedIn (d.storing (.returnSlot d.memory.level) e (ArraySource.ofEntry d.memory e)
      true)
  | report f =>
    d.memory.removedIn
      (d.writing .diagnostics (((d.memory.entry? .diagnostics).getD ∅).insert (.info f)))

/-- The function stays in its frame, and edges of the caller go only with locations. -/
theorem change_run (h : d.memory.Confined (fun _ => True) (k + 1))
    (hrun : (c.mutation.edit (k + 1)).run d = .ok () d') :
    d'.memory.Confined (fun _ => True) (k + 1) ∧
      Memory.Pruned (·.isRootedAtLevel (k + 1) = true) (c.removed d) d.memory d'.memory := by
  have hI := @Memory.confined_survives_anywhere (k + 1)
  have hlevel := h.level_eq
  cases c with
  | bindReference name source =>
    refine ⟨?_, Draft.pruned_bindReference h hrun⟩
    exact (Edit.keeps_bindReference hI (fun m hm => hm.level_eq ▸ Nat.succ_ne_zero k)
      (fun _ _ => Edit.all_true _ _) fun _ _ => Edit.all_true _ _).of_run h hrun
  | assign p e force =>
    have he : e.IsData := Edit.isData_of_run hrun
    refine ⟨(Edit.keeps_assign hI he (fun _ _ => Edit.all_true p _) force).of_run h hrun, ?_⟩
    cases hrun.symm.trans (Edit.assign_run d p he force)
    exact Memory.pruned_of_replay (Draft.replay_storingAt ..)
  | createArray p =>
    cases hrun
    exact ⟨Draft.survives_createArray hI h (Edit.all_true p _),
      Memory.pruned_of_replay (Draft.replay_storingAt ..)⟩
  | createObject className site fields =>
    have hdiscard := run_discard (Edit.createObject className site fields) d
    cases hx : (Edit.createObject className site fields).run d with
    | error e d'' =>
      rw [hx] at hdiscard
      cases hrun.symm.trans hdiscard
    | ok o d'' =>
      rw [hx] at hdiscard
      cases hrun.symm.trans hdiscard
      obtain ⟨hdata, hreplay⟩ := Draft.replay_creating hx
      exact ⟨(Edit.keeps_createObject hI className site hdata).of_run h hx,
        Memory.pruned_of_replay hreplay⟩
  | assignReturn e =>
    have he : e.IsData := Edit.isData_of_run hrun
    refine ⟨(Edit.keeps_assignIndex hI trivial he true).of_run h hrun, ?_⟩
    cases hrun.symm.trans (Edit.assignIndex_run d (.returnSlot (k + 1)) he true)
    rw [← hlevel]
    exact Memory.pruned_of_replay (Draft.replay_storing ..)
  | report f =>
    refine ⟨(Edit.keeps_report_of_survives hI trivial f).of_run h hrun, ?_⟩
    cases hrun
    exact Memory.pruned_of_replay (Draft.replay_writing ..)

end CalleeChange

/-- A function may be in the middle of a transaction or commit what it has done. -/
inductive CalleeStep where
  | start
  | commit
  | change (c : CalleeChange)

def CalleeStep.operation : CalleeStep → Operation
  | start => .start
  | commit => .commit
  | change c => .change c.mutation

namespace CalleeStep
open Snapshot
variable {s t : Snapshot} {x : CalleeStep} {k : Nat}

/-- The locations that are removed in the course of a step. -/
def removed (s : Snapshot) : CalleeStep → List Index
  | change c => c.removed { memory := s.memory, limit := s.limits.simplify }
  | _ => []

/-- All that is removed in the course of some steps. -/
def removedAlong : Snapshot → List CalleeStep → List Index
  | _, [] => []
  | s, x :: steps => x.removed s ++ removedAlong (s.after x.operation) steps

/-- Committing widens entries, and a transaction starts from what is there. -/
theorem step_run (h : s.memory.Confined (fun _ => True) (k + 1))
    (hrun : x.operation.perform.run s = .ok () t) :
    t.memory.Confined (fun _ => True) (k + 1) ∧
      Memory.Pruned (·.isRootedAtLevel (k + 1) = true) (x.removed s) s.memory t.memory := by
  cases x with
  | start =>
    rw [memory_start_run hrun]
    exact ⟨h, .refl _⟩
  | commit =>
    rcases memory_commit_run hrun with heq | ⟨before, heq⟩
    · rw [heq]
      exact ⟨h, .refl _⟩
    · rw [heq]
      refine ⟨h.widen before, .of_aliases (Memory.aliases_mapEntries _ _) fun i hi => ?_⟩
      exact (Memory.isDefined_mapEntries ..).trans hi
  | change c =>
    obtain ⟨d, hd, hmemory⟩ := exists_edit_of_perform_run hrun
    rw [h.level_eq] at hd
    rw [← hmemory]
    exact CalleeChange.change_run (d := { memory := s.memory, limit := s.limits.simplify }) h hd

/-- By induction on the steps. -/
theorem steps_run {steps : List CalleeStep} (h : s.memory.Confined (fun _ => True) (k + 1))
    (hrun : (steps.forM fun x => x.operation.perform).run s = .ok () t) :
    t.memory.Confined (fun _ => True) (k + 1) ∧
      Memory.Pruned (·.isRootedAtLevel (k + 1) = true) (removedAlong s steps) s.memory
        t.memory := by
  induction steps generalizing s with
  | nil =>
    cases hrun
    exact ⟨h, .refl _⟩
  | cons x steps ih =>
    change (x.operation.perform >>= fun _ => steps.forM fun x => x.operation.perform).run s = _
      at hrun
    obtain ⟨_, u, hx, hrest⟩ := exists_of_run_bind hrun
    obtain ⟨hu, hpruned⟩ := step_run h hx
    obtain ⟨ht, hpruned'⟩ := ih hu hrest
    refine ⟨ht, ?_⟩
    have hafter : s.after x.operation = u := after_eq hx
    unfold removedAlong
    rw [hafter]
    exact hpruned.trans hpruned'

end CalleeStep

namespace Draft

/-- Closing a frame removes the locations of the frame. -/
theorem pruned_close {d : Draft} (h : d.memory.Consistent) (level : Nat) :
    Memory.Pruned (·.isRootedAtLevel (level + 1) = true)
      (d.memory.cells.keys.filter (·.isRootedAtLevel (level + 1))) d.memory
      (d.close level).memory := by
  have hclosed := h.frameClosed level
  have hlost (i : Index) (hi : ¬i.isRootedAtLevel (level + 1) = true) :
      i ∉ d.memory.cells.keys.filter (·.isRootedAtLevel (level + 1)) :=
    fun hmem => hi (List.mem_filter.1 hmem).2
  constructor
  · intro i j hi hj
    rw [if_neg (not_or.2 ⟨hlost i hi, hlost j hj⟩), hclosed.aliases_eq i (by simpa using hi),
      AliasSet.strength?_filter, if_pos (by simpa using hj)]
  · intro i hi hkept
    have hframe : i.isRootedAtLevel (level + 1) = false := by
      rw [← Bool.not_eq_true]
      intro hframe
      refine hkept (List.mem_filter.2 ⟨ExtTreeMap.mem_keys.2 ?_, hframe⟩)
      exact ExtTreeMap.contains_iff_mem.1 hi
    rw [hclosed.isDefined_eq i hframe]
    exact hi

end Draft

namespace Memory

/-- The memory `n` has the alias edges of `m` between locations that are not lost, and no others. -/
structure AliasesKept (lost : List Index) (m n : Memory) : Prop where
  isDefined : ∀ i, m.isDefined i = true → i ∉ lost → n.isDefined i = true
  strength?_eq : ∀ i j, m.isDefined i = true → m.isDefined j = true → i ∉ lost → j ∉ lost →
    (n.aliases i).strength? j = (m.aliases i).strength? j
  of_edge : ∀ i j s, (n.aliases i).strength? j = some s →
    i ∉ lost ∧ j ∉ lost ∧ (m.aliases i).strength? j = some s

/-- Where nothing is left of a frame, its edges need not be left out of account. -/
theorem Pruned.aliasesKept {m n : Memory} {lost : List Index} {level : Nat}
    (h : Pruned (·.isRootedAtLevel (level + 1) = true) lost m n)
    (hn : n.Confined (·.isRootedAtLevel (level + 1) = false) level) : AliasesKept lost m n := by
  have hframe (i : Index) (hi : n.isDefined i = true) : ¬i.isRootedAtLevel (level + 1) = true := by
    rw [Bool.not_eq_true]
    exact hn.defined i hi
  refine ⟨h.isDefined, fun i j hi hj hi' hj' => ?_, fun i j s hs => ?_⟩
  · rw [h.strength?_eq i j (hframe i (h.isDefined i hi hi')) (hframe j (h.isDefined j hj hj')),
      if_neg (not_or.2 ⟨hi', hj'⟩)]
  · have hj := hframe j (hn.isDefined_of_mentions (.linked hs))
    have hi := hframe i (hn.isDefined_of_mentions (.linked ((hn.symmetric j i).trans hs)))
    rw [h.strength?_eq i j hi hj] at hs
    split at hs
    · cases hs
    · next hkept =>
      obtain ⟨hi', hj'⟩ := not_or.1 hkept
      exact ⟨hi', hj', hs⟩

end Memory

namespace Snapshot
open Memory
variable {c s o receiver : Snapshot} {steps : List CalleeStep} {before : Memory}

/-- All that is removed when a call that ends with the memory `u` returns to `receiver`. -/
def removedInReturn (receiver : Snapshot) (u : Memory) (level : Nat) (result : Option Path) :
    List Index :=
  let closed := ({ memory := u, limit := receiver.limits.simplify } : Draft).close level
  u.cells.keys.filter (·.isRootedAtLevel (level + 1)) ++
    closed.memory.removedIn (closed.storingResult level result (u.returned level)
      (ArraySource.held u (.returnSlot (level + 1))))

/-- Returning removes locations, and edges only with them. -/
theorem exists_mergeWithCall_run {level : Nat} (ho : o.memory.Confined (fun _ => True) (level + 1))
    (hopen : receiver.phase = .open before) (result : Option Path) :
    ∃ t, (mergeWithCall result [o]).run receiver = .ok () t ∧
      t.memory.Confined (·.isRootedAtLevel (level + 1) = false) level ∧
      Pruned (·.isRootedAtLevel (level + 1) = true)
        (receiver.removedInReturn o.memory level result) o.memory t.memory := by
  let fresh : Draft := { memory := o.memory, limit := receiver.limits.simplify }
  obtain ⟨d, hd, hlimit, hconsistent, -, hleave⟩ :=
    yields_mergeWithCall (List.cons_ne_nil o [])
      (fun s hs => List.mem_singleton.1 hs ▸ ho.toConsistent)
      (fun s hs => List.mem_singleton.1 hs ▸ ho.level_eq) receiver.limits receiver.memory
  obtain ⟨t, ht, -, hmemory, -⟩ := hleave result receiver rfl rfl ⟨before, hopen⟩
  have hd : d.memory = o.memory := hd
  refine ⟨t, ht, ?_, ?_⟩
  · rw [hmemory]
    exact Draft.confined_storeResult hconsistent (hconsistent.confined_close level) result
  · -- how much has been simplified makes no difference
    have hclose : d.close level = (fresh.close level).recount d.simplified := by
      conv_lhs => rw [d.eq_recount, hd, hlimit]
      rfl
    rw [hmemory, hclose, Draft.storeResult_recount, hd]
    refine (Draft.pruned_close (d := fresh) ho.toConsistent level).trans ?_
    exact Memory.pruned_of_replay (Draft.replay_storingResult ..)

/-- A call by reference leaves no trace in the alias graph of the caller: two locations that have
been there all the time are linked as they were, and no other edge is left. -/
theorem call_by_reference_keeps_aliases (hc : c.Reachable)
    (hrun : (do extendAsCall c; steps.forM fun x => x.operation.perform : Transact Unit).run s =
      .ok () o) (hopen : receiver.phase = .open before) (result : Option Path) :
    ∃ t, (mergeWithCall result [o]).run receiver = .ok () t ∧
      AliasesKept (CalleeStep.removedAlong (s.after (.change (.extendAsCall c))) steps ++
        receiver.removedInReturn o.memory c.memory.level result) c.memory t.memory := by
  have hcaller : c.memory.Confined (fun _ => True) c.memory.level :=
    ⟨(hc.upholds consistent_durable).memory, rfl, fun _ _ => trivial⟩
  obtain ⟨_, u, hextend, hcall⟩ := exists_of_run_bind hrun
  obtain ⟨d, hd, hmemory⟩ := exists_edit_of_perform_run (m := .extendAsCall c) hextend
  cases hd
  -- the frame is opened over all that the caller has
  have hopened : u.memory = { c.memory with level := c.memory.level + 1 } := hmemory.symm
  have hcallee : u.memory.Confined (fun _ => True) (c.memory.level + 1) :=
    hopened ▸ hcaller.withLevel (c.memory.level + 1)
  have henter : Pruned (·.isRootedAtLevel (c.memory.level + 1) = true) [] c.memory u.memory := by
    rw [hopened]
    exact .of_aliases (fun _ => rfl) fun _ => id
  obtain ⟨ho, hsteps⟩ := CalleeStep.steps_run hcallee hcall
  obtain ⟨t, ht, hclosed, hreturn⟩ := exists_mergeWithCall_run ho hopen result
  have hafter : s.after (.change (.extendAsCall c)) = u :=
    after_eq (o := .change (.extendAsCall c)) hextend
  refine ⟨t, ht, ?_⟩
  rw [hafter]
  exact ((henter.trans hsteps).trans hreturn).aliasesKept hclosed

end Snapshot

namespace Sample

/-- A script that has made `$y` a reference to `$x`. -/
def aliasedCaller : Snapshot :=
  let ops : List Operation :=
    [.start, .change (.assignAlias (.ofVariable "y") (.ofVariable "x")), .commit]
  ops.foldl Snapshot.after {}

theorem reachable_aliasedCaller : aliasedCaller.Reachable := by
  refine (Snapshot.Reachable.blank {}).foldl ?_
  simp [Operation.sources, Mutation.sources]

/-- A function with a parameter by reference, to which it writes. -/
def writesThrough : List CalleeStep :=
  [.change (.bindReference "p" (.ofVariable "x")),
    .change (.assign (.ofVariable "p") (.ofValue (.scalar (.integer 2))) false), .commit]

end Sample

namespace Snapshot
open Memory

set_option maxRecDepth 20000 in
/-- The two variables are still one after the call, and hold what has been written. -/
theorem call_by_reference_keeps_aliases_two :
    let c := Sample.aliasedCaller
    let s := after {} .start
    let x : Index := .ofVariable "x" .global
    let y : Index := .ofVariable "y" .global
    c.Reachable ∧ ∃ o t,
      (do extendAsCall c; Sample.writesThrough.forM fun x => x.operation.perform :
        Transact Unit).run s = .ok () o ∧
      (o.memory.aliases (.ofVariable "p" (.frame 1))).strength? x = some .must ∧
      (mergeWithCall none [o]).run Sample.receiver = .ok () t ∧
      AliasesKept (CalleeStep.removedAlong (s.after (.change (.extendAsCall c)))
        Sample.writesThrough ++ Sample.receiver.removedInReturn o.memory c.memory.level none)
        c.memory t.memory ∧
      (t.memory.aliases y).strength? x = some .must ∧
      t.memory.entry? y = some (.ofValue (.scalar (.integer 2))) := by
  intro c s x y
  let call : Transact Unit := do
    extendAsCall c
    Sample.writesThrough.forM fun x => x.operation.perform
  have hrun : call.run s = .ok () (left (call.run s)) :=
    eq_ok_of_failure? (by decide +kernel)
  obtain ⟨t, ht, hkept⟩ := call_by_reference_keeps_aliases Sample.reachable_aliasedCaller hrun
    Sample.phase_receiver none
  have hreturned : let t := left ((mergeWithCall none [left (call.run s)]).run Sample.receiver)
      (t.memory.aliases y).strength? x = some .must ∧
        t.memory.entry? y = some (.ofValue (.scalar (.integer 2))) := by decide +kernel
  rw [ht] at hreturned
  exact ⟨Sample.reachable_aliasedCaller, _, t, hrun, by decide +kernel, ht, hkept, hreturned⟩

end Snapshot
end ScriptMemory
