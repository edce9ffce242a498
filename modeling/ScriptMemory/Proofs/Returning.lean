import ScriptMemory.Proofs.Memory.Confinement
import ScriptMemory.Proofs.Memory.Reproduction
import ScriptMemory.Proofs.Memory.Slot
import ScriptMemory.Proofs.Merging
import ScriptMemory.Proofs.Reachability

/-! Returning from a call. The frame that is closed is gone for good, with every mention of it, and
nothing else changes. What a call evaluates to is written to the caller as any other value is, but
for the arrays: they are copied from the return slot, which is gone by then. -/
namespace ScriptMemory
open Std

namespace Entry
variable {e : Entry} {i j : Index}

/-- Null is all that a return adds. -/
theorem array_mem_returned : .array i ∈ e.returned ↔ .array i ∈ e := by
  have herase : .array i ∈ e.erase .undefined ↔ .array i ∈ e := by
    rw [mem_erase]
    exact and_iff_right fun h => nomatch h
  unfold returned
  split
  · rw [mem_insert_iff_of_isSolid (Value.array_isSolid i), herase]
    exact or_iff_right fun h => nomatch h
  · exact herase

end Entry

namespace Memory
variable {m n u : Memory} {sources : List Memory} {i : Index} {level : Nat}

/-- The memory `t` is what is left of `u` once the frame above `level` is closed. -/
structure FrameClosed (level : Nat) (u t : Memory) : Prop where
  level_eq : t.level = level
  gone : ∀ i, i.isRootedAtLevel (level + 1) = true → ¬t.Mentions i
  isDefined_eq : ∀ i, i.isRootedAtLevel (level + 1) = false → t.isDefined i = u.isDefined i
  entry?_eq : ∀ i, i.isRootedAtLevel (level + 1) = false → t.entry? i = u.entry? i
  holdsArray_eq : ∀ i, i.isRootedAtLevel (level + 1) = false → t.holdsArray i = u.holdsArray i
  members_eq : ∀ i, i.isRootedAtLevel (level + 1) = false →
    (t.cell i).members = (u.cell i).members
  objectsAt_eq : ∀ i, i.isRootedAtLevel (level + 1) = false → t.objectsAt i = u.objectsAt i
  aliases_eq : ∀ i, i.isRootedAtLevel (level + 1) = false →
    t.aliases i = (u.aliases i).filter fun j => !j.isRootedAtLevel (level + 1)
  object?_eq : ∀ id : ObjectId, t.objects[id]? = u.objects[id]?

/-- Memory without any location of a frame. -/
theorem Consistent.confined_close {d : Draft} (h : d.memory.Consistent) (level : Nat) :
    (d.close level).memory.Confined (·.isRootedAtLevel (level + 1) = false) level := by
  have hconfined : d.memory.Confined (fun _ => True) d.memory.level := ⟨h, rfl, fun _ _ => trivial⟩
  have hdiscarded := hconfined.discard fun i => i.isRootedAtLevel (level + 1)
  exact (hdiscarded.mono fun _ => And.right).withLevel level

theorem Confined.not_mentions (h : m.Confined (·.isRootedAtLevel (level + 1) = false) level)
    (hi : i.isRootedAtLevel (level + 1) = true) : ¬m.Mentions i :=
  fun hm => Bool.false_ne_true ((h.mentions hm).symm.trans hi)

theorem Consistent.frameClosed {d : Draft} (h : d.memory.Consistent) (level : Nat) :
    FrameClosed level d.memory (d.close level).memory := by
  let gone (i : Index) : Bool := i.isRootedAtLevel (level + 1)
  have hentry (i : Index) (hi : gone i = false) :
      (d.close level).memory.entry? i = d.memory.entry? i := by
    change Memory.entry? (d.memory.discard gone) i = _
    rw [entry?_discard, if_neg (by simp [hi])]
  refine ⟨rfl, fun i hi => (h.confined_close level).not_mentions hi, fun i hi => ?_, hentry,
    fun i hi => holdsArray_congr (hentry i hi), fun i hi => ?_, fun i hi => ?_, fun i hi => ?_,
    fun id => ?_⟩
  · rw [Bool.eq_iff_iff]
    exact isDefined_discard.trans (and_iff_right hi)
  · -- a member belongs to the frame of its container
    change ((d.memory.discard gone).cell i).members = _
    rw [members_discard, if_neg (by simp [gone, hi])]
    refine ExtTreeSet.ext_mem fun s => ?_
    rw [OrdSet.mem_filter]
    exact and_iff_left (congrArg not hi)
  · exact objectsAt_congr (hentry i hi)
  · change (d.memory.discard gone).aliases i = _
    rw [aliases_discard, if_neg (by simp [gone, hi])]
  · change (d.memory.discard gone).objects[id]? = _
    rw [object?_discard]
    refine (Option.map_congr fun o _ => ?_).trans Option.map_id'
    have hfields : (o.fields.filter fun s => !gone ((Index.object id).member s)) = o.fields :=
      ExtTreeSet.ext_mem fun s => OrdSet.mem_filter.trans (and_iff_left rfl)
    rw [hfields]

/-- What several memories hold at a location together. -/
def joinedAt (sources : List Memory) (i : Index) : Entry :=
  (sources.map (·.entryOrUndefined i)).foldl Entry.join ∅

theorem joinedAt_undefined (hne : sources ≠ [])
    (h : ∀ m ∈ sources, m.entryOrUndefined i = .undefined) : joinedAt sources i = .undefined := by
  apply Entry.ext_covers
  intro v
  unfold joinedAt
  rw [Entry.covers_foldl_join]
  constructor
  · rintro (hv | ⟨e, he, hv⟩)
    · exact absurd hv Entry.not_covers_empty
    · obtain ⟨m, hm, rfl⟩ := List.mem_map.1 he
      rwa [← h m hm]
  · intro hv
    obtain ⟨m, hm⟩ := List.exists_mem_of_ne_nil sources hne
    exact .inr ⟨_, List.mem_map.2 ⟨m, hm, rfl⟩, (h m hm).symm ▸ hv⟩

/-- A single memory is taken over as it is; what several of them hold together is simplified. -/
theorem entryOrUndefined_takenOver (hne : sources ≠ []) (limit : Option Nat) (i : Index) :
    (takenOver limit sources).entryOrUndefined i =
      if sources.length = 1 then joinedAt sources i else (joinedAt sources i).fitted limit := by
  unfold takenOver
  split
  · exact (Entry.empty_join _).symm
  · next hseveral =>
    have hlength : sources.length ≠ 1 := by
      intro hone
      obtain ⟨m, hm⟩ := List.length_eq_one_iff.1 hone
      exact hseveral m hm
    rw [if_neg hlength]
    by_cases hdefined : ∃ m ∈ sources, m.isDefined i = true
    · obtain ⟨m, hm, hi⟩ := hdefined
      exact entryOrUndefined_simplified_join hm hi
    · have hnone (m : Memory) (hm : m ∈ sources) : m.entryOrUndefined i = .undefined := by
        apply entryOrUndefined_of_none
        cases he : m.entry? i with
        | none => rfl
        | some e => exact absurd ⟨m, hm, isDefined_of_entry? he⟩ hdefined
      rw [joinedAt_undefined hne hnone, Entry.fits_undefined.fitted_eq]
      apply entryOrUndefined_of_none
      unfold simplified
      rw [entry?_mapEntries, entry?_join, if_neg hdefined]
      rfl

/-- What a call evaluates to that ends with the memory `u` at `level + 1`. -/
def returned (u : Memory) (level : Nat) : Entry :=
  (u.entryOrUndefined (.returnSlot (level + 1))).returned

theorem contains_returned (u : Memory) (level : Nat) :
    (u.returned level).contains (.array (.returnSlot (level + 1))) =
      u.holdsArray (.returnSlot (level + 1)) := by
  rw [holdsArray_eq_contains, Bool.eq_iff_iff, Entry.contains_eq_true, Entry.contains_eq_true]
  exact Entry.array_mem_returned

theorem Consistent.belongs_returned (h : u.Consistent) (level : Nat) :
    (u.returned level).All (Value.Belongs (.returnSlot (level + 1))) :=
  Entry.All.returned (h.held_entryOrUndefined _) (Value.belongs_of_arrayOwner? rfl rfl)

theorem Consistent.isData_returned (h : u.Consistent) (level : Nat) : (u.returned level).IsData :=
  fun v hv => (h.belongs_returned level v hv).1

/-- The arrays that a call returns: the one that the return slot holds, if any. -/
theorem Consistent.arrays_returned (h : u.Consistent) (level : Nat) : (u.returned level).arrays =
    if u.holdsArray (.returnSlot (level + 1)) then [.returnSlot (level + 1)] else [] := by
  rw [Entry.arrays_eq_of_belongs (h.belongs_returned level), contains_returned]

theorem Consistent.ofEntry_returned (h : u.Consistent) (level : Nat) :
    ArraySource.ofEntry u (u.returned level) = ArraySource.held u (.returnSlot (level + 1)) :=
  ArraySource.ofEntry_of_belongs (h.belongs_returned level) (contains_returned u level)

/-- Storing what a call evaluates to at a path in the frame at `level` makes `n` of `m`. The memory
`u` is that at the exits of the call, where the array that is returned is still there. -/
structure Received (limit : Option Nat) (level : Nat) (p : Path) (u m n : Memory) : Prop where
  stored : n = (({ memory := m, limit } : Draft).storeResult level (some p) (u.returned level)
    (ArraySource.held u (.returnSlot (level + 1)))).memory
  /-- A returned array is copied as a whole wherever the write is strong and no other one is in its
  way. -/
  copied : let targets := (({ memory := m, limit } : Draft).resolve p level).2
    ∀ x ∈ targets.must, (∀ id, x ≠ .object id) → targets.All (fun v => v ≠ x → v.Apart x) →
      n.entry? x =
        some (((u.returned level).relocate (.returnSlot (level + 1)) x).fitted limit) ∧
      ({ memory := n, limit } : Draft).Reproduces x u (.returnSlot (level + 1))
  gone : ∀ i, i.isRootedAtLevel (level + 1) = true → ¬n.Mentions i

/-- Unless an array is returned, the path is assigned to as it always is. -/
theorem Received.eq_assign {limit : Option Nat} {p : Path} (h : Received limit level p u m n)
    (hu : u.Consistent) (hnone : u.holdsArray (.returnSlot (level + 1)) = false) :
    n = (({ memory := m, limit } : Draft).assign p level (u.returned level) true).memory := by
  have harrays (k : Memory) : ArraySource.ofEntry k (u.returned level) = [] := by
    unfold ArraySource.ofEntry
    rw [hu.arrays_returned, hnone]
    rfl
  have hheld : ArraySource.held u (.returnSlot (level + 1)) = [] := by
    unfold ArraySource.held
    rw [hnone]
    rfl
  rw [h.stored, hheld]
  unfold Draft.assign Draft.storeResult
  dsimp only
  rw [harrays]

end Memory

namespace Draft

/-- The draft with some more entries counted as simplified. -/
def recount (n : Nat) (d : Draft) : Draft :=
  { d with simplified := d.simplified + n }

variable (n : Nat) (d : Draft) (i : Index) (e : Entry) (arrays : List ArraySource) (p : Path)

theorem write_recount : (d.recount n).write i e = (d.write i e).recount n := by
  have hsimplify : (d.recount n).simplify? e = d.simplify? e := rfl
  unfold write
  rw [hsimplify]
  cases d.simplify? e with
  | some s =>
    unfold recount update
    rw [Draft.mk.injEq]
    exact ⟨rfl, rfl, Nat.add_right_comm ..⟩
  | none => rfl

theorem place_recount (hasArray strong : Bool) :
    (d.recount n).place i e hasArray strong = (d.place i e hasArray strong).recount n := by
  unfold place
  cases strong with
  | true => exact write_recount n (d.update (·.clearMembers i)) i _
  | false => exact write_recount n d i _

theorem copy_recount (depth : Nat) (strong : Bool) :
    copy depth (d.recount n) i e arrays strong = (copy depth d i e arrays strong).recount n := by
  induction depth generalizing d i e arrays with
  | zero => exact place_recount n d i e _ strong
  | succ depth ih =>
    unfold copy
    rw [place_recount]
    exact List.foldl_hom (recount n) fun d s => ih d _ _ _

theorem storeAll_recount (l : Locations) (force : Bool) :
    (d.recount n).storeAll l e arrays force = (d.storeAll l e arrays force).recount n := by
  have hstep (strong : Bool) (d : Draft) (i : Index) :
      (d.recount n).store i e arrays strong = (d.store i e arrays strong).recount n :=
    copy_recount n d i e arrays _ strong
  unfold storeAll
  dsimp only
  rw [List.foldl_hom (recount n) (hstep _), List.foldl_hom (recount n) (hstep false)]

theorem prepare_recount (s : Segment) (certain : Bool) :
    (d.recount n).prepare s certain i = (d.prepare s certain i).recount n := by
  rcases d.prepare_cases s certain i with ⟨hopened, heq⟩ | ⟨hs, hnone, heq⟩ | ⟨hs, hnone, heq⟩
  · rw [heq]
    exact prepare_of_opened (d := d.recount n) hopened certain
  · rw [heq, prepare_field (d := d.recount n) hs hnone]
    exact write_recount n (d.update (·.declareObject (.madeAt i))) i _
  · rw [heq, prepare_key (d := d.recount n) hs hnone]
    exact write_recount n d i _

theorem advance_recount (s : Segment) (l : Locations) : advance s (d.recount n, l) =
    ((advance s (d, l)).1.recount n, (advance s (d, l)).2) := by
  have hstep (certain : Bool) (d : Draft) (i : Index) :
      (d.recount n).prepare s certain i = (d.prepare s certain i).recount n :=
    prepare_recount n d i s certain
  unfold advance
  dsimp only
  rw [List.foldl_hom (recount n) (hstep true), List.foldl_hom (recount n) (hstep false)]
  rfl

theorem resolve_recount (level : Nat) : (d.recount n).resolve p level =
    ((d.resolve p level).1.recount n, (d.resolve p level).2) := by
  have hfollow : (d.recount n).follow p level =
      ((d.follow p level).1.recount n, (d.follow p level).2) :=
    @List.foldl_hom _ _ _ (fun dl : Draft × Locations => (dl.1.recount n, dl.2)) _ _ p.segments
      (d, .ofVariable p level) fun dl s => advance_recount n dl.1 s dl.2
  unfold resolve
  rw [hfollow]
  rfl

theorem storeResult_recount (level : Nat) (result : Option Path) :
    (d.recount n).storeResult level result e arrays =
      (d.storeResult level result e arrays).recount n := by
  cases result with
  | none => rfl
  | some p =>
    unfold storeResult
    dsimp only
    rw [resolve_recount]
    exact storeAll_recount n _ e arrays _ true

end Draft

namespace Draft
variable {d : Draft} {level : Nat}

/-- The counter apart, a draft is its memory and its limit. -/
theorem eq_recount (d : Draft) :
    d = ({ memory := d.memory, limit := d.limit } : Draft).recount d.simplified := by
  unfold recount
  dsimp only
  rw [Nat.zero_add]

/-- The closed frame does not come back with the result. -/
theorem confined_storeResult {u : Memory} (hu : u.Consistent)
    (hd : d.memory.Confined (·.isRootedAtLevel (level + 1) = false) level) (result : Option Path) :
    (d.storeResult level result (u.returned level)
      (ArraySource.held u (.returnSlot (level + 1)))).memory.Confined
        (·.isRootedAtLevel (level + 1) = false) level := by
  refine survives_storeResult (Memory.confined_survives (fun _ => rfl) fun _ _ h => h) hd result
    (fun p _ => Memory.all_ofVariable ?_) (hu.isData_returned level)
    fun a => ArraySource.isData_of_mem_held hu
  rw [← Bool.not_eq_true, Index.isRootedAtLevel_iff]
  exact Nat.ne_of_lt (Nat.lt_succ_of_le (Index.frame_indexAt_le p level))

theorem received_storeResult {u : Memory} (hu : u.Consistent)
    (hd : d.memory.Confined (·.isRootedAtLevel (level + 1) = false) level) (p : Path) :
    Memory.Received d.limit level p u d.memory (d.storeResult level (some p) (u.returned level)
      (ArraySource.held u (.returnSlot (level + 1)))).memory := by
  have hdata := hu.isData_returned level
  constructor
  · rw [d.eq_recount, storeResult_recount]
    rfl
  · -- the certain locations are those that the draft itself finds
    have htargets : (({ memory := d.memory, limit := d.limit } : Draft).resolve p level).2 =
        (d.resolve p level).2 := by
      conv_rhs => rw [d.eq_recount, resolve_recount]
    dsimp only
    rw [htargets]
    intro x hmust hx hapart
    have hresolved := (survives_resolve Memory.consistent_durable.toSurvives hd.toConsistent
      (Edit.all_true p level)).1
    have hseparate := Memory.separate_expand (d.follow p level).1.memory .all (d.follow p level).2
    obtain ⟨hcopied, old, hentry⟩ := reproduces_storeAll (l := (d.resolve p level).2)
      (y := .returnSlot (level + 1)) hresolved hu hdata hseparate hmust hx hapart
    constructor
    · rw [Entry.placed_eq_relocate _ _ _ (Memory.contains_returned u level).symm] at hentry
      refine hentry.trans (congrArg some ?_)
      exact fit_congr (d := d) (limit_resolve d p level) _
    · refine ⟨hcopied.members, fun s segments hl => (hcopied.entry s segments hl).trans ?_⟩
      refine congrArg some (fit_congr ?_ _)
      exact (limit_storeAll ..).trans (limit_resolve d p level)
  · exact fun i => (confined_storeResult hu hd (some p)).not_mentions

end Draft

namespace Snapshot
open Memory
variable {outputs : List Snapshot} {receiver : Snapshot} {before : Memory} {level : Nat}

/-- At the exits of a call the memory is taken over; then the frame is closed, and the result is
stored. -/
theorem yields_mergeWithCall (hne : outputs ≠ []) (hconsistent : ∀ s ∈ outputs, s.memory.Consistent)
    (hlevel : ∀ s ∈ outputs, s.memory.level = level + 1) (limits : Limits) (m : Memory) :
    ∃ d : Draft, d.memory = takenOver limits.simplify (outputs.map (·.memory)) ∧
      d.limit = limits.simplify ∧ d.memory.Consistent ∧
      Transact.Yields (extend outputs) limits m () d.memory ∧
      ∀ result, Transact.Yields (mergeWithCall result outputs) limits m ()
        ((d.close level).storeResult level result (d.memory.returned level)
          (ArraySource.held d.memory (.returnSlot (level + 1)))).memory := by
  let sources := outputs.map (·.memory)
  have hne' : sources ≠ [] := by simpa [sources] using hne
  have hsources : ∀ m ∈ sources, m.Confined (fun _ => True) (level + 1) := by
    intro m hm
    obtain ⟨s, hs, rfl⟩ := List.mem_map.1 hm
    exact ⟨hconsistent s hs, hlevel s hs, fun _ _ => trivial⟩
  obtain ⟨d, hd, hlimit, hrun⟩ := Edit.extend_run hne' (fun m hm => (hsources m hm).level_eq)
    limits.simplify
  have htaken := confined_takenOver hne' hsources limits.simplify
  rw [← hd] at htaken
  refine ⟨d, hd, hlimit, htaken.toConsistent, Transact.Yields.mutate (hrun m), fun result => ?_⟩
  rw [← htaken.toConsistent.ofEntry_returned]
  exact Transact.Yields.mutate (Edit.leaveCall_eq result (hrun m) htaken.level_eq)

/-- Returning closes the frame of the call and touches nothing else. With a path for the result, it
does in addition what an assignment of the returned entry to the path does in the frame below,
except that an array is copied from the return slot as the call has left it. -/
theorem mergeWithCall_closes_frame (hne : outputs ≠ []) (hreach : ∀ s ∈ outputs, Reachable s)
    (hlevel : ∀ s ∈ outputs, s.memory.level = level + 1) (hopen : receiver.phase = .open before) :
    ∃ u t, (extend outputs).run receiver = .ok () u ∧
      (mergeWithCall none outputs).run receiver = .ok () t ∧
      FrameClosed level u.memory t.memory ∧
      u.memory.entryOrUndefined (.returnSlot (level + 1)) =
        (if outputs.length = 1 then joinedAt (outputs.map (·.memory)) (.returnSlot (level + 1))
        else (joinedAt (outputs.map (·.memory)) (.returnSlot (level + 1))).fitted
          receiver.limits.simplify) ∧
      ∀ p, ∃ t', (mergeWithCall (some p) outputs).run receiver = .ok () t' ∧
        Received receiver.limits.simplify level p u.memory t.memory t'.memory ∧
        (u.memory.holdsArray (.returnSlot (level + 1)) = false →
          ∃ w, (assign p (u.memory.returned level) true).run t = .ok () w ∧
            w.memory = t'.memory) := by
  have hconsistent : ∀ s ∈ outputs, s.memory.Consistent := fun s hs =>
    ((hreach s hs).upholds consistent_durable).memory
  obtain ⟨d, hd, hlimit, hconsistent, hextend, hleave⟩ :=
    yields_mergeWithCall hne hconsistent hlevel receiver.limits receiver.memory
  obtain ⟨u, hu, -, hum, -⟩ := hextend receiver rfl rfl ⟨before, hopen⟩
  obtain ⟨t, ht, htl, htm, htp, -⟩ := hleave none receiver rfl rfl ⟨before, hopen⟩
  have htm : t.memory = (d.close level).memory := htm
  refine ⟨u, t, hu, ht, ?_, ?_, fun p => ?_⟩
  · rw [hum, htm]
    exact hconsistent.frameClosed level
  · rw [hum, hd, entryOrUndefined_takenOver (by simpa using hne), List.length_map]
  · obtain ⟨t', ht', -, htm', -⟩ := hleave (some p) receiver rfl rfl ⟨before, hopen⟩
    have hreceived : Received receiver.limits.simplify level p u.memory t.memory t'.memory := by
      rw [hum, htm, htm', ← hlimit]
      exact Draft.received_storeResult hconsistent (hconsistent.confined_close level) p
    refine ⟨t', ht', hreceived, fun hnone => ?_⟩
    -- the frame below is the one that the assignment is made in
    have hlevel : t.memory.level = level := by rw [htm]; rfl
    have hassign : Transact.Yields (assign p (u.memory.returned level) true) receiver.limits
        t.memory () _ :=
      Transact.Yields.mutate (Edit.assign_run _ p (hum ▸ hconsistent.isData_returned level) true)
    obtain ⟨w, hw, -, hwm, -⟩ := hassign t htl rfl ⟨before, htp.trans hopen⟩
    refine ⟨w, hw, hwm.trans ?_⟩
    rw [hreceived.eq_assign (hum ▸ hconsistent) hnone]
    exact congrArg (fun k => (Draft.assign _ p k _ true).memory) hlevel

end Snapshot

namespace Sample

/-- The exit of a function that the empty script calls. -/
def exitOf (changes : List Mutation) : Snapshot :=
  let ops : List Operation :=
    .start :: .change (.extendAsCall {}) :: changes.map Operation.change ++ [.commit]
  ops.foldl Snapshot.after {}

theorem reachable_exitOf {changes : List Mutation} (h : ∀ m ∈ changes, m.sources = []) :
    (exitOf changes).Reachable := by
  refine (Snapshot.Reachable.blank {}).foldl ?_
  intro o ho t ht
  simp only [List.cons_append, List.mem_cons, List.mem_append, List.mem_map] at ho
  rcases ho with rfl | rfl | ⟨m, hm, rfl⟩ | rfl | ho
  · cases ht
  · rw [List.mem_singleton.1 ht]
    exact .blank {}
  · rw [Operation.sources, h m hm] at ht
    cases ht
  · cases ht
  · cases ho

/-- The function returns an array with one element. -/
def arrayExit : Snapshot :=
  exitOf [.assign ((Path.ofVariable "a").member (.key (.integer 1)))
      (.ofValue (.scalar (.integer 7))) false,
    .assignReturn (.ofValue (.array (.ofVariable "a" (.frame 1))))]

/-- The function returns a number. -/
def numberExit (n : Int64) : Snapshot :=
  exitOf [.assignReturn (.ofValue (.scalar (.integer n)))]

/-- The function returns nothing. -/
def emptyExit : Snapshot :=
  exitOf []

end Sample

namespace Snapshot
open Memory

set_option maxRecDepth 20000 in
/-- An array or nothing is returned, and stored to a variable of the script. -/
theorem mergeWithCall_closes_frame_array :
    let outputs := [Sample.arrayExit, Sample.emptyExit]
    let x : Index := .ofVariable "r" .global
    (∀ s ∈ outputs, Reachable s) ∧ (∀ s ∈ outputs, s.memory.level = 1) ∧
      ∃ u t t', (extend outputs).run Sample.receiver = .ok () u ∧
        (mergeWithCall none outputs).run Sample.receiver = .ok () t ∧
        FrameClosed 0 u.memory t.memory ∧
        (mergeWithCall (some (.ofVariable "r")) outputs).run Sample.receiver = .ok () t' ∧
        Received none 0 (.ofVariable "r") u.memory t.memory t'.memory ∧
        t'.memory.entry? (x.member (.key (.integer 1))) =
          some (Entry.undefined.insert (.scalar (.integer 7))) := by
  intro outputs x
  have hreach : ∀ s ∈ outputs, Reachable s := by
    simp only [outputs, List.forall_mem_cons]
    exact ⟨Sample.reachable_exitOf (by simp [Mutation.sources]),
      Sample.reachable_exitOf (by simp), List.forall_mem_nil _⟩
  have hlevel : ∀ s ∈ outputs, s.memory.level = 1 := by decide +kernel
  obtain ⟨u, t, hu, ht, hclosed, -, hresult⟩ :=
    mergeWithCall_closes_frame (List.cons_ne_nil _ _) hreach hlevel Sample.phase_receiver
  obtain ⟨t', ht', hreceived, -⟩ := hresult (.ofVariable "r")
  have hentry : Memory.entry? (left ((mergeWithCall (some (.ofVariable "r")) outputs).run
      Sample.receiver)).memory (x.member (.key (.integer 1))) =
        some (Entry.undefined.insert (.scalar (.integer 7))) := by decide +kernel
  rw [ht'] at hentry
  exact ⟨hreach, hlevel, u, t, t', hu, ht, hclosed, ht', hreceived, hentry⟩

set_option maxRecDepth 20000 in
/-- One of two numbers or nothing is returned to a script whose entries hold one scalar at most.
The numbers are simplified before null takes the place of nothing, and null is left as it is;
assigning all that is returned at once simplifies null as well. -/
theorem mergeWithCall_simplifies_first :
    let outputs := [Sample.numberExit 1, Sample.numberExit 2, Sample.emptyExit]
    let receiver := after { limits := { simplify := some 1 } } .start
    let r : Path := .ofVariable "r"
    let closing : Operation := .change (.mergeWithCall none outputs)
    let storing : Operation := .change (.mergeWithCall (some r) outputs)
    let assigning : Operation := .change
      (.assign r (joinedAt (outputs.map (·.memory)) (.returnSlot 1)).returned true)
    (∀ s ∈ outputs, Reachable s ∧ s.memory.level = 1) ∧ Reachable receiver ∧
      failure? (closing.perform.run receiver) = none ∧
      failure? (storing.perform.run receiver) = none ∧
      failure? (assigning.perform.run (receiver.after closing)) = none ∧
      (receiver.after storing).memory.read r =
        (Entry.ofValue (.scalar .null)).insert (.anyOf .integer) ∧
      ((receiver.after closing).after assigning).memory.read r =
        (Entry.ofValue (.anyOf .null)).insert (.anyOf .integer) := by
  intro outputs receiver r closing storing assigning
  have hlevel : ∀ s ∈ outputs, s.memory.level = 1 := by decide +kernel
  have hreach : ∀ s ∈ outputs, Reachable s := by
    simp only [outputs, List.forall_mem_cons]
    exact ⟨Sample.reachable_exitOf (by simp [Mutation.sources]),
      Sample.reachable_exitOf (by simp [Mutation.sources]), Sample.reachable_exitOf (by simp),
      List.forall_mem_nil _⟩
  have hreceiver : Reachable receiver :=
    (Reachable.blank _).after .start (by simp [Operation.sources])
  refine ⟨fun s hs => ⟨hreach s hs, hlevel s hs⟩, hreceiver, ?_⟩
  decide +kernel

end Snapshot
end ScriptMemory
