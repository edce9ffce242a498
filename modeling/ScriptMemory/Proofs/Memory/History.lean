import ScriptMemory.Proofs.Memory.Sweep

/-! The history of an edit: the changes that it is made of, one after the other. Replaying them does
what the edit does, so the history tells what has been removed on the way, even where it is back in
the end. -/
namespace ScriptMemory
open Std

namespace Memory
variable {m n k : Memory} {F : Index → Prop} {lost lost' : List Index}

/-- A single change of memory. Entries are as they are written, within the limit. -/
inductive Change where
  | clear (i : Index)
  | write (i : Index) (e : Entry)
  | declare (o : ObjectValue)

namespace Change

def apply : Change → Memory → Memory
  | clear i, m => m.clearMembers i
  | write i e, m => m.write i e
  | declare o, m => m.declareObject o

/-- The locations that are removed. -/
def removed : Change → Memory → List Index
  | clear i, m => m.below i
  | write i e, m => if e.contains (.array i) then [] else m.below i
  | declare _, _ => []

end Change

def replay (m : Memory) (history : List Change) : Memory :=
  history.foldl (fun m c => c.apply m) m

/-- All that is removed in the course of a history, whether it is back in the end or not. -/
def removedIn : Memory → List Change → List Index
  | _, [] => []
  | m, c :: history => c.removed m ++ removedIn (c.apply m) history

theorem replay_append (m : Memory) (h h' : List Change) :
    m.replay (h ++ h') = (m.replay h).replay h' :=
  List.foldl_append

/-- The memory `n` has the alias edges of `m` that do not lead to what is lost, and no others, where
edges to locations in `F` are left out of account. What is defined in `m` and not lost is defined in
`n`. -/
structure Pruned (F : Index → Prop) (lost : List Index) (m n : Memory) : Prop where
  strength?_eq : ∀ i j, ¬F i → ¬F j → (n.aliases i).strength? j =
    if i ∈ lost ∨ j ∈ lost then none else (m.aliases i).strength? j
  isDefined : ∀ i, m.isDefined i = true → i ∉ lost → n.isDefined i = true

namespace Pruned

theorem of_aliases (ha : ∀ i, n.aliases i = m.aliases i)
    (hd : ∀ i, m.isDefined i = true → n.isDefined i = true) : Pruned F [] m n where
  strength?_eq := by
    intro i j _ _
    rw [ha, if_neg (by simp)]
  isDefined := fun i hi _ => hd i hi

theorem refl (m : Memory) : Pruned F [] m m :=
  of_aliases (fun _ => rfl) fun _ => id

theorem trans (h : Pruned F lost m n) (h' : Pruned F lost' n k) : Pruned F (lost ++ lost') m k where
  strength?_eq := by
    intro i j hi hj
    rw [h'.strength?_eq i j hi hj, h.strength?_eq i j hi hj]
    simp only [List.mem_append]
    by_cases hlost : i ∈ lost ∨ j ∈ lost
    · rw [if_pos hlost, ite_self, if_pos (by tauto)]
    · rw [if_neg hlost]
      refine if_congr ?_ rfl rfl
      tauto
  isDefined := by
    intro i hi hlost
    obtain ⟨hi', hi''⟩ := not_or.1 (mt List.mem_append.2 hlost)
    exact h'.isDefined i (h.isDefined i hi hi') hi''

end Pruned

theorem pruned_clearMembers (m : Memory) (i : Index) :
    Pruned F (m.below i) m (m.clearMembers i) where
  strength?_eq := by
    intro x y _ _
    unfold clearMembers
    rw [strength?_discard]
    simp only [Bool.or_eq_true, mem_contains_ofList]
  isDefined := by
    intro x hx hlost
    refine isDefined_discard.2 ⟨?_, hx⟩
    rwa [← Bool.not_eq_true, mem_contains_ofList]

theorem pruned_write (m : Memory) (i : Index) (e : Entry) :
    Pruned F (Change.removed (.write i e) m) m (m.write i e) := by
  unfold Change.removed
  dsimp only
  split
  · next hown =>
    refine .of_aliases (fun j => ?_) fun j hj => ?_
    · rw [aliases_write, if_pos hown]
    · exact (isDefined_write m i j e).2 (.inr (by rwa [if_pos hown]))
  · next hown =>
    have h := pruned_clearMembers (F := F) m i
    refine ⟨fun x y hx hy => ?_, fun j hj hlost => ?_⟩
    · rw [aliases_write, if_neg hown]
      exact h.strength?_eq x y hx hy
    · exact (isDefined_write m i j e).2 (.inr (by rw [if_neg hown]; exact h.isDefined j hj hlost))

theorem pruned_apply (c : Change) (m : Memory) : Pruned F (c.removed m) m (c.apply m) := by
  cases c with
  | clear i => exact pruned_clearMembers m i
  | write i e => exact pruned_write m i e
  | declare o =>
    exact .of_aliases (aliases_declareObject m o) fun j hj => (isDefined_declareObject ..).trans hj

/-- By induction on the history, change by change. -/
theorem pruned_replay (m : Memory) (history : List Change) :
    Pruned F (m.removedIn history) m (m.replay history) := by
  induction history generalizing m with
  | nil => exact .refl m
  | cons c history ih => exact (pruned_apply c m).trans (ih (c.apply m))

theorem pruned_of_replay {history : List Change} (h : m.replay history = n) :
    Pruned F (m.removedIn history) m n :=
  h ▸ pruned_replay m history

theorem level_replay (m : Memory) (history : List Change) :
    (m.replay history).level = m.level := by
  induction history generalizing m with
  | nil => rfl
  | cons c history ih =>
    have hlevel : (c.apply m).level = m.level := by
      cases c with
      | clear i => rfl
      | write i e => exact level_write m i e
      | declare o => exact level_declareObject m o
    exact (ih (c.apply m)).trans hlevel

end Memory

namespace Draft
open Memory (Change)
variable {α : Type} {d : Draft} {i : Index} {e : Entry} {arrays : List ArraySource} {l : Locations}

/-- The changes that the steps of a fold are made of, where `h` tells those of a single step. -/
def along (f : Draft → α → Draft) (h : Draft → α → List Change) : Draft → List α → List Change
  | _, [] => []
  | d, a :: l => h d a ++ along f h (f d a) l

theorem replay_along {f : Draft → α → Draft} {h : Draft → α → List Change}
    (hstep : ∀ d a, d.memory.replay (h d a) = (f d a).memory) (l : List α) (d : Draft) :
    d.memory.replay (along f h d l) = (l.foldl f d).memory := by
  induction l generalizing d with
  | nil => rfl
  | cons a l ih =>
    unfold along
    rw [Memory.replay_append, hstep]
    exact ih (f d a)

def writing (d : Draft) (i : Index) (e : Entry) : List Change :=
  [.write i (d.fit e)]

theorem replay_writing (d : Draft) (i : Index) (e : Entry) :
    d.memory.replay (d.writing i e) = (d.write i e).memory :=
  (write_memory d i e).symm

def placing (d : Draft) (i : Index) (e : Entry) (hasArray strong : Bool) : List Change :=
  (if strong then [.clear i] else []) ++
    d.writing i (placed (d.memory.entryOrUndefined i) i e hasArray strong)

theorem replay_placing (d : Draft) (i : Index) (e : Entry) (hasArray strong : Bool) :
    d.memory.replay (d.placing i e hasArray strong) = (d.place i e hasArray strong).memory := by
  rw [place_eq, write_memory]
  cases strong <;> rfl

def copying : Nat → Draft → Index → Entry → List ArraySource → Bool → List Change
  | 0, d, i, e, arrays, strong => d.placing i e (!arrays.isEmpty) strong
  | depth + 1, d, i, e, arrays, strong =>
    d.placing i e (!arrays.isEmpty) strong ++
      along
        (fun d s => copy depth d (i.member s) (ArraySource.memberEntry arrays s)
          (ArraySource.memberArrays arrays s) strong)
        (fun d s => copying depth d (i.member s) (ArraySource.memberEntry arrays s)
          (ArraySource.memberArrays arrays s) strong)
        (d.place i e (!arrays.isEmpty) strong) (ArraySource.allSegments arrays).toList

theorem replay_copying (depth : Nat) (d : Draft) (i : Index) (e : Entry)
    (arrays : List ArraySource) (strong : Bool) :
    d.memory.replay (copying depth d i e arrays strong) =
      (copy depth d i e arrays strong).memory := by
  induction depth generalizing d i e arrays with
  | zero => exact replay_placing d i e _ strong
  | succ depth ih =>
    unfold copying
    rw [Memory.replay_append, replay_placing]
    exact replay_along (fun d s => ih d _ _ _) _ _

def storing (d : Draft) (i : Index) (e : Entry) (arrays : List ArraySource) (strong : Bool) :
    List Change :=
  copying (ArraySource.depth arrays) d i e arrays strong

theorem replay_storing (d : Draft) (i : Index) (e : Entry) (arrays : List ArraySource)
    (strong : Bool) :
    d.memory.replay (d.storing i e arrays strong) = (d.store i e arrays strong).memory :=
  replay_copying ..

def storingAll (d : Draft) (l : Locations) (e : Entry) (arrays : List ArraySource)
    (force : Bool) : List Change :=
  along (fun d v => d.store v.2 e arrays (v.1 && (force || !l.unknown)))
    (fun d v => d.storing v.2 e arrays (v.1 && (force || !l.unknown))) d l.visits

theorem replay_storingAll (d : Draft) (l : Locations) (e : Entry) (arrays : List ArraySource)
    (force : Bool) :
    d.memory.replay (d.storingAll l e arrays force) = (d.storeAll l e arrays force).memory := by
  rw [storeAll_eq]
  exact replay_along (fun d v => replay_storing ..) _ d

def adding (d : Draft) (i : Index) (v : Value) (certain : Bool) : List Change :=
  d.writing i (if certain then .ofValue v else (d.memory.entryOrUndefined i).insert v)

def preparing (d : Draft) (s : Segment) (certain : Bool) (i : Index) : List Change :=
  if s.isField then
    if (d.memory.objectsAt i).isEmpty then
      .declare (.madeAt i) ::
        (d.update (·.declareObject (.madeAt i))).adding i (.object (.madeAt i)) certain
    else []
  else if d.memory.holdsArray i then []
  else d.adding i (.array i) certain

theorem replay_preparing (d : Draft) (s : Segment) (certain : Bool) (i : Index) :
    d.memory.replay (d.preparing s certain i) = (d.prepare s certain i).memory := by
  unfold preparing prepare
  dsimp only
  split
  · split
    · exact (write_memory (d.update (·.declareObject (.madeAt i))) i _).symm
    · rfl
  · split
    · rfl
    · exact (write_memory d i _).symm

def preparingAll (d : Draft) (s : Segment) (l : Locations) : List Change :=
  along (fun d v => d.prepare s v.1 v.2) (fun d v => d.preparing s v.1 v.2) d l.visits

/-- The changes on the way down from some locations. -/
def following : List Segment → Draft → Locations → List Change
  | [], _, _ => []
  | s :: segments, d, l =>
    d.preparingAll s (d.memory.expand .all l) ++
      following segments (advance s (d, l)).1 (advance s (d, l)).2

theorem replay_following (segments : List Segment) (d : Draft) (l : Locations) :
    d.memory.replay (following segments d l) =
      (segments.foldl (fun dl s => advance s dl) (d, l)).1.memory := by
  induction segments generalizing d l with
  | nil => rfl
  | cons s segments ih =>
    have hadvance : d.memory.replay (d.preparingAll s (d.memory.expand .all l)) =
        (advance s (d, l)).1.memory := by
      rw [advance_eq]
      exact replay_along (fun d v => replay_preparing ..) _ d
    unfold following
    rw [Memory.replay_append, hadvance]
    exact ih _ _

def resolving (d : Draft) (p : Path) (level : Nat) : List Change :=
  following p.segments d (.ofVariable p level)

theorem replay_resolving (d : Draft) (p : Path) (level : Nat) :
    d.memory.replay (d.resolving p level) = (d.resolve p level).1.memory :=
  replay_following ..

/-- The changes that storing an entry to all that a path denotes is made of. -/
def storingAt (d : Draft) (p : Path) (level : Nat) (e : Entry)
    (arrays : Memory → List ArraySource) (force : Bool) : List Change :=
  d.resolving p level ++ (d.resolve p level).1.storingAll (d.resolve p level).2 e
    (arrays (d.resolve p level).1.memory) force

theorem replay_storingAt (d : Draft) (p : Path) (level : Nat) (e : Entry)
    (arrays : Memory → List ArraySource) (force : Bool) :
    d.memory.replay (d.storingAt p level e arrays force) =
      ((d.resolve p level).1.storeAll (d.resolve p level).2 e
        (arrays (d.resolve p level).1.memory) force).memory := by
  unfold storingAt
  rw [Memory.replay_append, replay_resolving]
  exact replay_storingAll ..

/-- The changes that storing what a call evaluates to is made of. -/
def storingResult (d : Draft) (level : Nat) (result : Option Path) (e : Entry)
    (arrays : List ArraySource) : List Change :=
  match result with
  | some p => d.storingAt p level e (fun _ => arrays) true
  | none => []

theorem replay_storingResult (d : Draft) (level : Nat) (result : Option Path) (e : Entry)
    (arrays : List ArraySource) : d.memory.replay (d.storingResult level result e arrays) =
      (d.storeResult level result e arrays).memory := by
  cases result with
  | some p => exact replay_storingAt d p level e (fun _ => arrays) true
  | none => rfl

/-- The changes that an object is made of. -/
def creating (d : Draft) (o : ObjectValue) (fields : List (String × Entry)) : List Change :=
  let strong := !d.memory.objects.contains o.id
  .declare o ::
    along
      (fun d x => d.store (o.index.member (.field x.1)) x.2 (ArraySource.ofEntry d.memory x.2)
        strong)
      (fun d x => d.storing (o.index.member (.field x.1)) x.2 (ArraySource.ofEntry d.memory x.2)
        strong)
      (d.update (·.declareObject o)) fields

theorem replay_creating {className : String} {site : ObjectId} {fields : List (String × Entry)}
    {o : ObjectValue} {d' : Draft}
    (hrun : (Edit.createObject className site fields).run d = .ok o d') :
    (∀ x ∈ fields, x.2.IsData) ∧
      d.memory.replay (d.creating { id := site, className } fields) = d'.memory := by
  let made : ObjectValue := { id := site, className }
  let x : Edit Unit := fields.forM fun x =>
    Edit.assignIndex (made.index.member (.field x.1)) x.2 (!d.memory.objects.contains site)
  have hbind : (Edit.createObject className site fields).run d =
      (x >>= fun _ => pure made).run (d.update (·.declareObject made)) :=
    rfl
  rw [hbind] at hrun
  obtain ⟨_, d'', hx, hmade⟩ := exists_of_run_bind hrun
  injection hmade with _ hd'
  obtain ⟨hall, heq⟩ := Edit.forM_assignIndex_run
    (i := fun name => made.index.member (.field name)) hx
  refine ⟨hall, ?_⟩
  rw [← hd', heq]
  exact replay_along (fun d x => replay_storing ..) fields (d.update (·.declareObject made))

end Draft
end ScriptMemory
