import ScriptMemory.Proofs.Books.Removal

/-! Books under edit. Every change of a draft is an update of the books, one book after the other,
which reads nothing but the books; where the draft and the books agreed before, they agree after
it. -/
namespace ScriptMemory
open Std

namespace Books

/-- Writes an entry. The members go if the array descriptor does, and the location is listed with
its container before it is written down. -/
def write (b : Books) (i : Index) (e : Entry) : Books :=
  ((if b.hasArray i && !e.contains (.array i) then b.clearMembers i else b).register i).record i e

/-- Adds an alias edge between two locations, in both directions. -/
def link (b : Books) (i target : Index) : Except ContractError Books :=
  if i = target then .ok b
  else do
    let before := b.aliases i
    let (bound, strength) := before.bind target
    let b := b.setAliases i bound
    let b := match strength with
      | .must => b
      | .may => before.must.foldl (fun b j => b.modifyAliases j (·.set i .may)) b
    match strength with
    | .must => return b.setAliases target (← (b.aliases target).insert i .must)
    | .may => return b.setAliases target ((b.aliases target).set i .may)

/-- Replaces the aliases of a location by those that are defined, in both directions. -/
def realias (b : Books) (i : Index) (a : AliasSet) : Books :=
  let kept := a.filter fun j => j ≠ i && b.isDefined j
  let b := (b.aliases i).toList.foldl (fun b j => b.modifyAliases j (·.erase i)) b
  let b := kept.must.foldl (fun b j => b.modifyAliases j (·.set i .must)) b
  let b := kept.may.foldl (fun b j => b.modifyAliases j (·.set i .may)) b
  b.setAliases i kept

theorem members_of_not_hasArray {b : Books} {i : Index} (h : b.hasArray i = false) :
    b.members i = [] := by
  unfold members segments
  unfold hasArray at h
  rw [Option.isSome_eq_false_iff, Option.isNone_iff_eq_none] at h
  rw [h]
  rfl

end Books

namespace Memory
variable {m n : Memory} {i j : Index}

theorem Filed.isData (h : m.Filed) (i : Index) (e : Entry) (he : m.entry? i = some e) : e.IsData :=
  filed_durable.toSurvives.isData h i e he

theorem Filed.write_books (h : m.Filed) (i : Index) (e : Entry) :
    m.books.write i e = (m.write i e).books := by
  have hput {m : Memory} (h : m.Filed) :
      (m.books.register i).record i e = ((m.register i).put i e).books := by
    rw [books_put, books_register]
    intro s hs
    rw [holdsArray_congr (entry?_register m i i)]
    rcases mem_members_register hs with hs | ⟨hm, -⟩
    · exact (h.member i s hs).1
    · exact absurd hm (Index.ne_member i s)
  have hcleared : (m.clearMembers i).Filed := h.discard _
  unfold Books.write Memory.write
  cases hc : e.contains (.array i) with
  | true =>
    rw [Bool.not_true, Bool.and_false, if_neg Bool.false_ne_true, if_pos rfl]
    exact hput h
  | false =>
    rw [Bool.not_false, Bool.and_true, if_neg Bool.false_ne_true, ← hput hcleared]
    cases ha : m.books.hasArray i with
    | true =>
      rw [if_pos rfl, h.clearMembers_books]
    | false =>
      have hclear : m.books.clearMembers i = m.books := by
        unfold Books.clearMembers
        rw [Books.members_of_not_hasArray ha]
        rfl
      rw [if_neg Bool.false_ne_true, ← h.clearMembers_books, hclear]

theorem foldl_modifyAliases_books (m : Memory) (js : List Index) (f : AliasSet → AliasSet) :
    js.foldl (fun b j => b.modifyAliases j f) m.books =
      (js.foldl (fun m j => m.modifyAliases j f) m).books := by
  induction js generalizing m with
  | nil => rfl
  | cons j js ih => rw [List.foldl_cons, List.foldl_cons, ← books_modifyAliases, ih]

theorem link_books (m : Memory) (i j : Index) :
    m.books.link i j = (m.link i j).map books := by
  unfold Books.link link
  rw [aliases_books]
  split
  · rfl
  · dsimp only
    generalize (m.aliases i).bind j = bound
    obtain ⟨bound, strength⟩ := bound
    cases strength with
    | must =>
      dsimp only
      rw [← books_setAliases, aliases_books]
      cases AliasSet.insert ((m.setAliases i bound).aliases j) i .must with
      | ok a => exact congrArg Except.ok (books_setAliases _ j a).symm
      | error e => rfl
    | may =>
      dsimp only
      rw [← books_setAliases, foldl_modifyAliases_books, aliases_books, ← books_setAliases]
      rfl

theorem realias_books (m : Memory) (i : Index) (a : AliasSet) :
    m.books.realias i a = (m.realias i a).books := by
  unfold Books.realias realias
  simp only [isDefined_books, aliases_books, foldl_modifyAliases_books, books_setAliases]

/-- Memory in which nothing is defined. -/
theorem filed_empty : Filed {} where
  symmetric := fun _ _ => rfl
  irreflexive := fun _ => rfl
  held := fun _ _ h => nomatch h
  member := fun _ _ h => absurd h ExtTreeSet.not_mem_empty
  field := fun _ _ h => nomatch h
  members_object := fun _ => rfl

end Memory

/-- The array that `owner` has in some books. -/
structure BookedArray where
  books : Books
  owner : Index

namespace BookedArray

def blank : BookedArray :=
  ⟨{}, .freshArray⟩

def segments (a : BookedArray) : OrdSet Segment :=
  a.books.segments a.owner

def ofEntry (b : Books) (e : Entry) : List BookedArray :=
  e.arrays.map (⟨b, ·⟩)

def allSegments (arrays : List BookedArray) : OrdSet Segment :=
  .ofList (arrays.flatMap (·.segments.toList))

def memberEntry (arrays : List BookedArray) (s : Segment) : Entry :=
  let held := (arrays.filter (·.segments.contains s)).map fun a =>
    a.books.entryOrUndefined (a.owner.member s)
  let joined := held.foldl Entry.join ∅
  if held.length < arrays.length then joined.insert .undefined else joined

def memberArrays (arrays : List BookedArray) (s : Segment) : List BookedArray :=
  (arrays.filter fun a =>
    a.segments.contains s && a.books.hasArray (a.owner.member s)).map fun a =>
      ⟨a.books, a.owner.member s⟩

def depth (arrays : List BookedArray) : Nat :=
  (arrays.map (·.books.shapes.size)).foldl max 0

end BookedArray

namespace ArraySource
variable {a : ArraySource} {arrays : List ArraySource} {s : Segment}

/-- The array as the books of its memory have it. -/
def booked (a : ArraySource) : BookedArray :=
  ⟨a.memory.books, a.owner⟩

theorem booked_blank : blank.booked = .blank := by
  have hbooks : ({} : Memory).books = {} := by
    refine Books.ext_lookup (fun i => ?_) (fun i => ?_) (fun _ => rfl) rfl
    · exact Memory.getElem?_shapes {} i
    · exact Memory.getElem?_entries {} i
  unfold blank booked
  rw [hbooks]
  rfl

theorem booked_ofEntry (m : Memory) (e : Entry) :
    (ofEntry m e).map booked = BookedArray.ofEntry m.books e := by
  unfold ofEntry BookedArray.ofEntry
  rw [List.map_map]
  rfl

theorem segments_booked (h : a.memory.Filed) : a.booked.segments = a.segments :=
  h.segments_books a.owner

theorem depth_booked (arrays : List ArraySource) :
    BookedArray.depth (arrays.map booked) = depth arrays := by
  unfold BookedArray.depth depth
  rw [List.map_map]
  refine congrArg (List.foldl max 0) (List.map_congr_left fun a _ => ?_)
  exact Memory.size_books a.memory

variable (h : ∀ a ∈ arrays, a.memory.Filed)
include h

theorem allSegments_booked : BookedArray.allSegments (arrays.map booked) = allSegments arrays := by
  have hlists : arrays.flatMap (·.booked.segments.toList) = arrays.flatMap (·.segments.toList) :=
    List.flatMap_congr fun a ha => by rw [segments_booked (h a ha)]
  unfold BookedArray.allSegments allSegments
  rw [List.flatMap_map, hlists]

theorem filed_of_mem_memberArrays (ha : a ∈ memberArrays arrays s) : a.memory.Filed := by
  obtain ⟨b, hb, rfl⟩ := List.mem_map.1 ha
  exact h b (List.mem_filter.1 hb).1

/-- The arrays that have a member are told alike. -/
theorem filter_booked {p : BookedArray → Bool} {q : ArraySource → Bool}
    (hpq : ∀ a, a.memory.Filed → p a.booked = q a) :
    (arrays.map booked).filter p = (arrays.filter q).map booked := by
  rw [List.filter_map]
  refine congrArg _ (List.filter_congr fun a ha => ?_)
  exact hpq a (h a ha)

theorem memberEntry_booked (s : Segment) :
    BookedArray.memberEntry (arrays.map booked) s = memberEntry arrays s := by
  have hheld (a : ArraySource) : a.booked.books.entryOrUndefined (a.booked.owner.member s) =
      a.memory.entryOrUndefined (a.owner.member s) := Memory.entryOrUndefined_books a.memory _
  unfold BookedArray.memberEntry memberEntry
  rw [filter_booked h (q := (·.segments.contains s)) fun a ha => by rw [segments_booked ha]]
  simp only [List.map_map, Function.comp_def, hheld, List.length_map]

theorem memberArrays_booked (s : Segment) :
    BookedArray.memberArrays (arrays.map booked) s = (memberArrays arrays s).map booked := by
  have hmember (a : ArraySource) (ha : a.memory.Filed) : (a.booked.segments.contains s &&
      a.booked.books.hasArray (a.booked.owner.member s)) =
        (a.segments.contains s && a.memory.holdsArray (a.owner.member s)) := by
    rw [segments_booked ha]
    exact congrArg _ (Memory.hasArray_books a.memory _)
  unfold BookedArray.memberArrays memberArrays
  rw [filter_booked h hmember, List.map_map, List.map_map]
  rfl

end ArraySource

/-- Books under edit, and the scalars and intervals an entry may hold, if that is bounded. -/
structure Ledger where
  books : Books
  limit : Option Nat

namespace Ledger

def update (l : Ledger) (f : Books → Books) : Ledger :=
  { l with books := f l.books }

/-- The entry as it is written: simplified if it is over the limit. -/
def fit (l : Ledger) (e : Entry) : Entry :=
  (l.limit.bind e.simplify?).getD e

def write (l : Ledger) (i : Index) (e : Entry) : Ledger :=
  l.update (·.write i (l.fit e))

/-- Replaces the entries over the limit. No definition is touched. -/
def simplifyAll (l : Ledger) : Ledger :=
  l.update (·.mapEntries fun _ e => l.fit e)

def place (l : Ledger) (target : Index) (e : Entry) (hasArray strong : Bool) : Ledger :=
  let others := e.filter fun v => v.arrayOwner?.isNone
  let values := if hasArray then others.insert (.array target) else others
  if strong then (l.update (·.clearMembers target)).write target values
  else l.write target ((l.books.entryOrUndefined target).join values)

def copy : Nat → Ledger → Index → Entry → List BookedArray → Bool → Ledger
  | 0, l, target, e, arrays, strong => l.place target e (!arrays.isEmpty) strong
  | depth + 1, l, target, e, arrays, strong =>
    (BookedArray.allSegments arrays).toList.foldl
      (fun l s => copy depth l (target.member s) (BookedArray.memberEntry arrays s)
        (BookedArray.memberArrays arrays s) strong)
      (l.place target e (!arrays.isEmpty) strong)

def store (l : Ledger) (target : Index) (e : Entry) (arrays : List BookedArray) (strong : Bool) :
    Ledger :=
  copy (BookedArray.depth arrays) l target e arrays strong

def storeAll (l : Ledger) (targets : Locations) (e : Entry) (arrays : List BookedArray)
    (force : Bool) : Ledger :=
  let strong := force || !targets.unknown
  let l := targets.must.toList.foldl (fun l i => l.store i e arrays strong) l
  targets.may.toList.foldl (fun l i => l.store i e arrays false) l

/-- Adds a container to a location, in place of what was there or besides it. -/
def add (l : Ledger) (i : Index) (container : Value) (certain : Bool) : Ledger :=
  l.write i (if certain then .ofValue container
    else (l.books.entryOrUndefined i).insert container)

def prepare (l : Ledger) (s : Segment) (certain : Bool) (i : Index) : Ledger :=
  if s.isField then
    if (l.books.objectsAt i).isEmpty then
      (l.update (·.declareObject (.madeAt i))).add i (.object (.madeAt i)) certain
    else l
  else if l.books.hasArray i then l
  else l.add i (.array i) certain

def advance (s : Segment) : Ledger × Locations → Ledger × Locations
  | (l, x) =>
    let x := l.books.expand .all x
    let l := x.must.toList.foldl (prepare · s true) l
    let l := x.may.toList.foldl (prepare · s false) l
    (l, l.books.step x s)

def follow (l : Ledger) (p : Path) (level : Nat) : Ledger × Locations :=
  p.segments.foldl (fun lx s => advance s lx) (l, .ofVariable p level)

def resolve (l : Ledger) (p : Path) (level : Nat) : Ledger × Locations :=
  let (l, x) := l.follow p level
  (l, l.books.expand .all x)

def assign (l : Ledger) (p : Path) (level : Nat) (e : Entry) (force : Bool) : Ledger :=
  let (l, targets) := l.resolve p level
  l.storeAll targets e (BookedArray.ofEntry l.books e) force

def unset (l : Ledger) (p : Path) : Ledger :=
  let targets := l.books.follow .all p l.books.level
  targets.may.toList.foldl
    (fun l i => if l.books.isDefined i then l.store i .undefined [] false else l)
    (l.update (targets.must.toList.foldl Books.remove))

end Ledger

/-- The ledger tells the memory of the draft, which has come about as memory does. -/
structure Draft.Tallies (d : Draft) (l : Ledger) : Prop where
  filed : d.memory.Filed
  told : l = ⟨d.memory.books, d.limit⟩

namespace Draft.Tallies
variable {d : Draft} {l : Ledger} {i : Index} {e : Entry} {arrays : List ArraySource}
  {x : Locations}

theorem update {f : Memory → Memory} {g : Books → Books} (h : d.Tallies l)
    (hf : (f d.memory).Filed) (hg : g d.memory.books = (f d.memory).books) :
    (d.update f).Tallies (l.update g) := by
  obtain ⟨-, rfl⟩ := h
  refine ⟨hf, ?_⟩
  unfold Ledger.update Draft.update
  rw [hg]

theorem write (h : d.Tallies l) (he : e.All (Value.Belongs i)) :
    (d.write i e).Tallies (l.write i e) := by
  have hfiled : (d.write i e).memory.Filed :=
    survives_write Memory.filed_durable.toSurvives h.filed trivial he
  obtain ⟨hd, rfl⟩ := h
  have hfit : (Ledger.mk d.memory.books d.limit).fit e = (d.simplify? e).getD e := rfl
  refine ⟨hfiled, ?_⟩
  rw [Ledger.write, hfit]
  unfold Draft.write
  cases d.simplify? e with
  | none => exact congrArg (Ledger.mk · d.limit) (hd.write_books i e)
  | some f => exact congrArg (Ledger.mk · d.limit) (hd.write_books i f)

/-- Entry by entry, so that no definition is touched. -/
theorem simplifyAll (h : d.Tallies l) : d.simplifyAll.Tallies l.simplifyAll := by
  have hfit (_ : Index) (e : Entry) : e.Coarsened ((d.simplify? e).getD e) :=
    (Entry.writtenAs_getD d.limit e).coarsened
  obtain ⟨hd, rfl⟩ := h
  refine ⟨Memory.filed_durable.mapEntries hd hfit, ?_⟩
  exact congrArg (Ledger.mk · d.limit) (Memory.books_mapEntries d.memory hfit).symm

theorem level (h : d.Tallies l) : l.books.level = d.memory.level := by
  rw [h.told]
  rfl

theorem belongs_entryOrUndefined (h : d.Tallies l) (i : Index) :
    (d.memory.entryOrUndefined i).All (Value.Belongs i) :=
  held_entryOrUndefined Memory.filed_durable.toSurvives h.filed i

theorem entryOrUndefined (h : d.Tallies l) (i : Index) :
    l.books.entryOrUndefined i = d.memory.entryOrUndefined i := by
  rw [h.told]
  exact Memory.entryOrUndefined_books d.memory i

theorem place (h : d.Tallies l) (he : e.IsData) (hasArray strong : Bool) :
    (d.place i e hasArray strong).Tallies (l.place i e hasArray strong) := by
  have hplaced := all_placed (h.belongs_entryOrUndefined i) (Value.belongs_array i)
    (fun v hv => Value.belongs_of_arrayOwner? (he v hv)) hasArray strong
  have heq : l.place i e hasArray strong = (if strong then l.update (·.clearMembers i) else l).write
      i (placed (d.memory.entryOrUndefined i) i e hasArray strong) := by
    unfold Ledger.place placed
    rw [h.entryOrUndefined]
    cases strong <;> rfl
  rw [place_eq, heq]
  cases strong with
  | false => exact h.write hplaced
  | true => exact (h.update (h.filed.discard _) (h.filed.clearMembers_books i)).write hplaced

/-- By induction on the depth; the members are copied one after the other, each into what the last
one left. -/
theorem copy {depth : Nat} (h : d.Tallies l) (he : e.IsData)
    (ha : ∀ a ∈ arrays, a.memory.Filed) (strong : Bool) :
    (Draft.copy depth d i e arrays strong).Tallies
      (Ledger.copy depth l i e (arrays.map ArraySource.booked) strong) := by
  induction depth generalizing d l i e arrays with
  | zero =>
    unfold Draft.copy Ledger.copy
    rw [List.isEmpty_map]
    exact h.place he _ strong
  | succ depth ih =>
    unfold Draft.copy Ledger.copy
    rw [List.isEmpty_map, ArraySource.allSegments_booked ha]
    refine List.foldl_rel (r := Tallies) (h.place he _ strong) fun s _ d l h => ?_
    rw [ArraySource.memberEntry_booked ha, ArraySource.memberArrays_booked ha]
    exact ih h (ArraySource.isData_memberEntry (fun a hmem => (ha a hmem).isData) s)
      fun a => ArraySource.filed_of_mem_memberArrays ha

theorem store (h : d.Tallies l) (he : e.IsData) (ha : ∀ a ∈ arrays, a.memory.Filed)
    (strong : Bool) : (d.store i e arrays strong).Tallies
      (l.store i e (arrays.map ArraySource.booked) strong) := by
  unfold Draft.store Ledger.store
  rw [ArraySource.depth_booked]
  exact h.copy he ha strong

theorem storeAll (h : d.Tallies l) (he : e.IsData) (ha : ∀ a ∈ arrays, a.memory.Filed)
    (force : Bool) : (d.storeAll x e arrays force).Tallies
      (l.storeAll x e (arrays.map ArraySource.booked) force) :=
  List.foldl_rel (r := Tallies)
    (List.foldl_rel (r := Tallies) h fun _ _ _ _ h => h.store he ha _)
    fun _ _ _ _ h => h.store he ha false

theorem add (h : d.Tallies l) {v : Value} (hv : v.Belongs i) (certain : Bool) :
    (d.add i v certain).Tallies (l.add i v certain) := by
  unfold Draft.add Ledger.add
  rw [h.entryOrUndefined]
  apply h.write
  split
  · exact Entry.all_ofValue hv
  · exact (h.belongs_entryOrUndefined i).insert hv

theorem objectsAt (h : d.Tallies l) (i : Index) :
    l.books.objectsAt i = d.memory.objectsAt i := by
  rw [h.told]
  exact Memory.objectsAt_books d.memory i

theorem hasArray (h : d.Tallies l) (i : Index) : l.books.hasArray i = d.memory.holdsArray i := by
  rw [h.told]
  exact Memory.hasArray_books d.memory i

theorem prepare (h : d.Tallies l) (s : Segment) (certain : Bool) :
    (d.prepare s certain i).Tallies (l.prepare s certain i) := by
  unfold Draft.prepare Ledger.prepare
  rw [h.objectsAt, h.hasArray]
  by_cases hs : s.isField = true
  · rw [if_pos hs, if_pos hs]
    by_cases ho : (d.memory.objectsAt i).isEmpty = true
    · rw [if_pos ho, if_pos ho]
      have hdeclared : (d.update (·.declareObject (.madeAt i))).Tallies
          (l.update (·.declareObject (.madeAt i))) :=
        h.update (Memory.filed_durable.declareObject h.filed)
          (Memory.books_declareObject d.memory _).symm
      exact hdeclared.add (Value.belongs_of_arrayOwner? rfl rfl) certain
    · rw [if_neg ho, if_neg ho]
      exact h
  · rw [if_neg hs, if_neg hs]
    by_cases ha : d.memory.holdsArray i = true
    · rw [if_pos ha, if_pos ha]
      exact h
    · rw [if_neg ha, if_neg ha]
      exact h.add (Value.belongs_array i) certain

theorem readIndex (h : d.Tallies l) (i : Index) :
    l.books.readIndex i = d.memory.readIndex i := by
  rw [h.told]
  exact Memory.readIndex_books d.memory i

theorem expand (h : d.Tallies l) (use : AliasReach) (x : Locations) :
    l.books.expand use x = d.memory.expand use x := by
  rw [h.told]
  exact Memory.expand_books d.memory use x

theorem step (h : d.Tallies l) (x : Locations) (s : Segment) :
    l.books.step x s = d.memory.step x s := by
  rw [h.told]
  exact h.filed.step_books x s

/-- The ledger tells the memory of the draft, and both have come to the same locations. -/
def At (dx : Draft × Locations) (lx : Ledger × Locations) : Prop :=
  dx.1.Tallies lx.1 ∧ lx.2 = dx.2

theorem advance {dx : Draft × Locations} {lx : Ledger × Locations} (h : At dx lx) (s : Segment) :
    At (Draft.advance s dx) (Ledger.advance s lx) := by
  obtain ⟨d, x⟩ := dx
  obtain ⟨l, y⟩ := lx
  obtain ⟨h, hy⟩ := h
  change d.Tallies l at h
  change y = x at hy
  have hprepared := List.foldl_rel (r := Tallies) (l := (d.memory.expand .all x).may.toList)
    (List.foldl_rel (r := Tallies) (l := (d.memory.expand .all x).must.toList) h
      fun i _ _ _ h => h.prepare (i := i) s true)
    fun i _ _ _ h => h.prepare (i := i) s false
  unfold Ledger.advance
  dsimp only
  rw [hy, h.expand]
  exact ⟨hprepared, hprepared.step _ s⟩

theorem follow (h : d.Tallies l) (p : Path) (level : Nat) :
    At (d.follow p level) (l.follow p level) :=
  List.foldl_rel (r := At) ⟨h, rfl⟩ fun s _ _ _ h => advance h s

theorem resolve (h : d.Tallies l) (p : Path) (level : Nat) :
    At (d.resolve p level) (l.resolve p level) := by
  obtain ⟨h', hx⟩ := h.follow p level
  refine ⟨h', ?_⟩
  change (l.follow p level).1.books.expand .all (l.follow p level).2 =
    (d.follow p level).1.memory.expand .all (d.follow p level).2
  rw [hx, h'.expand]

theorem booked_ofEntry (h : d.Tallies l) (e : Entry) :
    BookedArray.ofEntry l.books e = (ArraySource.ofEntry d.memory e).map ArraySource.booked := by
  rw [h.told, ArraySource.booked_ofEntry]

theorem filed_ofEntry (h : d.Tallies l) (e : Entry) :
    ∀ a ∈ ArraySource.ofEntry d.memory e, a.memory.Filed := by
  intro a ha
  obtain ⟨i, -, rfl⟩ := List.mem_map.1 ha
  exact h.filed

/-- Arrays are copied from the books that the path has been prepared in. -/
theorem assign (h : d.Tallies l) (he : e.IsData) (p : Path) (level : Nat) (force : Bool) :
    (d.assign p level e force).Tallies (l.assign p level e force) := by
  obtain ⟨h', hx⟩ := h.resolve p level
  unfold Ledger.assign
  dsimp only
  rw [hx, h'.booked_ofEntry]
  exact h'.storeAll he (h'.filed_ofEntry e) force

theorem createArray (h : d.Tallies l) (p : Path) (level : Nat) :
    ((d.resolve p level).1.storeAll (d.resolve p level).2 (.ofValue (.array .freshArray)) [.blank]
      true).Tallies ((l.resolve p level).1.storeAll (l.resolve p level).2
        (.ofValue (.array .freshArray)) [.blank] true) := by
  obtain ⟨h', hx⟩ := h.resolve p level
  have hdata : (Entry.ofValue (.array .freshArray)).IsData := Entry.all_ofValue rfl
  have hblank : ∀ a ∈ [ArraySource.blank], a.memory.Filed := by
    intro a ha
    rw [List.mem_singleton.1 ha]
    exact Memory.filed_empty
  have hstored := h'.storeAll (x := (d.resolve p level).2) hdata hblank true
  rw [hx]
  rwa [List.map_singleton, ArraySource.booked_blank] at hstored

theorem isDefined (h : d.Tallies l) (i : Index) : l.books.isDefined i = d.memory.isDefined i := by
  rw [h.told]
  exact Memory.isDefined_books d.memory i

theorem unset (h : d.Tallies l) (p : Path) : (d.unset p).Tallies (l.unset p) := by
  have hfollow : l.books.follow .all p l.books.level =
      d.memory.follow .all p d.memory.level := by
    rw [h.told]
    exact h.filed.follow_books .all p _
  unfold Draft.unset Ledger.unset
  rw [hfollow]
  apply List.foldl_rel (r := Tallies)
  · exact h.update (h.filed.discard _) (h.filed.remove_all_books _)
  · intro i _ d l h
    rw [h.isDefined]
    split
    · exact h.store Entry.isData_undefined (by simp) false
    · exact h

end Draft.Tallies
end ScriptMemory
