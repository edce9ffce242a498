import ScriptMemory.Proofs.Memory.Consistent

/-! Structure and data kept as separate books. Memory stores neither which locations have an array
nor which objects they may hold, since entries tell; here both are written down apart from the
entries, and every change of memory becomes an update of each book on its own. The books that are
kept so are those that memory tells. -/
namespace ScriptMemory
open Std

/-- The shapes, the entries and the objects of memory, each for itself. -/
structure Books where
  shapes : OrdMap Index Memory.Shape := ∅
  entries : OrdMap Index Entry := ∅
  objects : OrdMap ObjectId ObjectDescriptor := ∅
  level : Nat := 0

section
variable {α : Type} [Ord α] [TransOrd α] [LawfulEqOrd α]

/-- Two increasing lists with the same members are the same. -/
theorem eq_of_increasing {l l' : List α} (h : l.Pairwise fun a b => compare a b = .lt)
    (h' : l'.Pairwise fun a b => compare a b = .lt) (hm : ∀ a, a ∈ l ↔ a ∈ l') : l = l' := by
  have hnodup {l : List α} (h : l.Pairwise fun a b => compare a b = .lt) : l.Nodup := by
    refine h.imp fun {a b} hab he => ?_
    simp [he] at hab
  refine ((List.perm_ext_iff_of_nodup (hnodup h) (hnodup h')).2 hm).eq_of_pairwise ?_ h h'
  intro a b _ _ hab hba
  rw [OrientedOrd.eq_swap, hba] at hab
  cases hab

end

namespace Entry
variable {e f : Entry}

theorem mem_objects {o : ObjectValue} : o ∈ e.objects ↔ .object o ∈ e := by
  simp only [objects, List.mem_filterMap, mem_toList]
  constructor
  · rintro ⟨v, hv, ho⟩
    cases v with
    | object p =>
      cases ho
      exact hv
    | _ => cases ho
  · exact fun h => ⟨_, h, rfl⟩

theorem objects_increasing (e : Entry) : e.objects.Pairwise fun o p => compare o p = .lt := by
  have hvalues : e.toList.Pairwise fun v w => compare v w = .lt := ExtTreeSet.ordered_toList
  refine List.pairwise_filterMap.2 (hvalues.imp fun {v w} hvw o ho p hp => ?_)
  cases v with
  | object o' =>
    cases w with
    | object p' =>
      cases ho
      cases hp
      exact hvw
    | _ => cases hp
  | _ => cases ho

/-- The objects of an entry in order are told by membership alone. -/
theorem objects_eq {l : List ObjectValue} (hl : l.Pairwise fun o p => compare o p = .lt)
    (h : ∀ o, .object o ∈ e ↔ o ∈ l) : e.objects = l :=
  eq_of_increasing e.objects_increasing hl fun o => mem_objects.trans (h o)

/-- Losing detail concerns kinds and what simplification and absorption are about. -/
theorem Coarsened.mem_iff (h : e.Coarsened f) {v : Value} (hv : v.IsSolid)
    (hn : v.isSimplifiable = false) (hk : ∀ k, v ≠ .anyOf k) (hi : ∀ i, v ≠ .interval i) :
    v ∈ f ↔ v ∈ e := by
  refine ⟨fun hmem => ?_, fun hmem => h.kept v hmem hv hn⟩
  rcases h.new v hmem with hmem | ⟨k, heq⟩ | ⟨i, heq⟩
  · exact hmem
  · exact absurd heq (hk k)
  · exact absurd heq (hi i)

theorem Coarsened.objects_eq (h : e.Coarsened f) : f.objects = e.objects := by
  refine Entry.objects_eq e.objects_increasing fun o => ?_
  rw [h.mem_iff (Value.object_isSolid o) rfl nofun nofun, mem_objects]

theorem Coarsened.array_mem_iff (h : e.Coarsened f) {i : Index} : .array i ∈ f ↔ .array i ∈ e :=
  h.mem_iff (Value.array_isSolid i) rfl nofun nofun

theorem Coarsened.info_mem_iff (h : e.Coarsened f) {g : Finding} : .info g ∈ f ↔ .info g ∈ e :=
  h.mem_iff (Value.info_isSolid g) rfl nofun nofun

end Entry

namespace Books
variable {b c : Books} {i j : Index}

theorem ext_lookup (hs : ∀ i : Index, b.shapes[i]? = c.shapes[i]?)
    (he : ∀ i : Index, b.entries[i]? = c.entries[i]?)
    (ho : ∀ id : ObjectId, b.objects[id]? = c.objects[id]?) (hl : b.level = c.level) : b = c := by
  cases b
  cases c
  dsimp only at hs he ho hl
  rw [ExtTreeMap.ext_getElem? hs, ExtTreeMap.ext_getElem? he, ExtTreeMap.ext_getElem? ho, hl]

/-- A location without definition. -/
def blank : Memory.Shape where
  aliases := ∅
  members := none
  objects := []

def shapeAt (b : Books) (i : Index) : Memory.Shape :=
  b.shapes[i]?.getD blank

/-- The books of a blank snapshot. -/
def initial : Books where
  shapes := (∅ : OrdMap Index Memory.Shape).insert .diagnostics blank
  entries := (∅ : OrdMap Index Entry).insert .diagnostics ∅

/-- Strikes locations off every book. -/
def discard (b : Books) (gone : Index → Bool) : Books :=
  { b with
    shapes := b.shapes.filterMap fun i d => if gone i then none else some { d with
      aliases := d.aliases.filter fun j => !gone j
      members := d.members.map fun ms => ms.filter fun s => !gone (i.member s) }
    entries := b.entries.filter fun i _ => !gone i
    objects := b.objects.map fun id d =>
      { d with fields := d.fields.filter fun s => !gone ((Index.object id).member s) } }

/-- Lists a member with its object, or with the array above it if there is one. -/
def register (b : Books) : Index → Books
  | .root _ => b
  | .member (.root (.object id)) s =>
    { b with objects := b.objects.modify id fun d => { d with fields := d.fields.insert s } }
  | .member parent s =>
    { b with shapes := b.shapes.modify parent fun d =>
        { d with members := d.members.map fun ms => ms.insert s } }

/-- Writes an entry down. The array descriptor comes and goes with the array in the entry, and the
objects are written down anew. -/
def record (b : Books) (i : Index) (e : Entry) : Books :=
  { b with
    shapes := b.shapes.insert i
      { aliases := (b.shapeAt i).aliases
        members := if e.contains (.array i) then some ((b.shapeAt i).members.getD ∅) else none
        objects := e.objects }
    entries := b.entries.insert i e }

def setAliases (b : Books) (i : Index) (a : AliasSet) : Books :=
  { b with shapes := b.shapes.insert i { b.shapeAt i with aliases := a } }

def modifyAliases (b : Books) (i : Index) (f : AliasSet → AliasSet) : Books :=
  { b with shapes := b.shapes.modify i fun d => { d with aliases := f d.aliases } }

def declareObject (b : Books) (o : ObjectValue) : Books :=
  if b.objects.contains o.id then b
  else { b with objects := b.objects.insert o.id { className := o.className } }

/-- Rewrites entries. No shape is touched. -/
def mapEntries (b : Books) (f : Index → Entry → Entry) : Books :=
  { b with entries := b.entries.map f }

/-- Joins book by book: structure first, then data. -/
def join (sources : List Books) (level : Nat) : Books where
  shapes := .tabulate (.ofList (sources.flatMap (·.shapes.keys))) fun i =>
    let shapes := sources.map (·.shapeAt i)
    let arrays := shapes.filterMap (·.members)
    { aliases := .merge (shapes.map (·.aliases))
      members := if arrays.isEmpty then none else some (.ofList (arrays.flatMap (·.toList)))
      objects := (ExtTreeSet.ofList (shapes.flatMap (·.objects)) : OrdSet ObjectValue).toList }
  entries := .tabulate (.ofList (sources.flatMap (·.shapes.keys))) fun i =>
    (sources.map fun b => b.entries[i]?.getD .undefined).foldl Entry.join ∅
  objects := .tabulate (.ofList (sources.flatMap (·.objects.keys))) fun id =>
    ObjectDescriptor.join (sources.filterMap (·.objects[id]?))
  level := level

end Books

namespace Memory
variable {m n : Memory} {i j : Index} {e : Entry}

/-- The books that memory tells. -/
def books (m : Memory) : Books :=
  ⟨m.shapes, m.entries, m.objects, m.level⟩

theorem sameStructure_iff :
    m.sameStructure n = true ↔ m.shapes = n.shapes ∧ m.objects = n.objects ∧ m.level = n.level := by
  simp only [sameStructure, Bool.and_eq_true, decide_eq_true_eq, and_assoc]

def shape (m : Memory) (i : Index) : Shape where
  aliases := m.aliases i
  members := if m.holdsArray i then some (m.cell i).members else none
  objects := m.objectsAt i

theorem getElem?_shapes (m : Memory) (i : Index) :
    m.shapes[i]? = if m.isDefined i then some (m.shape i) else none := by
  have hget : m.shapes[i]? = m.cells[i]?.map fun c : Cell => ({
      aliases := c.aliases
      members := if m.holdsArray i then some c.members else none
      objects := m.objectsAt i } : Shape) := ExtTreeMap.getElem?_map
  rw [hget]
  unfold isDefined shape aliases cell
  rw [ExtTreeMap.contains_eq_isSome_getElem?]
  cases m.cells[i]? <;> rfl

theorem getElem?_entries (m : Memory) (i : Index) : m.entries[i]? = m.entry? i := by
  have hget : m.entries[i]? = m.cells[i]?.bind (·.entry) := ExtTreeMap.getElem?_filterMap'
  rw [hget]
  unfold entry? cell
  cases m.cells[i]? <;> rfl

theorem shape_of_not_isDefined (h : ¬m.isDefined i = true) : m.shape i = Books.blank := by
  unfold shape holdsArray objectsAt aliases entry?
  rw [cell_of_not_isDefined h]
  rfl

theorem shapeAt_books (m : Memory) (i : Index) : m.books.shapeAt i = m.shape i := by
  change m.shapes[i]?.getD _ = _
  rw [getElem?_shapes]
  split
  · rfl
  · next h => exact (shape_of_not_isDefined h).symm

/-- Two locations of one shape. -/
theorem shape_congr (ha : n.aliases i = m.aliases i) (he : n.entry? i = m.entry? i)
    (hm : (n.cell i).members = (m.cell i).members) : n.shape i = m.shape i := by
  unfold shape holdsArray objectsAt
  rw [ha, he, hm]

theorem isDefined_eq_of_shapes (h : m.shapes = n.shapes) (i : Index) :
    m.isDefined i = n.isDefined i := by
  have hi : m.shapes[i]? = n.shapes[i]? := congrArg (·[i]?) h
  rw [getElem?_shapes, getElem?_shapes] at hi
  cases hm : m.isDefined i <;> cases hn : n.isDefined i <;> simp [hm, hn] at hi ⊢

theorem shape_eq_of_shapes (h : m.shapes = n.shapes) (i : Index) : m.shape i = n.shape i := by
  rw [← shapeAt_books, ← shapeAt_books]
  exact congrArg (fun shapes : OrdMap Index Shape => shapes[i]?.getD Books.blank) h

/-- A location lists members only where it holds its own array, so shape and entry hide none. -/
theorem Consistent.cell_congr (hm : m.Consistent) (hn : n.Consistent)
    (hshape : m.shape i = n.shape i) (hentry : m.entry? i = n.entry? i) : m.cell i = n.cell i := by
  have haliases : (m.cell i).aliases = (n.cell i).aliases := congrArg Shape.aliases hshape
  have hholds : m.holdsArray i = n.holdsArray i := holdsArray_congr hentry
  have hmembers : (m.cell i).members = (n.cell i).members := by
    have hlisted := congrArg Shape.members hshape
    unfold shape at hlisted
    dsimp only at hlisted
    rw [hholds] at hlisted
    split at hlisted
    · exact Option.some.inj hlisted
    · next hnone =>
      apply ExtTreeSet.ext_mem
      intro s
      exact iff_of_false (fun hs => hnone (hholds ▸ (hm.member i s hs).1))
        fun hs => hnone (hn.member i s hs).1
  calc m.cell i = ⟨m.entry? i, (m.cell i).aliases, (m.cell i).members⟩ := rfl
    _ = n.cell i := by rw [hentry, haliases, hmembers]; rfl

/-- Structure and data are all there is to memory. -/
theorem Consistent.books_injective (hm : m.Consistent) (hn : n.Consistent)
    (h : m.books = n.books) : m = n := by
  have hshapes : m.shapes = n.shapes := congrArg Books.shapes h
  have hobjects : m.objects = n.objects := congrArg Books.objects h
  have hentry (i : Index) : m.entry? i = n.entry? i := by
    rw [← getElem?_entries, ← getElem?_entries]
    exact congrArg (fun b : Books => b.entries[i]?) h
  exact ext_cell (isDefined_eq_of_shapes hshapes)
    (fun i => hm.cell_congr hn (shape_eq_of_shapes hshapes i) (hentry i))
    (fun id => by rw [hobjects]) (congrArg Books.level h)

theorem books_discard (m : Memory) (gone : Index → Bool) :
    (m.discard gone).books = m.books.discard gone := by
  apply Books.ext_lookup
  · intro i
    change (m.discard gone).shapes[i]? = (m.shapes.filterMap _)[i]?
    rw [ExtTreeMap.getElem?_filterMap', getElem?_shapes, getElem?_shapes]
    by_cases hg : gone i = true
    · simp [isDefined_discard, hg]
    · have hshape : (m.discard gone).shape i = { m.shape i with
          aliases := (m.shape i).aliases.filter fun j => !gone j
          members := (m.shape i).members.map fun ms => ms.filter fun s => !gone (i.member s) } := by
        unfold shape holdsArray objectsAt
        rw [aliases_discard, entry?_discard, members_discard, if_neg hg, if_neg hg, if_neg hg]
        split <;> rfl
      simp only [isDefined_discard, hg, true_and]
      by_cases hd : m.isDefined i = true
      · simp [hd, hshape]
      · simp [hd]
  · intro i
    change (m.discard gone).entries[i]? = (m.entries.filter _)[i]?
    rw [ExtTreeMap.getElem?_filter', getElem?_entries, getElem?_entries, entry?_discard]
    by_cases hg : gone i = true
    · cases m.entry? i <;> simp [hg]
    · cases m.entry? i <;> simp [hg, Option.filter]
  · intro id
    rfl
  · rfl

theorem entries_congr (h : ∀ i, n.entry? i = m.entry? i) (i : Index) :
    n.entries[i]? = m.entries[i]? := by
  rw [getElem?_entries, getElem?_entries, h]

section
variable {f : Cell → Cell} {g : Shape → Shape} {c : Cell} {d : Shape}

theorem shape_of_ne {k : Index} (hk : ¬k = i) (hcell : ∀ j, ¬j = i → n.cell j = m.cell j) :
    n.shape k = m.shape k :=
  shape_congr (congrArg Cell.aliases (hcell k hk)) (congrArg Cell.entry (hcell k hk))
    (congrArg Cell.members (hcell k hk))

/-- Changing the cell of one location changes the book of shapes there. -/
theorem shapes_modify (h : m.isDefined i = true →
      ({ m with cells := m.cells.modify i f } : Memory).shape i = g (m.shape i)) (j : Index) :
    ({ m with cells := m.cells.modify i f } : Memory).shapes[j]? = (m.shapes.modify i g)[j]? := by
  rw [getElem?_shapes, isDefined_modify, ExtTreeMap.getElem?_modify, getElem?_shapes]
  by_cases hj : i = j
  · subst hj
    rw [if_pos (LawfulEqCmp.compare_eq_iff_eq.2 rfl)]
    by_cases hd : m.isDefined i = true
    · simp [hd, h hd]
    · simp [hd]
  · have hji : ¬j = i := fun he => hj he.symm
    have hshape : ({ m with cells := m.cells.modify i f } : Memory).shape j = m.shape j :=
      shape_of_ne hji fun k hk => by rw [cell_modify, if_neg fun hc => hk hc.1]
    rw [if_neg fun hc => hj (LawfulEqCmp.compare_eq_iff_eq.1 hc), getElem?_shapes, hshape]

theorem shapes_insert (h : ({ m with cells := m.cells.insert i c } : Memory).shape i = d)
    (j : Index) :
    ({ m with cells := m.cells.insert i c } : Memory).shapes[j]? = (m.shapes.insert i d)[j]? := by
  rw [getElem?_shapes, OrdMap.getElem?_insert, getElem?_shapes]
  simp only [isDefined_insert]
  by_cases hj : j = i
  · simp [hj, h]
  · have hshape : ({ m with cells := m.cells.insert i c } : Memory).shape j = m.shape j :=
      shape_of_ne hj fun k hk => by rw [cell_insert, if_neg hk]
    simp only [hj, false_or, if_false, hshape]

end

theorem books_initial : initial.books = Books.initial := by
  have hshape : initial.shape .diagnostics = Books.blank := by
    unfold shape holdsArray objectsAt aliases entry?
    rw [cell_initial, if_pos rfl]
    rfl
  refine Books.ext_lookup (fun i => ?_) (fun i => ?_) (fun _ => rfl) rfl
  · have hblank : ({} : Memory).shapes[i]? = none := by
      rw [getElem?_shapes]
      rfl
    refine (shapes_insert (m := {}) (c := { entry := some ∅ }) hshape i).trans ?_
    change _ = (ExtTreeMap.insert ∅ Index.diagnostics Books.blank : OrdMap Index Shape)[i]?
    rw [OrdMap.getElem?_insert, OrdMap.getElem?_insert, hblank, ExtTreeMap.getElem?_empty]
  · change initial.entries[i]? = (ExtTreeMap.insert ∅ Index.diagnostics ∅ : OrdMap Index Entry)[i]?
    rw [getElem?_entries, entry?_initial, OrdMap.getElem?_insert, ExtTreeMap.getElem?_empty]

/-- Listing a member changes the shape of the array above it alone. -/
theorem books_list (m : Memory) (parent : Index) (s : Segment) :
    (if m.holdsArray parent then ({ m with cells := m.cells.modify parent fun c =>
      { c with members := c.members.insert s } } : Memory) else m).books =
    { m.books with shapes := m.books.shapes.modify parent fun d =>
      { d with members := d.members.map fun ms => ms.insert s } } := by
  split
  · next hp =>
    refine Books.ext_lookup (fun j => shapes_modify (fun hd => ?_) j) (fun j => ?_)
      (fun _ => rfl) rfl
    · have hcell : ({ m with cells := m.cells.modify parent fun c =>
          { c with members := c.members.insert s } } : Memory).cell parent =
          { m.cell parent with members := (m.cell parent).members.insert s } := by
        rw [cell_modify, if_pos ⟨rfl, hd⟩]
      unfold shape holdsArray objectsAt aliases entry?
      rw [hcell]
      unfold holdsArray entry? at hp
      simp [hp]
    · exact entries_congr (fun k => by
        unfold entry?
        rw [cell_modify]
        split
        · next hk => rw [hk.1]
        · rfl) j
  · next hp =>
    refine Books.ext_lookup (fun j => ?_) (fun _ => rfl) (fun _ => rfl) rfl
    change m.shapes[j]? = (m.shapes.modify parent _)[j]?
    rw [ExtTreeMap.getElem?_modify]
    split
    · next hj =>
      obtain rfl := LawfulEqCmp.compare_eq_iff_eq.1 hj
      rw [getElem?_shapes]
      split
      · simp [shape, hp]
      · rfl
    · rfl

theorem books_register (m : Memory) (i : Index) : (m.register i).books = m.books.register i := by
  cases i with
  | root r => rfl
  | member parent s =>
    cases parent with
    | member parent t => exact books_list m _ s
    | root r =>
      cases r with
      | object id => rfl
      | _ => exact books_list m _ s

/-- Where members are listed only under an array, an array that comes anew has none. -/
theorem books_put (h : ∀ s, s ∈ (m.cell i).members → m.holdsArray i = true) (e : Entry) :
    (m.put i e).books = m.books.record i e := by
  have hshape : (m.put i e).shape i = {
      aliases := (m.books.shapeAt i).aliases
      members := if e.contains (.array i) then some ((m.books.shapeAt i).members.getD ∅) else none
      objects := e.objects } := by
    have hentry : Memory.entry? (m.put i e) i = some e := by rw [entry?_put, if_pos rfl]
    have hmembers : (m.shape i).members.getD ∅ = (m.cell i).members := by
      by_cases ha : m.holdsArray i = true
      · simp [shape, ha]
      · have hnone : (m.cell i).members = ∅ := by
          apply ExtTreeSet.ext_mem
          intro s
          exact iff_of_false (fun hs => ha (h s hs)) ExtTreeSet.not_mem_empty
        simp [shape, ha, hnone]
    rw [shapeAt_books, hmembers]
    unfold shape holdsArray objectsAt
    rw [aliases_put, hentry, members_put, if_pos rfl]
    by_cases he : e.contains (.array i) = true
    · simp [he]
    · simp [he]
  refine Books.ext_lookup (shapes_insert hshape) (fun j => ?_) (fun _ => rfl) rfl
  change (m.put i e).entries[j]? = (m.entries.insert i e)[j]?
  rw [getElem?_entries, entry?_put, OrdMap.getElem?_insert, getElem?_entries]

theorem books_setAliases (m : Memory) (i : Index) (a : AliasSet) :
    (m.setAliases i a).books = m.books.setAliases i a := by
  have hshape : (m.setAliases i a).shape i = { m.books.shapeAt i with aliases := a } := by
    rw [shapeAt_books]
    unfold shape holdsArray objectsAt
    rw [aliases_setAliases, if_pos rfl, entry?_setAliases, members_setAliases]
  exact Books.ext_lookup (shapes_insert hshape)
    (entries_congr fun j => entry?_setAliases m i j a) (fun _ => rfl) rfl

theorem books_modifyAliases (m : Memory) (i : Index) (f : AliasSet → AliasSet) :
    (m.modifyAliases i f).books = m.books.modifyAliases i f := by
  have hshape (hd : m.isDefined i = true) :
      (m.modifyAliases i f).shape i = { m.shape i with aliases := f (m.shape i).aliases } := by
    unfold shape holdsArray objectsAt
    rw [aliases_modifyAliases, if_pos ⟨rfl, hd⟩, entry?_modifyAliases, members_modifyAliases]
  exact Books.ext_lookup (shapes_modify hshape)
    (entries_congr fun j => entry?_modifyAliases m i j f) (fun _ => rfl) rfl

theorem books_declareObject (m : Memory) (o : ObjectValue) :
    (m.declareObject o).books = m.books.declareObject o := by
  unfold declareObject Books.declareObject
  split
  · next h => exact (if_pos h).symm
  · next h => exact (if_neg h).symm

/-- Less detail in the entries is no other structure. -/
theorem books_mapEntries (m : Memory) {f : Index → Entry → Entry}
    (hf : ∀ i (e : Entry), e.Coarsened (f i e)) :
    (m.mapEntries f).books = m.books.mapEntries f := by
  have hshape (i : Index) : (m.mapEntries f).shape i = m.shape i := by
    unfold shape holdsArray objectsAt
    rw [aliases_mapEntries, entry?_mapEntries, cell_mapEntries]
    cases m.entry? i with
    | none => rfl
    | some e =>
      have ha : (f i e).contains (.array i) = e.contains (.array i) := by
        rw [Bool.eq_iff_iff, Entry.contains_eq_true, Entry.contains_eq_true]
        exact (hf i e).array_mem_iff
      simp only [Option.map_some, Option.any_some, Option.getD_some, ha, (hf i e).objects_eq]
  refine Books.ext_lookup (fun i => ?_) (fun i => ?_) (fun _ => rfl) rfl
  · change (m.mapEntries f).shapes[i]? = m.shapes[i]?
    have hd : (m.mapEntries f).isDefined i = m.isDefined i := by
      unfold isDefined mapEntries
      rw [ExtTreeMap.contains_map]
    rw [getElem?_shapes, getElem?_shapes, hshape, hd]
  · change (m.mapEntries f).entries[i]? = (m.entries.map f)[i]?
    rw [getElem?_entries, entry?_mapEntries, ExtTreeMap.getElem?_map, getElem?_entries]

theorem mem_keys_books (m : Memory) (i : Index) :
    i ∈ m.books.shapes.keys ↔ m.isDefined i = true := by
  change i ∈ m.shapes.keys ↔ _
  rw [ExtTreeMap.mem_keys, ExtTreeMap.mem_iff_isSome_getElem?, getElem?_shapes]
  split
  · next h => simp [h]
  · next h => simp [h]

theorem mem_shapes_keys (sources : List Memory) (i : Index) :
    i ∈ (ExtTreeSet.ofList ((sources.map books).flatMap (·.shapes.keys)) : OrdSet Index) ↔
      ∃ m ∈ sources, m.isDefined i = true := by
  simp only [OrdSet.mem_ofList, List.flatMap_map, List.mem_flatMap, mem_keys_books]

theorem objectsAt_eq_objects (m : Memory) (i : Index) :
    m.objectsAt i = (m.entryOrUndefined i).objects := by
  unfold objectsAt entryOrUndefined
  cases m.entry? i with
  | some e => rfl
  | none =>
    symm
    apply List.eq_nil_iff_forall_not_mem.2
    exact fun o ho => nomatch Entry.mem_ofValue.1 (Entry.mem_objects.1 ho)

theorem mem_objectsAt {o : ObjectValue} :
    o ∈ m.objectsAt i ↔ ∃ e, m.entry? i = some e ∧ .object o ∈ e := by
  unfold objectsAt
  cases m.entry? i with
  | none => simp
  | some e => simp [Entry.mem_objects]

theorem mem_entryOrUndefined {v : Value} (hv : v ≠ .undefined) :
    v ∈ m.entryOrUndefined i ↔ ∃ e, m.entry? i = some e ∧ v ∈ e := by
  unfold entryOrUndefined
  cases m.entry? i with
  | none => exact iff_of_false (fun h => hv (Entry.mem_ofValue.1 h)) (by simp)
  | some e => simp

/-- Composite values are neither lost nor made in a join. -/
theorem mem_entry_join {sources : List Memory} {level : Nat} {v : Value} (hs : v.IsSolid)
    (hv : v ≠ .undefined) : (∃ e, Memory.entry? (join sources level) i = some e ∧ v ∈ e) ↔
      ∃ m ∈ sources, ∃ e, m.entry? i = some e ∧ v ∈ e := by
  rw [entry?_join]
  constructor
  · rintro ⟨e, he, hmem⟩
    split at he
    · cases he
      rcases (Entry.mem_foldl_join_iff_of_isSolid hs).1 hmem with hmem | ⟨f, hf, hmem⟩
      · exact absurd hmem Entry.not_mem_empty
      · obtain ⟨m, hm, rfl⟩ := List.mem_map.1 hf
        exact ⟨m, hm, (mem_entryOrUndefined hv).1 hmem⟩
    · cases he
  · rintro ⟨m, hm, e, he, hmem⟩
    refine ⟨_, if_pos ⟨m, hm, isDefined_of_entry? he⟩, ?_⟩
    exact (Entry.mem_foldl_join_iff_of_isSolid hs).2
      (.inr ⟨_, List.mem_map.2 ⟨m, hm, rfl⟩, (mem_entryOrUndefined hv).2 ⟨e, he, hmem⟩⟩)

/-- The arrays that several memories have at one location, joined: what the joined memory lists. -/
theorem members_join {sources : List Memory} (h : ∀ m ∈ sources, m.Consistent) (level : Nat) :
    ((join sources level).shape i).members =
      if ((sources.map (·.shape i)).filterMap (·.members)).isEmpty then none
      else some
        (.ofList (((sources.map (·.shape i)).filterMap (·.members)).flatMap (·.toList))) := by
  have harray : (join sources level).holdsArray i = true ↔
    ∃ m ∈ sources, m.holdsArray i = true := by
    simp only [holdsArray_iff]
    exact mem_entry_join (Value.array_isSolid i) (by simp)
  have hmem (ms : OrdSet Segment) : ms ∈ (sources.map (·.shape i)).filterMap (·.members) ↔
      ∃ m ∈ sources, m.holdsArray i = true ∧ ms = (m.cell i).members := by
    simp only [List.mem_filterMap, List.mem_map, exists_exists_and_eq_and, shape]
    constructor
    · rintro ⟨m, hm, hms⟩
      split at hms
      · next ha => exact ⟨m, hm, ha, (Option.some.inj hms).symm⟩
      · cases hms
    · rintro ⟨m, hm, ha, rfl⟩
      exact ⟨m, hm, if_pos ha⟩
  by_cases ha : (join sources level).holdsArray i = true
  · obtain ⟨m, hm, hma⟩ := harray.1 ha
    have hne : ¬((sources.map (·.shape i)).filterMap (·.members)).isEmpty = true := by
      rw [List.isEmpty_iff]
      exact List.ne_nil_of_mem ((hmem _).2 ⟨m, hm, hma, rfl⟩)
    rw [if_neg hne, shape, if_pos ha]
    refine congrArg some ?_
    apply ExtTreeSet.ext_mem
    intro s
    rw [mem_members_join, OrdSet.mem_ofList, List.mem_flatMap]
    simp only [hmem, ExtTreeSet.mem_toList]
    constructor
    · rintro ⟨m, hm, hs⟩
      exact ⟨_, ⟨m, hm, ((h m hm).member i s hs).1, rfl⟩, hs⟩
    · rintro ⟨_, ⟨m, hm, -, rfl⟩, hs⟩
      exact ⟨m, hm, hs⟩
  · have hnil : ((sources.map (·.shape i)).filterMap (·.members)).isEmpty = true := by
      rw [List.isEmpty_iff, List.eq_nil_iff_forall_not_mem]
      intro ms hms
      obtain ⟨m, hm, hma, -⟩ := (hmem ms).1 hms
      exact ha (harray.2 ⟨m, hm, hma⟩)
    rw [if_pos hnil, shape, if_neg ha]

theorem objectsAt_join (sources : List Memory) (level : Nat) :
    (join sources level).objectsAt i =
      (ExtTreeSet.ofList (sources.flatMap (·.objectsAt i)) : OrdSet ObjectValue).toList := by
  apply eq_of_increasing
  · unfold objectsAt
    cases Memory.entry? (join sources level) i with
    | none => exact List.Pairwise.nil
    | some e => exact e.objects_increasing
  · exact ExtTreeSet.ordered_toList
  · intro o
    rw [mem_objectsAt, mem_entry_join (Value.object_isSolid o) (by simp), ExtTreeSet.mem_toList,
      OrdSet.mem_ofList, List.mem_flatMap]
    simp only [mem_objectsAt]

/-- A joined memory has the joined books: arrays and objects are joined apart from the entries, and
yet come out as the joined entries tell. -/
theorem books_join {sources : List Memory} (h : ∀ m ∈ sources, m.Consistent) (level : Nat) :
    (join sources level).books = Books.join (sources.map books) level := by
  refine Books.ext_lookup (fun i => ?_) (fun i => ?_) (fun id => ?_) rfl
  · change (join sources level).shapes[i]? = (OrdMap.tabulate _ _ : OrdMap Index Shape)[i]?
    rw [getElem?_shapes, OrdMap.getElem?_tabulate]
    simp only [mem_shapes_keys, isDefined_join]
    split
    · next hd =>
      have hshapes : (sources.map books).map (·.shapeAt i) = sources.map (·.shape i) := by
        simp only [List.map_map, Function.comp_def, shapeAt_books]
      have haliases : ((join sources level).shape i).aliases =
          .merge ((sources.map (·.shape i)).map (·.aliases)) := by
        change (join sources level).aliases i = _
        rw [aliases_join, if_pos hd, List.map_map]
        rfl
      have hobjects : ((join sources level).shape i).objects = (ExtTreeSet.ofList
          ((sources.map (·.shape i)).flatMap (·.objects)) : OrdSet ObjectValue).toList := by
        rw [List.flatMap_map]
        exact objectsAt_join sources level
      rw [hshapes, ← haliases, ← hobjects, ← members_join h]
    · rfl
  · change (join sources level).entries[i]? = (OrdMap.tabulate _ _ : OrdMap Index Entry)[i]?
    have hentry (m : Memory) : m.books.entries[i]?.getD .undefined = m.entryOrUndefined i :=
      congrArg (Option.getD · _) (getElem?_entries m i)
    rw [getElem?_entries, entry?_join, OrdMap.getElem?_tabulate]
    simp only [mem_shapes_keys, List.map_map, Function.comp_def, hentry]
  · change (join sources level).objects[id]? = (OrdMap.tabulate _ _ : OrdMap _ _)[id]?
    simp only [List.flatMap_map, List.filterMap_map]
    rfl

end Memory
end ScriptMemory
