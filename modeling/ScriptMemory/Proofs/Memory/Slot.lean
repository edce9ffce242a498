import ScriptMemory.Proofs.Memory.Agreement
import ScriptMemory.Proofs.Memory.Books
import ScriptMemory.Proofs.Memory.Placement

/-! The slot for findings. It is always there, since no path leads to it and it is no member of
anything; and a finding that is added to it changes neither the structure of memory nor any other
entry. If the slot holds scalars, too, they are simplified on that occasion when there are too many
of them. -/
namespace ScriptMemory
open Std

namespace Entry
variable {e : Entry} {limit : Option Nat} {f : Finding} {v : Value}

/-- What is written in place of an entry, simplified if it is over the limit. -/
def fitted (limit : Option Nat) (e : Entry) : Entry :=
  (limit.bind e.simplify?).getD e

theorem fits_fitted (limit : Option Nat) (e : Entry) : (e.fitted limit).Fits limit :=
  Draft.fits_fit { memory := {}, limit } e

theorem Fits.fitted_eq (h : e.Fits limit) : e.fitted limit = e := by
  unfold fitted
  rw [h]
  rfl

theorem writtenAs_fitted (limit : Option Nat) (e : Entry) : e.WrittenAs (e.fitted limit) :=
  writtenAs_getD limit e

/-- A finding neither absorbs nor is absorbed. -/
theorem mem_insert_info : v ∈ e.insert (.info f) ↔ v = .info f ∨ v ∈ e := by
  have hkeeps : (Value.info f).absorbs v = false := by cases v <;> rfl
  rw [mem_insert_of_not_absorbs (not_absorbs_of_isSolid (Value.info_isSolid f)),
    and_iff_left hkeeps]

theorem simplifiableCount_insert_info (e : Entry) (f : Finding) :
    (e.insert (.info f)).simplifiableCount = e.simplifiableCount := by
  have hfilter : (e.insert (.info f)).filter Value.isSimplifiable =
      e.filter Value.isSimplifiable := by
    apply ext_mem
    intro v
    rw [mem_filter, mem_filter, mem_insert_info]
    refine and_congr_left fun hs => or_iff_right ?_
    rintro rfl
    cases hs
  rw [simplifiableCount_eq_length, simplifiableCount_eq_length, hfilter]

theorem fits_insert_info : (e.insert (.info f)).Fits limit ↔ e.Fits limit := by
  rw [fits_iff, fits_iff, simplifiableCount_insert_info]

/-- Whether an entry is simplified, and how, is the same with a finding more. -/
theorem mem_fitted_insert_info :
    v ∈ (e.insert (.info f)).fitted limit ↔ v = .info f ∨ v ∈ e.fitted limit := by
  by_cases hfits : e.Fits limit
  · rw [(fits_insert_info.2 hfits).fitted_eq, hfits.fitted_eq, mem_insert_info]
  · obtain ⟨g, hg⟩ := Option.ne_none_iff_exists'.1 hfits
    obtain ⟨g', hg'⟩ := Option.ne_none_iff_exists'.1 (mt (fits_insert_info (f := f)).1 hfits)
    obtain ⟨n, rfl, hn⟩ := Option.bind_eq_some_iff.1 hg
    unfold fitted
    rw [hg, hg', Option.getD_some, Option.getD_some, mem_simplify hn, mem_simplify hg']
    simp only [mem_insert_info, or_and_right, exists_or, exists_eq_left]
    exact or_congr_left eq_comm

end Entry

namespace Memory
variable {m n : Memory} {i : Index} {e : Entry}

/-- What has been reported so far. -/
def slot (m : Memory) : Entry :=
  (m.entry? .diagnostics).getD ∅

/-- Consistent memory that has the slot for findings. -/
structure Slotted (m : Memory) : Prop extends Consistent m where
  isDefined : m.isDefined .diagnostics = true

theorem isDefined_discard_of_not {gone : Index → Bool} (h : m.isDefined i = true)
    (hi : gone i = true → False) : (m.discard gone).isDefined i = true :=
  isDefined_discard.2 ⟨Bool.eq_false_iff.2 hi, h⟩

theorem isDefined_setAliases_of (h : m.isDefined i = true) (j : Index) (a : AliasSet) :
    (m.setAliases j a).isDefined i = true :=
  (isDefined_setAliases ..).2 (.inr h)

/-- No operation removes the slot, however raw it is. -/
theorem slotted_durable : Durable Value.Belongs Slotted where
  object := fun _ => trivial
  member := fun _ _ _ => trivial
  aliased := fun _ _ => trivial
  symmetric := fun h => h.symmetric
  isValue := And.left
  storable := Value.belongs_of_arrayOwner?
  own := Value.belongs_array
  held := fun h he => h.held _ _ he
  discard := fun h hgone => ⟨consistent_discard h.toConsistent _,
    isDefined_discard_of_not h.isDefined fun hi => (hgone _ hi).2 rfl⟩
  write := by
    intro m i e h _ he
    refine ⟨consistent_write h.toConsistent he, (isDefined_write ..).2 (.inr ?_)⟩
    split
    · exact h.isDefined
    · refine isDefined_discard_of_not h.isDefined fun hi => ?_
      exact ne_diagnostics_of_mem_below (mem_contains_ofList.1 hi) rfl
  declareObject := fun h => ⟨consistent_declareObject h.toConsistent _,
    (isDefined_declareObject ..).trans h.isDefined⟩
  link := by
    intro m n i j h _ _ hl
    refine ⟨consistent_link h.toConsistent hl, ?_⟩
    rcases link_eq hl with rfl | ⟨a, b, ks, rfl⟩
    · exact h.isDefined
    · apply isDefined_setAliases_of
      rw [isDefined_foldl_modifyAliases]
      exact isDefined_setAliases_of h.isDefined i a
  initial := ⟨consistent_initial, by decide +kernel⟩
  realias := by
    intro m h i a
    refine ⟨consistent_realias h.toConsistent i a, ?_⟩
    rw [realias_eq]
    apply isDefined_setAliases_of
    rw [isDefined_foldl_modifyAliases, isDefined_foldl_modifyAliases, isDefined_foldl_modifyAliases]
    exact h.isDefined
  withLevel := fun h level => ⟨consistent_durable.withLevel h.toConsistent level, h.isDefined⟩
  mapEntries := fun h hf => ⟨consistent_mapEntries h.toConsistent hf,
    (isDefined_mapEntries ..).trans h.isDefined⟩
  join := by
    intro sources hne h level
    obtain ⟨m, hm⟩ := List.exists_mem_of_ne_nil sources hne
    exact ⟨consistent_join (fun m hm => (h m hm).toConsistent) level,
      (isDefined_join ..).2 ⟨m, hm, (h m hm).isDefined⟩⟩

/-- Edits of ordinary locations leave the slot as it is. -/
theorem survives_slot (e : Option Entry) :
    Survives Index.IsOrdinary (fun _ v => v.isReference = false)
      fun m => m.WellFormed ∧ m.entry? .diagnostics = e where
  object := Index.isOrdinary_object
  member := fun _ _ => Index.isOrdinary_member.2
  aliased := fun h hs => h.1.ordinary _ _ _ hs
  symmetric := fun h => h.1.symmetric
  isValue := id
  storable := fun h _ => h
  own := fun _ => rfl
  held := fun h he => h.1.data _ _ he
  discard := by
    rintro m gone ⟨hm, he⟩ hgone
    refine ⟨wellFormed_discard hm gone, ?_⟩
    rw [entry?_discard, if_neg fun hd => (hgone _ hd).2 rfl, he]
  write := fun ⟨hm, he⟩ hi hdata =>
    ⟨wellFormed_write hm _ hdata, (entry?_write_diagnostics _ hi _).trans he⟩
  declareObject := fun ⟨hm, he⟩ =>
    ⟨wellFormed_stable.declareObject hm, (entry?_declareObject ..).trans he⟩
  link := fun ⟨hm, he⟩ hi hj hl =>
    ⟨wellFormed_link hm hi hj hl, ((entry?_level_of_link hm hl).1 _).trans he⟩

theorem mem_slot {v : Value} : v ∈ m.slot ↔ ∃ e, m.entry? .diagnostics = some e ∧ v ∈ e := by
  unfold slot
  cases m.entry? .diagnostics with
  | none => exact iff_of_false Entry.not_mem_empty fun ⟨_, he, _⟩ => nomatch he
  | some e => simp

/-- The slot after a finding was added. -/
def reporting (limit : Option Nat) (f : Finding) (m : Memory) : Memory :=
  m.write .diagnostics ((m.slot.insert (.info f)).fitted limit)

/-- The memory `n` is `m` after some findings were reported. The slot holds what it held, simplified
if need be, and the findings. -/
structure Told (m : Memory) (limit : Option Nat) (findings : List Finding) (n : Memory) : Prop where
  slotted : n.Slotted
  sameStructure : m.sameStructure n = true
  entry?_eq : ∀ i, i ≠ .diagnostics → n.entry? i = m.entry? i
  untold : findings = [] → n = m
  fits : findings ≠ [] → n.slot.Fits limit
  mem_fitted : ∀ v, v ∈ n.slot.fitted limit ↔
    (∃ f ∈ findings, v = .info f) ∨ v ∈ m.slot.fitted limit

theorem Slotted.told (h : m.Slotted) (limit : Option Nat) : m.Told limit [] m where
  slotted := h
  sameStructure := sameStructure_iff.2 ⟨rfl, rfl, rfl⟩
  entry?_eq := fun _ _ => rfl
  untold := fun _ => rfl
  fits := fun h => absurd rfl h
  mem_fitted := by simp

section
variable {limit : Option Nat} {f : Finding}

theorem holdsArray_slot : m.holdsArray .diagnostics = true ↔ .array .diagnostics ∈ m.slot :=
  holdsArray_iff.trans mem_slot.symm

theorem objectsAt_slot (m : Memory) : m.objectsAt .diagnostics = m.slot.objects := by
  unfold objectsAt slot
  cases m.entry? .diagnostics <;> rfl

/-- What is written to the slot has the arrays and objects that were there. -/
theorem array_mem_reported :
    .array i ∈ (m.slot.insert (.info f)).fitted limit ↔ .array i ∈ m.slot := by
  rw [(Entry.writtenAs_fitted limit _).coarsened.array_mem_iff, Entry.mem_insert_info]
  exact or_iff_right nofun

theorem objects_reported (m : Memory) (limit : Option Nat) (f : Finding) :
    ((m.slot.insert (.info f)).fitted limit).objects = m.slot.objects := by
  rw [(Entry.writtenAs_fitted limit _).coarsened.objects_eq]
  refine Entry.objects_eq m.slot.objects_increasing fun o => ?_
  rw [Entry.mem_insert_info, Entry.mem_objects]
  exact or_iff_right nofun

/-- The slot keeps its members, since it keeps its array. -/
theorem Consistent.reporting_eq (h : m.Consistent) (limit : Option Nat) (f : Finding) :
    m.reporting limit f = m.put .diagnostics ((m.slot.insert (.info f)).fitted limit) :=
  h.write_eq fun ha => array_mem_reported.2 (holdsArray_slot.1 ha)

theorem Consistent.entry?_reporting (h : m.Consistent) (limit : Option Nat) (f : Finding)
    (i : Index) : Memory.entry? (m.reporting limit f) i = if i = .diagnostics then
      some ((m.slot.insert (.info f)).fitted limit) else m.entry? i := by
  rw [h.reporting_eq, entry?_put]

theorem Consistent.slot_reporting (h : m.Consistent) (limit : Option Nat) (f : Finding) :
    (m.reporting limit f).slot = (m.slot.insert (.info f)).fitted limit := by
  unfold slot
  rw [h.entry?_reporting, if_pos rfl]
  rfl

theorem Consistent.shape_reporting (h : m.Consistent) (limit : Option Nat) (f : Finding)
    (i : Index) : (m.reporting limit f).shape i = m.shape i := by
  by_cases hi : i = .diagnostics
  · subst hi
    have hholds : (m.reporting limit f).holdsArray .diagnostics = m.holdsArray .diagnostics := by
      rw [Bool.eq_iff_iff, holdsArray_slot, holdsArray_slot, h.slot_reporting, array_mem_reported]
    unfold shape
    rw [hholds, objectsAt_slot, objectsAt_slot, h.slot_reporting, objects_reported,
      h.reporting_eq, aliases_put, members_put, if_pos rfl]
    congr 1
    split
    · next ha =>
      rw [if_pos (Entry.contains_eq_true.2 (array_mem_reported.2 (holdsArray_slot.1 ha)))]
    · rfl
  · refine shape_congr ?_ ?_ ?_
    · rw [h.reporting_eq, aliases_put]
    · rw [h.entry?_reporting, if_neg hi]
    · rw [h.reporting_eq, members_put, if_neg hi]

/-- What is written to the slot may stand there. -/
theorem Consistent.belongs_reported (h : m.Consistent) (limit : Option Nat) (f : Finding) :
    ((m.slot.insert (.info f)).fitted limit).All (Value.Belongs .diagnostics) := by
  have hslot : m.slot.All (Value.Belongs .diagnostics) := by
    intro v hv
    obtain ⟨e, he, hv⟩ := mem_slot.1 hv
    exact h.held _ e he v hv
  have hinfo : (Value.info f).Belongs .diagnostics := ⟨rfl, nofun⟩
  exact (hslot.insert hinfo).writtenAs (fun _ => ⟨rfl, nofun⟩) (Entry.writtenAs_fitted limit _)

theorem Slotted.reporting (h : m.Slotted) (limit : Option Nat) (f : Finding) :
    (m.reporting limit f).Slotted :=
  slotted_durable.write h trivial (h.belongs_reported limit f)

theorem Slotted.sameStructure_reporting (h : m.Slotted) (limit : Option Nat) (f : Finding) :
    m.sameStructure (m.reporting limit f) = true := by
  have hobjects : (m.reporting limit f).objects = m.objects := by
    rw [h.reporting_eq]
    rfl
  have hdefined (i : Index) : (m.reporting limit f).isDefined i = m.isDefined i := by
    rw [h.reporting_eq, Bool.eq_iff_iff]
    unfold put
    rw [isDefined_insert, or_iff_right_iff_imp]
    rintro rfl
    exact h.isDefined
  refine sameStructure_iff.2 ⟨ExtTreeMap.ext_getElem? fun i => ?_, hobjects.symm, ?_⟩
  · rw [getElem?_shapes, getElem?_shapes, hdefined, h.shape_reporting]
  · rw [h.reporting_eq, level_put]

end

/-- One finding more. -/
theorem Told.snoc {limit : Option Nat} {findings : List Finding} {f : Finding}
    (h : m.Told limit findings n) : m.Told limit (findings ++ [f]) (n.reporting limit f) := by
  have hslot := h.slotted.slot_reporting limit f
  constructor
  · exact h.slotted.reporting limit f
  · obtain ⟨hs, ho, hl⟩ := sameStructure_iff.1 h.sameStructure
    obtain ⟨hs', ho', hl'⟩ := sameStructure_iff.1 (h.slotted.sameStructure_reporting limit f)
    exact sameStructure_iff.2 ⟨hs.trans hs', ho.trans ho', hl.trans hl'⟩
  · intro i hi
    rw [h.slotted.entry?_reporting, if_neg hi, h.entry?_eq i hi]
  · exact fun hnil => absurd hnil (by simp)
  · intro _
    rw [hslot]
    exact Entry.fits_fitted limit _
  · intro v
    rw [hslot, (Entry.fits_fitted limit _).fitted_eq, Entry.mem_fitted_insert_info, h.mem_fitted]
    simp only [List.mem_append, List.mem_singleton, or_and_right, exists_or, exists_eq_left]
    rw [or_assoc, or_left_comm]

end Memory
end ScriptMemory
