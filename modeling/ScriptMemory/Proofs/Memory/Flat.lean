import ScriptMemory.Proofs.Absorption
import ScriptMemory.Proofs.Memory.Edit

/-! Flat memory: no location holds an array, so nothing lies below a location that a write would
have to clear or to copy. A write changes the entry of one location there and nothing else that can
be looked up. -/
namespace ScriptMemory
open Std

namespace Entry
variable {e f : Entry}

/-- The entry holds neither references nor arrays. -/
def IsFlat (e : Entry) : Prop :=
  e.All fun v => v.isReference = false ∧ v.arrayOwner? = none

theorem IsFlat.isData (h : e.IsFlat) : e.IsData :=
  fun v hv => (h v hv).1

theorem IsFlat.contains_array (h : e.IsFlat) (i : Index) : e.contains (.array i) = false := by
  rw [Bool.eq_false_iff]
  intro hc
  cases (h _ (contains_eq_true.1 hc)).2

theorem IsFlat.arrays (h : e.IsFlat) : e.arrays = [] := by
  unfold Entry.arrays
  rw [List.filterMap_eq_nil_iff]
  exact fun v hv => (h v (mem_toList.1 hv)).2

theorem IsFlat.filter_eq (h : e.IsFlat) : (e.filter fun v => v.arrayOwner?.isNone) = e := by
  apply ext_mem
  intro v
  rw [mem_filter]
  exact and_iff_left_of_imp fun hv => by rw [(h v hv).2]; rfl

theorem IsFlat.writtenAs (h : e.IsFlat) (hw : e.WrittenAs f) : f.IsFlat :=
  All.writtenAs (fun _ => ⟨rfl, rfl⟩) h hw

theorem IsFlat.widen (h : e.IsFlat) (previous : Entry) : (e.widen previous).IsFlat :=
  All.widen (fun _ => ⟨rfl, rfl⟩) (fun _ => ⟨rfl, rfl⟩) h previous

theorem isFlat_undefined : undefined.IsFlat :=
  all_ofValue ⟨rfl, rfl⟩

theorem WrittenAs.describes {x : Option RuntimeValue} (h : e.WrittenAs f) (hx : e.Describes x) :
    f.Describes x := by
  obtain rfl | ⟨limit, hs⟩ := h
  · exact hx
  · exact hx.simplify hs

/-- The entry is within the limit, so that it is written as it is. -/
def Fits (limit : Option Nat) (e : Entry) : Prop :=
  limit.bind e.simplify? = none

theorem fits_none (e : Entry) : e.Fits none :=
  rfl

end Entry

namespace Locations

theorem toList_insert_empty (i : Index) : ((∅ : OrdSet Index).insert i).toList = [i] := by
  apply OrdSet.toList_eq_singleton
  intro j
  rw [OrdSet.mem_insert]
  exact or_iff_left ExtTreeSet.not_mem_empty

theorem toList_empty : (∅ : OrdSet Index).toList = [] := by
  apply List.eq_nil_iff_forall_not_mem.2
  exact fun i hi => ExtTreeSet.not_mem_empty (ExtTreeSet.mem_toList.1 hi)

end Locations

namespace Memory
variable {m n k : Memory} {i j : Index} {e : Entry} {gone : Index → Bool}

theorem follow_variable (m : Memory) {p : Path} (hp : p.isVariable = true) (use : AliasReach)
    (level : Nat) : m.follow use p level = .ofVariable p level := by
  unfold follow
  rw [List.isEmpty_iff.1 hp]
  rfl

/-- Memory without arrays and without stored references. -/
structure Flat (m : Memory) : Prop where
  members : ∀ i, (m.cell i).members = ∅
  flat : ∀ i e, m.entry? i = some e → e.IsFlat

theorem Flat.isFlat_entryOrUndefined (h : m.Flat) (i : Index) : (m.entryOrUndefined i).IsFlat := by
  unfold entryOrUndefined
  cases he : m.entry? i with
  | none => exact Entry.isFlat_undefined
  | some e => exact h.flat i e he

/-- Where no member is listed nothing lies below. -/
theorem below_eq_nil (hi : (m.cell i).members = ∅) : m.below i = [] := by
  have hm : m.members i = [] := by
    unfold Memory.members
    rw [hi]
    rfl
  unfold Memory.below
  rw [hm]
  rfl

theorem Flat.below (h : m.Flat) (i : Index) : m.below i = [] :=
  below_eq_nil (h.members i)

/-- Where nothing lies below there is nothing to clear. -/
theorem clearMembers_eq_self (hi : (m.cell i).members = ∅) : m.clearMembers i = m := by
  unfold clearMembers
  rw [below_eq_nil hi]
  apply discard_eq_self
  intro j
  rw [Bool.eq_false_iff]
  intro hj
  cases OrdSet.mem_ofList.1 (ExtTreeSet.contains_iff_mem.1 hj)

theorem Flat.clearMembers_eq (h : m.Flat) (i : Index) : m.clearMembers i = m :=
  clearMembers_eq_self (h.members i)

/-- No location holds an array of its own, so that no location lists a member. -/
theorem Flat.cells_register (h : m.Flat) (i : Index) : (m.register i).cells = m.cells := by
  unfold register
  split
  · rfl
  · rfl
  · next parent s _ =>
    have hnone : m.holdsArray parent = false := by
      unfold holdsArray
      cases he : m.entry? parent with
      | none => rfl
      | some e => exact (h.flat parent e he).contains_array parent
    rw [if_neg (by rw [hnone]; exact Bool.false_ne_true)]

/-- A flat entry is written to one cell. -/
theorem Flat.cells_write (h : m.Flat) (he : e.IsFlat) (i : Index) :
    (m.write i e).cells = m.cells.insert i { m.cell i with entry := some e } := by
  have hregister := h.cells_register i
  have hcell : (m.register i).cell i = m.cell i := by
    unfold cell
    rw [hregister]
  have hmembers : ({ m.cell i with entry := some e, members := ∅ } : Cell) =
      { m.cell i with entry := some e } := by
    rw [← h.members i]
  unfold write put
  simp only [he.contains_array, Bool.false_eq_true, if_false, h.clearMembers_eq, hregister, hcell,
    hmembers]

theorem Flat.cell_write (h : m.Flat) (he : e.IsFlat) (i j : Index) :
    (m.write i e).cell j = if j = i then { m.cell i with entry := some e } else m.cell j := by
  unfold cell
  rw [h.cells_write he, OrdMap.getElem?_insert]
  split <;> rfl

theorem Flat.isDefined_write (h : m.Flat) (he : e.IsFlat) (i j : Index) :
    (m.write i e).isDefined j = true ↔ j = i ∨ m.isDefined j = true := by
  unfold isDefined
  rw [h.cells_write he]
  exact isDefined_insert i j

/-- Memory stays flat when each cell lists no members, and has a flat entry if it has one. -/
theorem Flat.of_cell (h : m.Flat) (hc : ∀ i, n.cell i = m.cell i ∨ n.cell i = {} ∨
    ∃ e : Entry, e.IsFlat ∧ (n.cell i).entry = some e ∧ (n.cell i).members = (m.cell i).members) :
    n.Flat where
  members := by
    intro i
    rcases hc i with hi | hi | ⟨e, -, -, hi⟩
    · rw [hi, h.members]
    · rw [hi]
    · rw [hi, h.members]
  flat := by
    intro i e he
    unfold entry? at he
    rcases hc i with hi | hi | ⟨f, hf, hi, -⟩
    · rw [hi] at he
      exact h.flat i e he
    · rw [hi] at he
      cases he
    · rw [hi] at he
      cases he
      exact hf

theorem Flat.write (h : m.Flat) (he : e.IsFlat) (i : Index) : (m.write i e).Flat := by
  apply h.of_cell
  intro j
  rw [h.cell_write he]
  split
  · next hj =>
    subst hj
    exact .inr (.inr ⟨e, he, rfl, rfl⟩)
  · exact .inl rfl

theorem Flat.discard (h : m.Flat) (gone : Index → Bool) : (m.discard gone).Flat where
  members := by
    intro i
    rw [cell_discard]
    split
    · rfl
    · apply ExtTreeSet.ext_mem
      intro s
      have hs : s ∉ (m.cell i).members := by
        rw [h.members]
        exact ExtTreeSet.not_mem_empty
      exact iff_of_false (fun hf => hs (OrdSet.mem_filter.1 hf).1) ExtTreeSet.not_mem_empty
  flat := by
    intro i e he
    rw [entry?_discard] at he
    split at he
    · cases he
    · exact h.flat i e he

/-- Removing one location of flat memory takes nothing else with it. -/
theorem Flat.remove_eq (h : m.Flat) (i : Index) : m.remove [i] = m.discard fun j => j = i := by
  unfold remove
  rw [List.flatMap_singleton, h.below, List.append_nil]
  dsimp only
  congr 1
  funext j
  rw [Bool.eq_iff_iff, ExtTreeSet.contains_iff_mem, OrdSet.mem_ofList, List.mem_singleton,
    decide_eq_true_eq]

/-- The memory `n` is `m` with new entries at some locations. -/
structure Rewritten (m : Memory) (P : Index → Prop) (entry : Index → Entry) (n : Memory) :
    Prop where
  flat : n.Flat
  level_eq : n.level = m.level
  aliases_eq : ∀ i, n.aliases i = m.aliases i
  entry?_of : ∀ i, P i → n.entry? i = some (entry i)
  entry?_of_not : ∀ i, ¬P i → n.entry? i = m.entry? i
  isDefined_iff : ∀ i, n.isDefined i = true ↔ P i ∨ m.isDefined i = true

variable {P Q : Index → Prop} {f g : Index → Entry}

theorem Flat.rewritten_self (h : m.Flat) (hP : ∀ i, ¬P i) : m.Rewritten P f m where
  flat := h
  level_eq := rfl
  aliases_eq := fun _ => rfl
  entry?_of := fun i hi => absurd hi (hP i)
  entry?_of_not := fun _ _ => rfl
  isDefined_iff := by
    intro i
    simp [hP i]

theorem Flat.rewritten_write (h : m.Flat) (he : e.IsFlat) (i : Index) :
    m.Rewritten (· = i) (fun _ => e) (m.write i e) where
  flat := h.write he i
  level_eq := level_write ..
  aliases_eq := by
    intro j
    rw [aliases_write, h.clearMembers_eq]
    split <;> rfl
  entry?_of := by
    intro j hj
    rw [entry?_write, if_pos hj]
  entry?_of_not := by
    intro j hj
    rw [entry?_write, if_neg hj, h.clearMembers_eq]
    split <;> rfl
  isDefined_iff := h.isDefined_write he i

/-- Writes at different locations add up. -/
theorem Rewritten.trans (h : m.Rewritten P f n) (h' : n.Rewritten Q f k)
    (hdisjoint : ∀ i, P i → ¬Q i) : m.Rewritten (fun i => P i ∨ Q i) f k where
  flat := h'.flat
  level_eq := h'.level_eq.trans h.level_eq
  aliases_eq := fun i => (h'.aliases_eq i).trans (h.aliases_eq i)
  entry?_of := by
    rintro i (hi | hi)
    · rw [h'.entry?_of_not i (hdisjoint i hi), h.entry?_of i hi]
    · exact h'.entry?_of i hi
  entry?_of_not := by
    intro i hi
    rw [h'.entry?_of_not i fun hq => hi (.inr hq), h.entry?_of_not i fun hp => hi (.inl hp)]
  isDefined_iff := by
    intro i
    rw [h'.isDefined_iff, h.isDefined_iff]
    tauto

theorem Rewritten.congr (h : m.Rewritten P f n) (hP : ∀ i, P i ↔ Q i) (hf : ∀ i, P i → f i = g i) :
    m.Rewritten Q g n where
  flat := h.flat
  level_eq := h.level_eq
  aliases_eq := h.aliases_eq
  entry?_of := by
    intro i hi
    have hp := (hP i).2 hi
    rw [h.entry?_of i hp, hf i hp]
  entry?_of_not := fun i hi => h.entry?_of_not i fun hp => hi ((hP i).1 hp)
  isDefined_iff := by
    intro i
    rw [h.isDefined_iff, hP]

end Memory

namespace Draft
open Memory
variable {d : Draft} {e : Entry} {i : Index} {l : List Index}

/-- A variable exists without being created. -/
theorem follow_of_isVariable (d : Draft) {p : Path} (hp : p.isVariable = true) (level : Nat) :
    d.follow p level = (d, .ofVariable p level) := by
  unfold follow
  rw [List.isEmpty_iff.1 hp]
  rfl

/-- What a write puts at a location: a strong one replaces what is there, a weak one adds to it. -/
def stored (m : Memory) (e : Entry) (strong : Bool) (i : Index) : Entry :=
  if strong then e else (m.entryOrUndefined i).join e

theorem isFlat_stored {m : Memory} (h : m.Flat) (he : e.IsFlat) (strong : Bool) (i : Index) :
    (stored m e strong i).IsFlat := by
  unfold stored
  split
  · exact he
  · exact Entry.All.join (h.isFlat_entryOrUndefined i) he

/-- A flat entry is stored by one write. -/
theorem store_flat (h : d.memory.Flat) (he : e.IsFlat) (i : Index) (strong : Bool) :
    d.store i e [] strong = d.write i (stored d.memory e strong i) := by
  have hplace : d.store i e [] strong = if strong then
      (d.update (·.clearMembers i)).write i (e.filter fun v => v.arrayOwner?.isNone)
      else d.write i ((d.memory.entryOrUndefined i).join
        (e.filter fun v => v.arrayOwner?.isNone)) := rfl
  have hclear : d.update (·.clearMembers i) = d := by
    unfold update
    dsimp only
    rw [h.clearMembers_eq]
  rw [hplace, he.filter_eq, hclear]
  unfold stored
  cases strong <;> rfl

/-- What fits the limit is written as it is. -/
theorem write_of_fits (h : e.Fits d.limit) (i : Index) : d.write i e = d.update (·.write i e) := by
  have hnone : d.simplify? e = none := h
  unfold write
  rw [hnone]

/-- Storing an entry at several locations, where everything fits the limit. -/
theorem foldl_store (hl : l.Nodup) (h : d.memory.Flat) (he : e.IsFlat) (strong : Bool)
    (hfits : ∀ i ∈ l, (stored d.memory e strong i).Fits d.limit) :
    (l.foldl (fun d i => d.store i e [] strong) d).limit = d.limit ∧
      d.memory.Rewritten (· ∈ l) (stored d.memory e strong)
        (l.foldl (fun d i => d.store i e [] strong) d).memory := by
  induction l generalizing d with
  | nil => exact ⟨rfl, h.rewritten_self (by simp)⟩
  | cons i l ih =>
    obtain ⟨hi, hl⟩ := List.nodup_cons.1 hl
    have hstore : d.store i e [] strong = d.update (·.write i (stored d.memory e strong i)) := by
      rw [store_flat h he]
      exact write_of_fits (hfits i List.mem_cons_self) i
    have hfirst := h.rewritten_write (isFlat_stored h he strong i) i
    -- the other locations hold what they held before
    have hstored : ∀ j ∈ l, stored (d.memory.write i (stored d.memory e strong i)) e strong j =
        stored d.memory e strong j := by
      intro j hj
      have hentry : (d.memory.write i (stored d.memory e strong i)).entryOrUndefined j =
          d.memory.entryOrUndefined j := by
        unfold entryOrUndefined
        rw [hfirst.entry?_of_not j fun hji => hi (hji ▸ hj)]
      change (if strong then e else
        ((d.memory.write i (stored d.memory e strong i)).entryOrUndefined j).join e) = _
      rw [hentry]
      rfl
    have hfits' : ∀ j ∈ l,
        (stored (d.memory.write i (stored d.memory e strong i)) e strong j).Fits d.limit := by
      intro j hj
      rw [hstored j hj]
      exact hfits j (List.mem_cons_of_mem i hj)
    obtain ⟨hlimit, hrest⟩ := ih (d := d.update (·.write i (stored d.memory e strong i))) hl
      hfirst.flat hfits'
    rw [List.foldl_cons, hstore]
    refine ⟨hlimit, ?_⟩
    have hfirst' : d.memory.Rewritten (· = i) (stored d.memory e strong)
        (d.memory.write i (stored d.memory e strong i)) :=
      hfirst.congr (fun _ => Iff.rfl) fun j hj => by rw [hj]
    have hrest' := hrest.congr (fun _ => Iff.rfl) hstored
    have hboth := hfirst'.trans hrest' fun j hj hjl => hi (hj ▸ hjl)
    exact hboth.congr (fun j => by rw [List.mem_cons]) fun _ _ => rfl

theorem ofEntry_flat (m : Memory) (he : e.IsFlat) : ArraySource.ofEntry m e = [] := by
  unfold ArraySource.ofEntry
  rw [he.arrays]
  rfl

end Draft
end ScriptMemory
