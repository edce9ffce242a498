import ScriptMemory.Proofs.Memory.AliasGraph
import ScriptMemory.Proofs.Widening

/-! Well-formed memory, and what a property of memory has to survive so that every edit within one
frame keeps it. The edits are taken apart into these few changes once; an invariant is then a matter
of five small proofs. -/
namespace ScriptMemory
open Std

namespace Index
variable {i j : Index}

/-- The location is not the slot for findings and does not lie below it. -/
def IsOrdinary (i : Index) : Prop :=
  i.base ≠ diagnostics.base

theorem isOrdinary_member {s : Segment} : (i.member s).IsOrdinary ↔ i.IsOrdinary :=
  Iff.rfl

theorem isOrdinary_ofVariable (name : String) (t : Table) : (ofVariable name t).IsOrdinary := by
  simp [IsOrdinary, ofVariable, diagnostics, base]

theorem isOrdinary_object (id : ObjectId) : (object id).IsOrdinary := by
  simp [IsOrdinary, object, diagnostics, base]

theorem isOrdinary_returnSlot (level : Nat) : (returnSlot level).IsOrdinary := by
  simp [IsOrdinary, returnSlot, diagnostics, base]

theorem IsOrdinary.ne_diagnostics (h : i.IsOrdinary) : i ≠ diagnostics := by
  rintro rfl
  exact h rfl

theorem isOrdinary_of_isRootedAtLevel {level : Nat} (h : i.isRootedAtLevel level = true) :
    i.IsOrdinary := by
  intro hb
  unfold isRootedAtLevel at h
  rw [hb] at h
  cases h

end Index

namespace Entry
variable {e f : Entry} {v : Value} {P : Value → Prop}

/-- Every value of the entry satisfies `P`. -/
def All (P : Value → Prop) (e : Entry) : Prop :=
  ∀ v ∈ e, P v

theorem all_empty : (∅ : Entry).All P :=
  fun _ h => absurd h not_mem_empty

theorem All.insert (h : e.All P) (hv : P v) : (e.insert v).All P := by
  intro w hw
  rcases eq_or_mem_of_mem_insert hw with rfl | hw
  · exact hv
  · exact h w hw

theorem all_ofValue (hv : P v) : (ofValue v).All P :=
  all_empty.insert hv

theorem All.filter (h : e.All P) (p : Value → Bool) : (e.filter p).All P :=
  fun v hv => h v (mem_filter.1 hv).1

theorem All.erase (h : e.All P) (w : Value) : (e.erase w).All P :=
  fun v hv => h v (mem_erase.1 hv).2

theorem All.join (he : e.All P) (hf : f.All P) : (e.join f).All P := by
  intro v hv
  rcases mem_or_mem_of_mem_join hv with hv | hv
  · exact he v hv
  · exact hf v hv

theorem all_foldl_join {l : List Entry} (he : e.All P) (hl : ∀ f ∈ l, f.All P) :
    (l.foldl Entry.join e).All P := by
  intro v hv
  rcases exists_mem_of_mem_foldl_join hv with hv | ⟨f, hf, hv⟩
  · exact he v hv
  · exact hl f hf v hv

/-- The entry is written as it is, or simplified. -/
def WrittenAs (e f : Entry) : Prop :=
  f = e ∨ ∃ limit, e.simplify? limit = some f

theorem writtenAs_getD (limit : Option Nat) (e : Entry) :
    e.WrittenAs ((limit.bind e.simplify?).getD e) := by
  cases limit with
  | none => exact .inl rfl
  | some n =>
    rw [Option.bind_some]
    cases hs : e.simplify? n with
    | none => exact .inl rfl
    | some f => exact .inr ⟨n, hs⟩

/-- Simplification adds kinds only. -/
theorem All.writtenAs (hk : ∀ k, P (.anyOf k)) (h : e.All P) (hw : e.WrittenAs f) : f.All P := by
  obtain rfl | ⟨limit, hs⟩ := hw
  · exact h
  · intro v hv
    rcases mem_or_anyOf_of_mem_simplify hs hv with hv | ⟨k, rfl⟩
    · exact h v hv
    · exact hk k

/-- What no value absorbs is written as it is, unless it is a scalar or an interval. -/
theorem WrittenAs.mem_of_isSolid (hw : e.WrittenAs f) (hv : v.IsSolid)
    (hs : v.isSimplifiable = false) (h : v ∈ e) : v ∈ f := by
  obtain rfl | ⟨limit, hlimit⟩ := hw
  · exact h
  · exact mem_simplify_of_isSolid hlimit hv hs h

/-- Findings are not simplified. -/
theorem WrittenAs.info_mem {x : Finding} (hw : e.WrittenAs f) (h : .info x ∈ e) : .info x ∈ f :=
  hw.mem_of_isSolid (Value.info_isSolid x) rfl h

/-- Widening adds intervals and kinds only. -/
theorem All.widen (hk : ∀ k, P (.anyOf k)) (hi : ∀ i, P (.interval i)) (h : e.All P)
    (previous : Entry) : (e.widen previous).All P := by
  intro v hv
  cases v with
  | anyOf k => exact hk k
  | interval i => exact hi i
  | _ => exact h _ (mem_of_mem_widen hv rfl (by simp))

/-- The entry holds values only; references are edges of the alias graph. -/
def IsData (e : Entry) : Prop :=
  e.All fun v => v.isReference = false

theorem hasReference_eq_false_iff : e.hasReference = false ↔ e.IsData := by
  simp [hasReference, IsData, All]

theorem isData_undefined : undefined.IsData :=
  all_ofValue rfl

theorem isData_foldl_join {l : List Entry} (hl : ∀ f ∈ l, f.IsData) :
    (l.foldl Entry.join ∅).IsData :=
  all_foldl_join all_empty hl

theorem IsData.writtenAs (h : e.IsData) (hw : e.WrittenAs f) : f.IsData :=
  All.writtenAs (fun _ => rfl) h hw

theorem IsData.widen (h : e.IsData) (previous : Entry) : (e.widen previous).IsData :=
  All.widen (fun _ => rfl) (fun _ => rfl) h previous

end Entry

namespace Memory
variable {m n : Memory} {i j : Index} {e : Entry} {gone : Index → Bool}

/-- References are no data, aliases are mutual, and nothing aliases the slot for findings. -/
structure WellFormed (m : Memory) : Prop where
  data : ∀ i e, m.entry? i = some e → e.IsData
  symmetric : m.AliasesSymmetric
  ordinary : ∀ i j s, (m.aliases i).strength? j = some s → j.IsOrdinary

/-- The finding `f` has been reported. -/
def Reports (m : Memory) (f : Finding) : Prop :=
  ∃ e, m.entry? .diagnostics = some e ∧ .info f ∈ e

theorem mem_findings {f : Finding} : f ∈ m.findings ↔ m.Reports f := by
  unfold findings Reports
  have hmem (e : Entry) : f ∈ e.findings ↔ .info f ∈ e := by
    simp only [Entry.findings, List.mem_filterMap, Entry.mem_toList]
    constructor
    · rintro ⟨v, hv, hf⟩
      cases v <;> simp_all [Value.finding?]
    · exact fun h => ⟨_, h, rfl⟩
  cases m.entry? .diagnostics with
  | none => simp
  | some e => simp [hmem]

/-- A property of memory that survives each change an edit is made of. -/
structure Stable (I : Memory → Prop) : Prop where
  wellFormed : ∀ {m}, I m → m.WellFormed
  discard : ∀ {m gone}, I m → (∀ i, gone i = true → i.IsOrdinary) → I (m.discard gone)
  write : ∀ {m i e}, I m → i.IsOrdinary → e.IsData → I (m.write i e)
  report : ∀ {m e}, I m → e.IsData → (∀ f, m.Reports f → .info f ∈ e) →
    I (m.write .diagnostics e)
  declareObject : ∀ {m o}, I m → I (m.declareObject o)
  link : ∀ {m n i j}, I m → i.IsOrdinary → j.IsOrdinary → m.link i j = .ok n → I n

theorem forall_mem_subtree {P : Index → Prop} (hP : ∀ i s, P i → P (i.member s)) {depth : Nat}
    (hi : P i) : ∀ j ∈ m.subtree depth i, P j := by
  induction depth generalizing i with
  | zero =>
    intro j hj
    rwa [List.mem_singleton.1 hj]
  | succ depth ih =>
    intro j hj
    rcases List.mem_cons.1 hj with rfl | hj
    · exact hi
    · obtain ⟨k, hk, hj⟩ := List.mem_flatMap.1 hj
      obtain ⟨s, -, rfl⟩ := List.mem_map.1 hk
      exact ih (hP i s hi) j hj

/-- What the members of a location inherit from it holds of everything below it. -/
theorem forall_mem_below {P : Index → Prop} (hP : ∀ i s, P i → P (i.member s)) (hi : P i) :
    ∀ j ∈ m.below i, P j := by
  intro j hj
  obtain ⟨k, hk, hj⟩ := List.mem_flatMap.1 hj
  obtain ⟨s, -, rfl⟩ := List.mem_map.1 hk
  exact forall_mem_subtree hP (hP i s hi) j hj

/-- Clearing the members of an ordinary location removes ordinary locations only. -/
theorem isOrdinary_of_cleared (hi : i.IsOrdinary)
    (hj : (ExtTreeSet.ofList (m.below i) : OrdSet Index).contains j = true) : j.IsOrdinary :=
  forall_mem_below (P := Index.IsOrdinary) (fun _ _ => Index.isOrdinary_member.2) hi j
    (OrdSet.mem_ofList.1 (ExtTreeSet.contains_iff_mem.1 hj))

theorem wellFormed_discard (h : m.WellFormed) (gone : Index → Bool) :
    (m.discard gone).WellFormed where
  data := by
    intro i e he
    rw [entry?_discard] at he
    split at he
    · cases he
    · exact h.data i e he
  symmetric := aliasesSymmetric_discard h.symmetric gone
  ordinary := by
    intro i j s hs
    rw [strength?_discard] at hs
    split at hs
    · cases hs
    · exact h.ordinary i j s hs

theorem wellFormed_write (h : m.WellFormed) (i : Index) (he : e.IsData) :
    (m.write i e).WellFormed where
  data := by
    intro j f hf
    rw [entry?_write] at hf
    split at hf
    · cases hf
      exact he
    · split at hf
      · exact h.data j f hf
      · exact (wellFormed_discard h _).data j f hf
  symmetric := aliasesSymmetric_write h.symmetric i e
  ordinary := by
    intro j k s hs
    rw [aliases_write] at hs
    split at hs
    · exact h.ordinary j k s hs
    · exact (wellFormed_discard h _).ordinary j k s hs

theorem wellFormed_of_lookup (h : m.WellFormed) (he : ∀ i, n.entry? i = m.entry? i)
    (ha : ∀ i, n.aliases i = m.aliases i) : n.WellFormed where
  data := fun i e hi => h.data i e (he i ▸ hi)
  symmetric := aliasesSymmetric_of_aliases_eq h.symmetric ha
  ordinary := fun i j s hs => h.ordinary i j s (ha i ▸ hs)

theorem wellFormed_link (h : m.WellFormed) (hi : i.IsOrdinary) (hj : j.IsOrdinary)
    (hl : m.link i j = .ok n) : n.WellFormed := by
  by_cases hne : i = j
  · have hm : m = n := by
      rw [link, if_pos hne] at hl
      exact Except.ok.inj hl
    exact hm ▸ h
  · obtain ⟨n', hl', hlinked⟩ := exists_linkedTo h.symmetric hne
    cases hl.symm.trans hl'
    refine ⟨fun k e he => h.data k e (hlinked.entry?_eq k ▸ he), ?_, ?_⟩
    · exact hlinked.aliasesSymmetric h.symmetric
    · intro a b t ht
      -- the new edge joins two ordinary locations
      rcases hlinked.edge ht with ⟨-, rfl⟩ | ⟨-, rfl⟩ | ⟨t', ht'⟩
      · exact hj
      · exact hi
      · exact h.ordinary a b t' ht'

theorem wellFormed_stable : Stable WellFormed where
  wellFormed := id
  discard := fun h _ => wellFormed_discard h _
  write := fun h _ he => wellFormed_write h _ he
  report := fun h he _ => wellFormed_write h _ he
  declareObject := fun h =>
    wellFormed_of_lookup h (fun _ => entry?_declareObject ..) fun _ => aliases_declareObject ..
  link := wellFormed_link

theorem cell_initial (i : Index) :
    initial.cell i = if i = .diagnostics then { entry := some ∅ } else {} :=
  cell_insert (m := {}) .diagnostics i

theorem entry?_initial (i : Index) :
    initial.entry? i = if i = .diagnostics then some ∅ else none := by
  unfold entry?
  rw [cell_initial]
  split <;> rfl

theorem aliases_initial (i : Index) : initial.aliases i = ∅ := by
  unfold aliases
  rw [cell_initial]
  split <;> rfl

theorem wellFormed_initial : initial.WellFormed where
  data := by
    intro i e he
    rw [entry?_initial] at he
    split at he
    · cases he
      exact Entry.all_empty
    · cases he
  symmetric := by
    intro i j
    rw [aliases_initial, aliases_initial]
    rfl
  ordinary := by
    intro i j s hs
    rw [aliases_initial] at hs
    cases hs

/-- The memory of a frame in which at least the findings `found` have been reported. -/
structure Frame (level : Nat) (found : Finding → Prop) (m : Memory) : Prop extends
    m.WellFormed where
  level_eq : m.level = level
  reports : ∀ f, found f → m.Reports f

variable {level : Nat} {found : Finding → Prop} {f : Finding}

theorem reports_of_entry? (h : m.Reports f)
    (he : n.entry? .diagnostics = m.entry? .diagnostics) : n.Reports f := by
  unfold Reports
  rwa [he]

theorem reports_discard (h : m.Reports f) (hg : ∀ i, gone i = true → i.IsOrdinary) :
    (m.discard gone).Reports f := by
  apply reports_of_entry? h
  rw [entry?_discard, if_neg]
  exact fun hd => (hg _ hd).ne_diagnostics rfl

/-- Writing to an ordinary location leaves the slot for findings alone. -/
theorem entry?_write_diagnostics (m : Memory) (hi : i.IsOrdinary) (e : Entry) :
    Memory.entry? (m.write i e) .diagnostics = m.entry? .diagnostics := by
  have hne : ¬Index.diagnostics = i := fun he => hi.ne_diagnostics he.symm
  rw [entry?_write, if_neg hne]
  split
  · rfl
  · unfold clearMembers
    rw [entry?_discard, if_neg]
    exact fun hd => (isOrdinary_of_cleared hi hd).ne_diagnostics rfl

theorem reports_write (h : m.Reports f) (hi : i.IsOrdinary) : (m.write i e).Reports f :=
  reports_of_entry? h (entry?_write_diagnostics m hi e)

theorem entry?_level_of_link (h : m.WellFormed) (hl : m.link i j = .ok n) :
    (∀ k, n.entry? k = m.entry? k) ∧ n.level = m.level := by
  by_cases hne : i = j
  · rw [link, if_pos hne] at hl
    cases hl
    exact ⟨fun _ => rfl, rfl⟩
  · obtain ⟨n', hl', hlinked⟩ := exists_linkedTo h.symmetric hne
    cases hl.symm.trans hl'
    exact ⟨hlinked.entry?_eq, hlinked.level_eq⟩

theorem frame_stable (level : Nat) (found : Finding → Prop) : Stable (Frame level found) where
  wellFormed := fun h => h.toWellFormed
  discard := fun h hg =>
    ⟨wellFormed_discard h.toWellFormed _, h.level_eq, fun f hf =>
      reports_discard (h.reports f hf) hg⟩
  write := fun h hi he => ⟨wellFormed_write h.toWellFormed _ he, (level_write ..).trans h.level_eq,
    fun f hf => reports_write (h.reports f hf) hi⟩
  report := by
    intro m e h he hkept
    refine ⟨wellFormed_write h.toWellFormed _ he, (level_write ..).trans h.level_eq, ?_⟩
    intro f hf
    exact ⟨e, by rw [entry?_write, if_pos rfl], hkept f (h.reports f hf)⟩
  declareObject := fun h => ⟨wellFormed_stable.declareObject h.toWellFormed,
    (level_declareObject ..).trans h.level_eq,
    fun f hf => reports_of_entry? (h.reports f hf) (entry?_declareObject ..)⟩
  link := by
    intro m n i j h hi hj hl
    obtain ⟨hentry, hlevel⟩ := entry?_level_of_link h.toWellFormed hl
    exact ⟨wellFormed_link h.toWellFormed hi hj hl, hlevel.trans h.level_eq,
      fun f hf => reports_of_entry? (h.reports f hf) (hentry _)⟩

end Memory
end ScriptMemory
