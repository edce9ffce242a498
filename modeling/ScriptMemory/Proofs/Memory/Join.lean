import ScriptMemory.Proofs.Absorption
import ScriptMemory.Proofs.Memory.Edit

/-! Joins of memories as least upper bounds. What a join holds is told by membership in its sources
alone, so it depends neither on their order nor on how often one occurs, and a join of joins is the
join of everything below. -/
namespace ScriptMemory
open Std

namespace AliasSet
variable {a b : AliasSet} {i : Index}

theorem strength?_eq_none_iff : a.strength? i = none ↔ ¬a.contains i = true := by
  rw [contains_iff]
  cases a.strength? i <;> simp

/-- Aliases are settled by which locations are aliases and which of them are certain. -/
theorem ext_contains (hc : ∀ i, a.contains i = true ↔ b.contains i = true)
    (hm : ∀ i, a.strength? i = some .must ↔ b.strength? i = some .must) : a = b := by
  apply ext_strength?
  intro i
  by_cases h : a.contains i = true
  · obtain ⟨s, hs⟩ := contains_iff.1 h
    obtain ⟨t, ht⟩ := contains_iff.1 ((hc i).1 h)
    cases s with
    | must => rw [hs, (hm i).1 hs]
    | may =>
      cases t with
      | must => rw [(hm i).2 ht] at hs; cases hs
      | may => rw [hs, ht]
  · rw [strength?_eq_none_iff.2 h, strength?_eq_none_iff.2 fun hb => h ((hc i).2 hb)]

end AliasSet

namespace Memory
variable {m n : Memory} {i j : Index} {sources : List Memory} {v : Value}

theorem isDefined_join (sources : List Memory) (level : Nat) (i : Index) :
    (join sources level).isDefined i = true ↔ ∃ m ∈ sources, m.isDefined i = true := by
  have hkeys : i ∈ (ExtTreeSet.ofList (sources.flatMap (·.cells.keys)) : OrdSet Index) ↔
      ∃ m ∈ sources, m.isDefined i := by
    rw [OrdSet.mem_ofList, List.mem_flatMap]
    simp only [ExtTreeMap.mem_keys, isDefined, ExtTreeMap.contains_iff_mem]
  unfold isDefined join
  rw [ExtTreeMap.contains_eq_isSome_getElem?, OrdMap.getElem?_tabulate]
  simp only [hkeys]
  split
  · next h => exact iff_of_true rfl h
  · next h => exact iff_of_false (by simp) h

theorem object?_join (sources : List Memory) (level : Nat) (id : ObjectId) :
    (join sources level).objects[id]? = if ∃ m ∈ sources, m.objects.contains id = true then
      some (ObjectDescriptor.join (sources.filterMap (·.objects[id]?))) else none := by
  have hkeys : id ∈ (ExtTreeSet.ofList (sources.flatMap (·.objects.keys)) : OrdSet ObjectId) ↔
      ∃ m ∈ sources, m.objects.contains id = true := by
    rw [OrdSet.mem_ofList, List.mem_flatMap]
    simp only [ExtTreeMap.mem_keys, ExtTreeMap.contains_iff_mem]
  unfold join
  rw [OrdMap.getElem?_tabulate]
  simp only [hkeys]

/-- A join covers at a location what any of its sources does; a source without an entry there says
that it may be undefined. -/
theorem covers_entry_join (hne : sources ≠ []) (level : Nat) :
    ((join sources level).entryOrUndefined i).Covers v ↔
      ∃ m ∈ sources, (m.entryOrUndefined i).Covers v := by
  unfold entryOrUndefined
  rw [entry?_join]
  split
  · rw [Option.getD_some, Entry.covers_foldl_join]
    simp only [List.mem_map, exists_exists_and_eq_and, Entry.not_covers_empty, false_or]
    rfl
  · next hnone =>
    have hentry : ∀ m ∈ sources, m.entry? i = none := by
      intro m hm
      unfold entry?
      rw [cell_of_not_isDefined fun hd => hnone ⟨m, hm, hd⟩]
    constructor
    · intro h
      obtain ⟨m, hm⟩ := List.exists_mem_of_ne_nil sources hne
      exact ⟨m, hm, by rwa [hentry m hm]⟩
    · rintro ⟨m, hm, h⟩
      rwa [hentry m hm] at h

theorem mem_members_join (level : Nat) {s : Segment} :
    s ∈ ((join sources level).cell i).members ↔ ∃ m ∈ sources, s ∈ (m.cell i).members := by
  rw [cell_join]
  split
  · simp only [Cell.join, OrdSet.mem_ofList, List.mem_flatMap, List.mem_map,
      exists_exists_and_eq_and, ExtTreeSet.mem_toList]
  · next hnone =>
    apply iff_of_false ExtTreeSet.not_mem_empty
    rintro ⟨m, hm, hs⟩
    rw [cell_of_not_isDefined fun hd => hnone ⟨m, hm, hd⟩] at hs
    exact ExtTreeSet.not_mem_empty hs

/-- Where `m` has an entry at `i`, so has `n`, and one that covers as much. -/
def EntryBelow (m n : Memory) (i : Index) : Prop :=
  ∀ e, m.entry? i = some e → ∃ f, n.entry? i = some f ∧ ∀ v, e.Covers v → f.Covers v

/-- A container that may be anything may be so in memory that holds as much there. -/
theorem isBelowOpaque_mono (hp : ∀ p s, i = .member p s → m.EntryBelow n p)
    (h : m.isBelowOpaque i = true) : n.isBelowOpaque i = true := by
  cases i with
  | root r => cases h
  | member parent s =>
    have hkind : (Value.anyOf (if s.isField then .object else .array)).IsSolid := by
      apply Value.anyOf_isSolid
      split <;> rfl
    unfold isBelowOpaque at h ⊢
    simp only [Option.any_eq_true, Bool.or_eq_true, Entry.contains_eq_true] at h ⊢
    obtain ⟨e, he, hmem⟩ := h
    obtain ⟨f, hf, hcovers⟩ := hp parent s rfl e he
    -- neither value is absorbed by any other
    have hkept {w : Value} (hw : w.IsSolid) (hmem : w ∈ e) : w ∈ f :=
      (Entry.covers_iff_of_isSolid hw).1 (hcovers w (Entry.covers_of_mem hmem))
    exact ⟨f, hf, hmem.imp (hkept Value.any_isSolid) (hkept hkind)⟩

theorem covers_readAbsent : (m.readAbsent i).Covers v ↔
    m.isBelowOpaque i = true ∧ v.Within .any ∨ (m.fallback i).Covers v := by
  rw [readAbsent_eq]
  split
  · next h => rw [Entry.covers_insert, h, and_iff_right rfl]
  · next h => rw [or_iff_right fun hv => h hv.1]

theorem covers_fallback_of (hk : ∀ k ∈ i.standIn?,
    (m.entryOrUndefined k).Covers v → (n.entryOrUndefined k).Covers v)
    (h : (m.fallback i).Covers v) : (n.fallback i).Covers v := by
  unfold fallback at h ⊢
  cases hi : i.standIn? with
  | none =>
    rw [hi] at h
    exact h
  | some k =>
    rw [hi] at h
    exact hk k hi h

theorem entryBelow_join (hm : m ∈ sources) (level : Nat) (i : Index) :
    m.EntryBelow (join sources level) i := by
  intro e he
  rw [entry?_join, if_pos ⟨m, hm, isDefined_of_entry? he⟩]
  refine ⟨_, rfl, fun v hv => Entry.covers_foldl_join.2 (.inr ⟨e, ?_, hv⟩)⟩
  exact List.mem_map.2 ⟨m, hm, entryOrUndefined_of_some he⟩

/-- Where a location is absent, a join reads what any of its sources would read there. -/
theorem covers_readAbsent_join (hm : m ∈ sources) (level : Nat) (h : (m.readAbsent i).Covers v) :
    ((join sources level).readAbsent i).Covers v := by
  rw [covers_readAbsent] at h ⊢
  refine h.imp (.imp_left ?_) (covers_fallback_of fun k _ hv => ?_)
  · exact isBelowOpaque_mono fun p _ _ => entryBelow_join hm level p
  · exact (covers_entry_join (List.ne_nil_of_mem hm) level).2 ⟨m, hm, hv⟩

/-- What a source reads at a location stays readable in a join exactly if the source has stored it
there, if it is undefinedness, if no source defines the location, or if another source has stored it
there as well. -/
theorem covers_readIndex_join (hm : m ∈ sources) (level : Nat) (hv : v ∈ m.readIndex i) :
    ((join sources level).readIndex i).Covers v ↔
      (m.entry? i).isSome = true ∨ v = .undefined ∨ (∀ n ∈ sources, n.isDefined i = false) ∨
        ∃ n ∈ sources, ∃ e, n.entry? i = some e ∧ e.Covers v := by
  by_cases hd : ∃ n ∈ sources, n.isDefined i = true
  · -- a defined location reads as what is stored there, and all sources contribute to it
    have hentry := (entry?_join sources level i).trans (if_pos hd)
    have hread : (join sources level).readIndex i = (join sources level).entryOrUndefined i :=
      (readIndex_of_some hentry).trans (entryOrUndefined_of_some hentry).symm
    rw [hread, covers_entry_join (List.ne_nil_of_mem hm)]
    constructor
    · rintro ⟨n, hn, hcovers⟩
      cases he : n.entry? i with
      | none =>
        rw [entryOrUndefined_of_none he] at hcovers
        exact .inr (.inl (Entry.covers_undefined.1 hcovers))
      | some e =>
        rw [entryOrUndefined_of_some he] at hcovers
        exact .inr (.inr (.inr ⟨n, hn, e, he, hcovers⟩))
    · intro h
      cases he : m.entry? i with
      | some e =>
        refine ⟨m, hm, ?_⟩
        rw [readIndex_of_some he] at hv
        rw [entryOrUndefined_of_some he]
        exact Entry.covers_of_mem hv
      | none =>
        rcases h with h | rfl | h | ⟨n, hn, e, hen, hcovers⟩
        · rw [he] at h
          cases h
        · refine ⟨m, hm, ?_⟩
          rw [entryOrUndefined_of_none he]
          exact Entry.covers_undefined.2 rfl
        · obtain ⟨n, hn, hdn⟩ := hd
          rw [h n hn] at hdn
          cases hdn
        · exact ⟨n, hn, by rwa [entryOrUndefined_of_some hen]⟩
  · have hnone : ∀ n ∈ sources, n.isDefined i = false := by
      intro n hn
      rw [Bool.eq_false_iff]
      exact fun hdn => hd ⟨n, hn, hdn⟩
    refine iff_of_true ?_ (.inr (.inr (.inl hnone)))
    have habsent : m.entry? i = none := by
      unfold entry?
      rw [cell_of_not_isDefined (by rw [hnone m hm]; exact Bool.false_ne_true)]
    rw [readIndex_of_none habsent] at hv
    rw [readIndex_of_none ((entry?_join sources level i).trans (if_neg hd))]
    exact covers_readAbsent_join hm level (Entry.covers_of_mem hv)

/-- Every defined location has an entry. -/
def HasEntries (m : Memory) : Prop :=
  ∀ i, m.isDefined i = true → (m.entry? i).isSome = true

instance (m : Memory) : Decidable m.HasEntries :=
  decidable_of_iff (∀ x ∈ m.cells.toList, x.2.entry.isSome = true) (by
    simp only [Prod.forall, ExtTreeMap.mem_toList_iff_getElem?_eq_some, HasEntries, isDefined,
      ExtTreeMap.contains_eq_isSome_getElem?, entry?, cell]
    apply forall_congr'
    intro i
    cases m.cells[i]? <;> simp)

/-- The memories give one class to every object that they share. -/
def ClassesAgree (sources : List Memory) : Prop :=
  ∀ m ∈ sources, ∀ n ∈ sources, ∀ (id : ObjectId) (d d' : ObjectDescriptor),
    m.objects[id]? = some d → n.objects[id]? = some d' → d.className = d'.className

instance (sources : List Memory) : Decidable (ClassesAgree sources) :=
  decidable_of_iff (∀ m ∈ sources, ∀ n ∈ sources, ∀ x ∈ m.objects.toList, ∀ y ∈ n.objects.toList,
    x.1 = y.1 → x.2.className = y.2.className) (by
    simp only [Prod.forall, ExtTreeMap.mem_toList_iff_getElem?_eq_some, ClassesAgree]
    constructor
    · exact fun h m hm n hn id d d' hd hd' => h m hm n hn id d hd id d' hd' rfl
    · rintro h m hm n hn id d hd _ d' hd' rfl
      exact h m hm n hn id d d' hd hd')

/-- The memory `m` says what the sources say together. -/
structure IsJoin (sources : List Memory) (m : Memory) : Prop where
  isDefined_iff : ∀ i, m.isDefined i = true ↔ ∃ n ∈ sources, n.isDefined i = true
  hasEntries : m.HasEntries
  covers_iff : ∀ i v, (m.entryOrUndefined i).Covers v ↔
    ∃ n ∈ sources, (n.entryOrUndefined i).Covers v
  alias_iff : ∀ i j, (m.aliases i).contains j = true ↔
    ∃ n ∈ sources, (n.aliases i).contains j = true
  must_iff : ∀ i j, (m.aliases i).strength? j = some .must ↔
    ∀ n ∈ sources, (n.aliases i).strength? j = some .must
  member_iff : ∀ i s, s ∈ (m.cell i).members ↔ ∃ n ∈ sources, s ∈ (n.cell i).members
  object_iff : ∀ id : ObjectId, (∃ d, m.objects[id]? = some d) ↔
    ∃ n ∈ sources, ∃ d, n.objects[id]? = some d
  className_eq : ∀ (id : ObjectId) (d : ObjectDescriptor), m.objects[id]? = some d →
    ∀ n ∈ sources, ∀ d' : ObjectDescriptor, n.objects[id]? = some d' → d'.className = d.className
  field_iff : ∀ (id : ObjectId) (d : ObjectDescriptor), m.objects[id]? = some d →
    ∀ s, s ∈ d.fields ↔ ∃ n ∈ sources, ∃ d', n.objects[id]? = some d' ∧ s ∈ d'.fields
  level_eq : ∀ n ∈ sources, n.level = m.level

/-- A memory joined with nothing else. -/
theorem isJoin_singleton (h : m.HasEntries) : IsJoin [m] m where
  isDefined_iff := by simp
  hasEntries := h
  covers_iff := by simp
  alias_iff := by simp
  must_iff := by simp
  member_iff := by simp
  object_iff := by simp
  className_eq := by
    intro id d hd n hn d' hd'
    rw [List.mem_singleton.1 hn, hd] at hd'
    cases hd'
    rfl
  field_iff := by
    intro id d hd s
    simp [hd]
  level_eq := by simp

section Parts
variable (level : Nat)

theorem contains_aliases_join : ((join sources level).aliases i).contains j = true ↔
    ∃ n ∈ sources, (n.aliases i).contains j = true := by
  rw [AliasSet.contains_iff]
  simp only [strength?_join, List.any_eq_true]
  constructor
  · rintro ⟨s, hs⟩
    split at hs
    · assumption
    · cases hs
  · intro h
    exact ⟨_, if_pos h⟩

theorem must_aliases_join (hne : sources ≠ []) :
    ((join sources level).aliases i).strength? j = some .must ↔
      ∀ n ∈ sources, (n.aliases i).strength? j = some .must := by
  rw [strength?_join]
  constructor
  · intro h
    split at h
    · split at h
      · next hall => simpa using hall
      · cases h
    · cases h
  · intro h
    obtain ⟨m, hm⟩ := List.exists_mem_of_ne_nil sources hne
    have hany : (sources.any fun m => (m.aliases i).contains j) = true :=
      List.any_eq_true.2 ⟨m, hm, AliasSet.contains_iff.2 ⟨_, h m hm⟩⟩
    rw [if_pos hany, if_pos (by simpa using h)]

theorem exists_object_join {id : ObjectId} : (∃ d, (join sources level).objects[id]? = some d) ↔
    ∃ n ∈ sources, ∃ d, n.objects[id]? = some d := by
  have hcontains (m : Memory) : m.objects.contains id = true ↔ ∃ d, m.objects[id]? = some d := by
    rw [ExtTreeMap.contains_eq_isSome_getElem?, Option.isSome_iff_exists]
  rw [object?_join]
  split
  · next h =>
    obtain ⟨n, hn, hid⟩ := h
    exact iff_of_true ⟨_, rfl⟩ ⟨n, hn, (hcontains n).1 hid⟩
  · next h =>
    refine iff_of_false (by simp) ?_
    rintro ⟨n, hn, hid⟩
    exact h ⟨n, hn, (hcontains n).2 hid⟩

/-- A joined object has the class of the first source that has the object. -/
theorem className_join (hclasses : ClassesAgree sources) {id : ObjectId} {d d' : ObjectDescriptor}
    (hd : (join sources level).objects[id]? = some d) (hn : n ∈ sources)
    (hd' : n.objects[id]? = some d') : d'.className = d.className := by
  rw [object?_join] at hd
  split at hd
  · cases hd
    cases hfirst : sources.filterMap (·.objects[id]?) with
    | nil =>
      rw [List.filterMap_eq_nil_iff] at hfirst
      rw [hfirst n hn] at hd'
      cases hd'
    | cons first rest =>
      have hmem : first ∈ sources.filterMap (·.objects[id]?) := by
        rw [hfirst]
        exact List.mem_cons_self
      obtain ⟨k, hk, hkd⟩ := List.mem_filterMap.1 hmem
      exact hclasses n hn k hk id d' first hd' hkd
  · cases hd

theorem mem_fields_join {id : ObjectId} {d : ObjectDescriptor}
    (hd : (join sources level).objects[id]? = some d) (s : Segment) :
    s ∈ d.fields ↔ ∃ n ∈ sources, ∃ d', n.objects[id]? = some d' ∧ s ∈ d'.fields := by
  rw [object?_join] at hd
  split at hd
  · cases hd
    simp only [ObjectDescriptor.join, OrdSet.mem_ofList, List.mem_flatMap, List.mem_filterMap,
      ExtTreeSet.mem_toList]
    constructor
    · rintro ⟨d, ⟨n, hn, hd⟩, hs⟩
      exact ⟨n, hn, d, hd, hs⟩
    · rintro ⟨n, hn, d, hd, hs⟩
      exact ⟨d, ⟨n, hn, hd⟩, hs⟩
  · cases hd

end Parts

theorem isJoin_join (hne : sources ≠ []) (hclasses : ClassesAgree sources) {level : Nat}
    (hlevel : ∀ m ∈ sources, m.level = level) : IsJoin sources (join sources level) where
  isDefined_iff := isDefined_join sources level
  hasEntries := by
    intro i hd
    rw [entry?_join, if_pos ((isDefined_join sources level i).1 hd)]
    rfl
  covers_iff i v := covers_entry_join hne level
  alias_iff i j := contains_aliases_join level
  must_iff i j := must_aliases_join level hne
  member_iff i s := mem_members_join level
  object_iff id := exists_object_join level
  className_eq id d hd n hn d' hd' := className_join level hclasses hd hn hd'
  field_iff id d hd s := mem_fields_join level hd s
  level_eq := hlevel

/-- Without a limit nothing is simplified. -/
theorem simplified_none (m : Memory) : m.simplified none = m := by
  have hcell (i : Index) : (m.simplified none).cell i = m.cell i := by
    unfold simplified
    rw [cell_mapEntries]
    unfold entry?
    simp
  apply ext_cell
  · intro i
    unfold isDefined simplified mapEntries
    rw [ExtTreeMap.contains_map]
  · exact hcell
  · exact fun _ => rfl
  · rfl

/-- What is taken over from sources of one level is their join. -/
theorem isJoin_takenOver (hne : sources ≠ []) (hentries : ∀ m ∈ sources, m.HasEntries)
    (hclasses : ClassesAgree sources) {level : Nat} (hlevel : ∀ m ∈ sources, m.level = level) :
    IsJoin sources (takenOver none sources) := by
  unfold takenOver
  split
  · next m => exact isJoin_singleton (hentries m List.mem_cons_self)
  · rw [simplified_none]
    cases sources with
    | nil => exact absurd rfl hne
    | cons m rest =>
      have hfirst : (((m :: rest).head?.map (·.level)).getD 0) = level :=
        hlevel m List.mem_cons_self
      rw [hfirst]
      exact isJoin_join hne hclasses hlevel

theorem IsJoin.entry?_eq {others : List Memory} (h : IsJoin sources m) (h' : IsJoin others n)
    (hsame : ∀ k, k ∈ sources ↔ k ∈ others) (i : Index) : m.entry? i = n.entry? i := by
  have hdefined : m.isDefined i = true ↔ n.isDefined i = true := by
    rw [h.isDefined_iff, h'.isDefined_iff]
    simp only [hsame]
  by_cases hd : m.isDefined i = true
  · obtain ⟨e, he⟩ := Option.isSome_iff_exists.1 (h.hasEntries i hd)
    obtain ⟨f, hf⟩ := Option.isSome_iff_exists.1 (h'.hasEntries i (hdefined.1 hd))
    have hef : m.entryOrUndefined i = n.entryOrUndefined i := by
      apply Entry.ext_covers
      intro v
      rw [h.covers_iff, h'.covers_iff]
      simp only [hsame]
    unfold entryOrUndefined at hef
    rw [he, hf] at hef
    rw [he, hf, show e = f from hef]
  · unfold entry?
    rw [cell_of_not_isDefined hd, cell_of_not_isDefined fun hn => hd (hdefined.2 hn)]

theorem IsJoin.object_eq {others : List Memory} (h : IsJoin sources m) (h' : IsJoin others n)
    (hsame : ∀ k, k ∈ sources ↔ k ∈ others) (id : ObjectId) : m.objects[id]? = n.objects[id]? := by
  have hiff : (∃ d, m.objects[id]? = some d) ↔ ∃ d, n.objects[id]? = some d := by
    rw [h.object_iff, h'.object_iff]
    simp only [hsame]
  cases hd : m.objects[id]? with
  | none =>
    cases hd' : n.objects[id]? with
    | none => rfl
    | some d' =>
      obtain ⟨d, hd''⟩ := hiff.2 ⟨d', hd'⟩
      rw [hd] at hd''
      cases hd''
  | some d =>
    obtain ⟨d', hd'⟩ := hiff.1 ⟨d, hd⟩
    -- some source has the object, and its class is that of both
    obtain ⟨k, hk, dk, hdk⟩ := (h.object_iff id).1 ⟨d, hd⟩
    have hclass : d.className = d'.className :=
      (h.className_eq id d hd k hk dk hdk).symm.trans
        (h'.className_eq id d' hd' k ((hsame k).1 hk) dk hdk)
    have hfields : d.fields = d'.fields := by
      apply ExtTreeSet.ext_mem
      intro s
      rw [h.field_iff id d hd, h'.field_iff id d' hd']
      simp only [hsame]
    rw [hd']
    cases d; cases d'
    dsimp only at hclass hfields
    rw [hclass, hfields]

/-- Sources with the same members have one join. -/
theorem IsJoin.unique {others : List Memory} (h : IsJoin sources m) (h' : IsJoin others n)
    (hne : sources ≠ []) (hsame : ∀ k, k ∈ sources ↔ k ∈ others) : m = n := by
  have hex {P : Memory → Prop} : (∃ k ∈ sources, P k) ↔ ∃ k ∈ others, P k := by
    simp only [hsame]
  have hall {P : Memory → Prop} : (∀ k ∈ sources, P k) ↔ ∀ k ∈ others, P k := by
    simp only [hsame]
  have haliases (i : Index) : m.aliases i = n.aliases i := by
    apply AliasSet.ext_contains
    · intro j
      rw [h.alias_iff, h'.alias_iff, hex]
    · intro j
      rw [h.must_iff, h'.must_iff, hall]
  have hmembers (i : Index) : (m.cell i).members = (n.cell i).members := by
    apply ExtTreeSet.ext_mem
    intro s
    rw [h.member_iff, h'.member_iff, hex]
  apply ext_cell
  · intro i
    rw [Bool.eq_iff_iff, h.isDefined_iff, h'.isDefined_iff, hex]
  · intro i
    have he := h.entry?_eq h' hsame i
    have ha := haliases i
    have hm := hmembers i
    unfold entry? at he
    unfold aliases at ha
    generalize m.cell i = c at he ha hm
    generalize n.cell i = c' at he ha hm
    cases c; cases c'
    dsimp only at he ha hm
    rw [he, ha, hm]
  · exact h.object_eq h' hsame
  · obtain ⟨k, hk⟩ := List.exists_mem_of_ne_nil sources hne
    rw [← h.level_eq k hk, h'.level_eq k ((hsame k).1 hk)]

/-- A join of joins is the join of all that went into them. -/
theorem IsJoin.flatten {parts : List (List Memory × Memory)}
    (hparts : ∀ x ∈ parts, IsJoin x.1 x.2) (h : IsJoin (parts.map (·.2)) m) :
    IsJoin (parts.flatMap (·.1)) m := by
  -- what some part has, some source of it has, and what all parts have, all their sources have
  have hex {P : Memory → Prop} (hP : ∀ x ∈ parts, P x.2 ↔ ∃ n ∈ x.1, P n) :
      (∃ n ∈ parts.map (·.2), P n) ↔ ∃ n ∈ parts.flatMap (·.1), P n := by
    simp only [List.mem_map, List.mem_flatMap]
    constructor
    · rintro ⟨_, ⟨x, hx, rfl⟩, hn⟩
      obtain ⟨n, hn, hp⟩ := (hP x hx).1 hn
      exact ⟨n, ⟨x, hx, hn⟩, hp⟩
    · rintro ⟨n, ⟨x, hx, hn⟩, hp⟩
      exact ⟨x.2, ⟨x, hx, rfl⟩, (hP x hx).2 ⟨n, hn, hp⟩⟩
  have hall {P : Memory → Prop} (hP : ∀ x ∈ parts, P x.2 ↔ ∀ n ∈ x.1, P n) :
      (∀ n ∈ parts.map (·.2), P n) ↔ ∀ n ∈ parts.flatMap (·.1), P n := by
    simp only [List.mem_map, List.mem_flatMap]
    constructor
    · rintro hn n ⟨x, hx, hnx⟩
      exact (hP x hx).1 (hn x.2 ⟨x, hx, rfl⟩) n hnx
    · rintro hn _ ⟨x, hx, rfl⟩
      exact (hP x hx).2 fun n hnx => hn n ⟨x, hx, hnx⟩
  -- the part that a source went into has the objects of the source
  have hpart {n : Memory} {id : ObjectId} {d : ObjectDescriptor} (hn : n ∈ parts.flatMap (·.1))
      (hd : n.objects[id]? = some d) :
      ∃ x ∈ parts, ∃ d', x.2.objects[id]? = some d' ∧ n ∈ x.1 := by
    obtain ⟨x, hx, hnx⟩ := List.mem_flatMap.1 hn
    obtain ⟨d', hd'⟩ := ((hparts x hx).object_iff id).2 ⟨n, hnx, d, hd⟩
    exact ⟨x, hx, d', hd', hnx⟩
  refine ⟨?_, h.hasEntries, ?_, ?_, ?_, ?_, ?_, ?_, ?_, ?_⟩
  · intro i
    rw [h.isDefined_iff]
    exact hex fun x hx => (hparts x hx).isDefined_iff i
  · intro i v
    rw [h.covers_iff]
    exact hex fun x hx => (hparts x hx).covers_iff i v
  · intro i j
    rw [h.alias_iff]
    exact hex fun x hx => (hparts x hx).alias_iff i j
  · intro i j
    rw [h.must_iff]
    exact hall fun x hx => (hparts x hx).must_iff i j
  · intro i s
    rw [h.member_iff]
    exact hex fun x hx => (hparts x hx).member_iff i s
  · intro id
    rw [h.object_iff]
    exact hex fun x hx => (hparts x hx).object_iff id
  · intro id d hd n hn d' hd'
    obtain ⟨x, hx, dx, hdx, hnx⟩ := hpart hn hd'
    have hclass := h.className_eq id d hd x.2 (List.mem_map.2 ⟨x, hx, rfl⟩) dx hdx
    exact ((hparts x hx).className_eq id dx hdx n hnx d' hd').trans hclass
  · intro id d hd s
    rw [h.field_iff id d hd]
    constructor
    · rintro ⟨_, hk, dx, hdx, hs⟩
      obtain ⟨x, hx, rfl⟩ := List.mem_map.1 hk
      obtain ⟨n, hn, d', hd', hs⟩ := ((hparts x hx).field_iff id dx hdx s).1 hs
      exact ⟨n, List.mem_flatMap.2 ⟨x, hx, hn⟩, d', hd', hs⟩
    · rintro ⟨n, hn, d', hd', hs⟩
      obtain ⟨x, hx, dx, hdx, hnx⟩ := hpart hn hd'
      exact ⟨x.2, List.mem_map.2 ⟨x, hx, rfl⟩, dx, hdx,
        ((hparts x hx).field_iff id dx hdx s).2 ⟨n, hnx, d', hd', hs⟩⟩
  · intro n hn
    obtain ⟨x, hx, hnx⟩ := List.mem_flatMap.1 hn
    rw [(hparts x hx).level_eq n hnx]
    exact h.level_eq x.2 (List.mem_map.2 ⟨x, hx, rfl⟩)

end Memory
end ScriptMemory
