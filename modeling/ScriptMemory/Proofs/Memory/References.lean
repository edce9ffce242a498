import ScriptMemory.Proofs.Environment
import ScriptMemory.Proofs.Memory.Flat
import ScriptMemory.Proofs.Memory.Join
import ScriptMemory.Proofs.Memory.Reach
import ScriptMemory.Proofs.Transaction

/-! Variables and references between them. On flat memory a variable is read from its certain
aliases, an assignment reaches everything it is linked to, binding adds one edge, and unsetting
takes one location away with its edges. -/
namespace ScriptMemory
open Std Relation

theorem Entry.empty_join (e : Entry) : (∅ : Entry).join e = e := by
  apply ext_covers
  intro v
  rw [covers_join, or_iff_right not_covers_empty]

namespace Memory
variable {m n : Memory} {p target source : Path} {level : Nat} {x i j t s : Index} {e : Entry}
  {v : Value}

theorem ofVariable_eq (p : Path) (level : Nat) :
    Locations.ofVariable p level = { must := (∅ : OrdSet Index).insert (p.indexAt level) } := by
  unfold Locations.ofVariable Path.indexAt
  cases p.scope <;> rfl

theorem must_toList_ofVariable (p : Path) (level : Nat) :
    (Locations.ofVariable p level).must.toList = [p.indexAt level] := by
  rw [ofVariable_eq]
  exact Locations.toList_insert_empty _

theorem may_toList_ofVariable (p : Path) (level : Nat) :
    (Locations.ofVariable p level).may.toList = [] := by
  rw [ofVariable_eq]
  exact Locations.toList_empty

theorem toList_ofVariable (p : Path) (level : Nat) :
    (Locations.ofVariable p level).toList = [p.indexAt level] := by
  unfold Locations.toList
  rw [must_toList_ofVariable, may_toList_ofVariable, List.append_nil]

theorem mem_insert_empty : i ∈ (∅ : OrdSet Index).insert x ↔ i = x := by
  rw [OrdSet.mem_insert]
  exact or_iff_left ExtTreeSet.not_mem_empty

theorem mem_resolve (hp : p.isVariable = true) :
    i ∈ (m.resolve p level).toList ↔ m.MustLinked (p.indexAt level) i := by
  have hmay : (m.resolve p level).may = ∅ := by
    apply ExtTreeSet.ext_mem
    intro j
    refine iff_of_false ?_ ExtTreeSet.not_mem_empty
    intro hj
    unfold resolve at hj
    rw [follow_variable m hp] at hj
    exact ExtTreeSet.not_mem_empty (ExtTreeSet.mem_diff_iff.1 hj).1
  rw [Locations.mem_toList, hmay, or_iff_left ExtTreeSet.not_mem_empty]
  unfold resolve
  rw [follow_variable m hp, ofVariable_eq, mem_must_expand]
  simp only [mem_insert_empty, exists_eq_left]

/-- A variable is read from its certain aliases. -/
theorem covers_readAt (hp : p.isVariable = true) :
    (m.readAt p level).Covers v ↔
      ∃ j, m.MustLinked (p.indexAt level) j ∧ (m.readIndex j).Covers v := by
  have hunknown : (m.resolve p level).unknown = false := by
    unfold resolve
    rw [follow_variable m hp]
    rfl
  have hne : ¬(m.resolve p level).isEmpty = true := by
    have hself := (mem_resolve (m := m) hp).2 (.refl (a := p.indexAt level))
    rw [Locations.mem_toList] at hself
    unfold Locations.isEmpty
    rw [Bool.and_eq_true, ExtTreeSet.isEmpty_iff, ExtTreeSet.isEmpty_iff]
    rintro ⟨hmust, hmay⟩
    rw [hmust, hmay] at hself
    exact hself.elim ExtTreeSet.not_mem_empty ExtTreeSet.not_mem_empty
  unfold readAt readLocations
  rw [if_neg hne, if_neg (by rw [hunknown]; exact Bool.false_ne_true), Entry.covers_foldl_join,
    or_iff_right Entry.not_covers_empty]
  simp only [List.mem_map, exists_exists_and_eq_and, mem_resolve hp]

/-- Where all certain aliases hold the same, that is what is read. -/
theorem readAt_eq (hp : p.isVariable = true)
    (h : ∀ j, m.MustLinked (p.indexAt level) j → m.readIndex j = e) : m.readAt p level = e := by
  apply Entry.ext_covers
  intro v
  rw [covers_readAt hp]
  constructor
  · rintro ⟨j, hj, hv⟩
    rwa [h j hj] at hv
  · intro hv
    exact ⟨_, .refl, by rwa [h _ .refl]⟩

open Classical in
/-- What an assignment leaves at a location linked to the variable at `x`: certain aliases hold the
new entry, possible ones may still hold the old one. -/
noncomputable def assigned (m : Memory) (x : Index) (e : Entry) (i : Index) : Entry :=
  if m.MustLinked x i then e else (m.entryOrUndefined i).join e

theorem assigned_of_mustLinked (h : m.MustLinked x i) : m.assigned x e i = e :=
  if_pos h

theorem assigned_of_not_mustLinked (h : ¬m.MustLinked x i) :
    m.assigned x e i = (m.entryOrUndefined i).join e :=
  if_neg h

theorem mem_must_targets :
    i ∈ (m.expand .all (.ofVariable p level)).must.toList ↔ m.MustLinked (p.indexAt level) i := by
  rw [ExtTreeSet.mem_toList, mem_must_expand, ofVariable_eq]
  simp only [mem_insert_empty, exists_eq_left]

theorem mem_may_targets : i ∈ (m.expand .all (.ofVariable p level)).may.toList ↔
    m.Linked (p.indexAt level) i ∧ ¬m.MustLinked (p.indexAt level) i := by
  rw [ExtTreeSet.mem_toList, mem_may_expand, ← ExtTreeSet.mem_toList (k := i), mem_must_targets,
    ofVariable_eq]
  simp only [mem_insert_empty, or_iff_left ExtTreeSet.not_mem_empty, exists_eq_left]

/-- The certain aliases are written first, and after that the possible ones. -/
theorem assign_variable (d : Draft) (he : e.IsFlat) (hp : p.isVariable = true) (level : Nat)
    (force : Bool) : d.assign p level e force =
      (d.memory.expand .all (.ofVariable p level)).may.toList.foldl
        (fun d i => d.store i e [] false)
        ((d.memory.expand .all (.ofVariable p level)).must.toList.foldl
          (fun d i => d.store i e [] true) d) := by
  unfold Draft.assign Draft.resolve Draft.storeAll
  rw [Draft.follow_of_isVariable d hp]
  dsimp only
  rw [Draft.ofEntry_flat d.memory he]
  have hforce : (force || !(d.memory.expand .all (.ofVariable p level)).unknown) = true := by
    rw [Bool.or_eq_true]
    exact .inr rfl
  rw [hforce]

/-- An assignment to a variable writes to all that it is linked to. -/
theorem rewritten_assign {d : Draft} (h : d.memory.Flat) (he : e.IsFlat) (hp : p.isVariable = true)
    (level : Nat) (force : Bool) (hfits : ∀ i, d.memory.Linked (p.indexAt level) i →
      (d.memory.assigned (p.indexAt level) e i).Fits d.limit) :
    d.memory.Rewritten (d.memory.Linked (p.indexAt level))
      (d.memory.assigned (p.indexAt level) e) (d.assign p level e force).memory := by
  let targets := d.memory.expand .all (.ofVariable p level)
  let strong := targets.must.toList.foldl (fun d i => d.store i e [] true) d
  have hmust (i : Index) : i ∈ targets.must.toList ↔ d.memory.MustLinked (p.indexAt level) i :=
    mem_must_targets
  have hmay (i : Index) : i ∈ targets.may.toList ↔ d.memory.Linked (p.indexAt level) i ∧
      ¬d.memory.MustLinked (p.indexAt level) i := mem_may_targets
  obtain ⟨hlimit, hfirst⟩ := Draft.foldl_store (OrdSet.nodup_toList targets.must) h he true (by
    intro i hi
    have hm := (hmust i).1 hi
    have hf := hfits i hm.linked
    rwa [assigned_of_mustLinked hm] at hf)
  have hfirst' : d.memory.Rewritten (· ∈ targets.must.toList)
      (d.memory.assigned (p.indexAt level) e) strong.memory :=
    hfirst.congr (fun _ => Iff.rfl) fun i hi => (assigned_of_mustLinked ((hmust i).1 hi)).symm
  have hstored : ∀ i ∈ targets.may.toList, Draft.stored strong.memory e false i =
      d.memory.assigned (p.indexAt level) e i := by
    intro i hi
    have hnot := ((hmay i).1 hi).2
    have hsame : strong.memory.entryOrUndefined i = d.memory.entryOrUndefined i := by
      unfold entryOrUndefined
      rw [hfirst.entry?_of_not i fun hm => hnot ((hmust i).1 hm)]
    rw [assigned_of_not_mustLinked hnot, ← hsame]
    rfl
  obtain ⟨-, hsecond⟩ := Draft.foldl_store (d := strong) (OrdSet.nodup_toList targets.may)
    hfirst.flat he false (by
      intro i hi
      have hlim : strong.limit = d.limit := hlimit
      rw [hstored i hi, hlim]
      exact hfits i ((hmay i).1 hi).1)
  rw [assign_variable d he hp]
  have hboth := hfirst'.trans (hsecond.congr (fun _ => Iff.rfl) hstored)
    fun i hi hi' => ((hmay i).1 hi').2 ((hmust i).1 hi)
  refine hboth.congr ?_ fun _ _ => rfl
  intro i
  rw [hmust, hmay]
  constructor
  · rintro (hi | hi)
    · exact hi.linked
    · exact hi.1
  · intro hi
    by_cases hm : d.memory.MustLinked (p.indexAt level) i
    · exact .inl hm
    · exact .inr ⟨hi, hm⟩

/-- What a reference to a location refers to; a location that nobody has written comes into being
as null. -/
def referred (m : Memory) (s : Index) : Entry :=
  (m.entry? s).getD (.ofValue (.scalar .null))

/-- The memory `n` is `m` after the location `t` was made a reference to `s`. -/
structure BoundTo (m : Memory) (t s : Index) (n : Memory) : Prop where
  flat : n.Flat
  symmetric : n.AliasesSymmetric
  level_eq : n.level = m.level
  entry?_of : ∀ i, i = t ∨ i = s → n.entry? i = some (m.referred s)
  entry?_of_not : ∀ i, i ≠ t → i ≠ s → n.entry? i = m.entry? i
  isDefined_iff : ∀ i, n.isDefined i = true ↔ i = t ∨ i = s ∨ m.isDefined i = true
  aliases_eq : t = s → ∀ i, n.aliases i = m.aliases i
  strength?_eq : t ≠ s → ∀ a b, (n.aliases a).strength? b =
    m.strengthAfterLink t s (m.bindingStrength t s) a b

theorem isFlat_referred (h : m.Flat) (s : Index) : (m.referred s).IsFlat := by
  unfold referred
  cases he : m.entry? s with
  | none => exact Entry.all_ofValue ⟨rfl, rfl⟩
  | some e => exact h.flat s e he

theorem referred_eq (h : m.HasEntries) (s : Index) : m.referred s =
    if m.isDefined s then m.entryOrUndefined s else .ofValue (.scalar .null) := by
  unfold referred entryOrUndefined
  split
  · next hd =>
    obtain ⟨e, he⟩ := Option.isSome_iff_exists.1 (h s hd)
    rw [he]
    rfl
  · next hd =>
    unfold entry?
    rw [cell_of_not_isDefined hd]
    rfl

/-- Creating a source that does not exist yet leaves it holding what is referred to. -/
theorem exists_rewritten_create {d : Draft} (h : d.memory.Flat) (hentries : d.memory.HasEntries)
    (hfits : (d.memory.referred s).Fits d.limit) :
    ∃ d' : Draft, (if d.memory.isDefined s then d
        else d.store s (.ofValue (.scalar .null)) [] true) = d' ∧ d'.limit = d.limit ∧
      d.memory.Rewritten (· = s) (fun _ => d.memory.referred s) d'.memory := by
  have hnull : (Entry.ofValue (.scalar .null)).IsFlat := Entry.all_ofValue ⟨rfl, rfl⟩
  by_cases hd : d.memory.isDefined s = true
  · obtain ⟨e, he⟩ := Option.isSome_iff_exists.1 (hentries s hd)
    have hreferred : d.memory.referred s = e := by
      unfold referred
      rw [he]
      rfl
    refine ⟨d, if_pos hd, rfl, h, rfl, fun _ => rfl, ?_, fun _ _ => rfl, ?_⟩
    · rintro i rfl
      rw [he, hreferred]
    · intro i
      refine ⟨.inr, ?_⟩
      rintro (rfl | hi)
      · exact hd
      · exact hi
  · have hreferred : d.memory.referred s = .ofValue (.scalar .null) := by
      rw [referred_eq hentries, if_neg hd]
    rw [hreferred] at hfits ⊢
    have hstore : d.store s (.ofValue (.scalar .null)) [] true =
        d.update (·.write s (.ofValue (.scalar .null))) := by
      rw [Draft.store_flat h hnull]
      exact Draft.write_of_fits hfits s
    refine ⟨d.update (·.write s (.ofValue (.scalar .null))), ?_, rfl, h.rewritten_write hnull s⟩
    rw [if_neg hd, hstore]

/-- The memory `n` is flat memory `m` after `t` and `s` were linked. If the two are the same, there
is nothing to link. -/
structure Tied (m : Memory) (t s : Index) (n : Memory) : Prop where
  flat : n.Flat
  symmetric : n.AliasesSymmetric
  level_eq : n.level = m.level
  entry?_eq : ∀ i, n.entry? i = m.entry? i
  isDefined_iff : ∀ i, n.isDefined i = true ↔ (t ≠ s ∧ (i = t ∨ i = s)) ∨ m.isDefined i = true
  aliases_eq : t = s → ∀ i, n.aliases i = m.aliases i
  strength?_eq : t ≠ s → ∀ a b, (n.aliases a).strength? b =
    m.strengthAfterLink t s (m.bindingStrength t s) a b

theorem tied_self (h : m.Flat) (hsym : m.AliasesSymmetric) (t : Index) : m.Tied t t m where
  flat := h
  symmetric := hsym
  level_eq := rfl
  entry?_eq := fun _ => rfl
  isDefined_iff := by simp
  aliases_eq := fun _ _ => rfl
  strength?_eq := fun hne => absurd rfl hne

theorem LinkedTo.tied (hn : m.LinkedTo t s n) (h : m.Flat) (hsym : m.AliasesSymmetric)
    (hne : t ≠ s) : m.Tied t s n where
  flat := by
    constructor
    · intro i
      rw [hn.members_eq, h.members]
    · intro i e he
      rw [hn.entry?_eq] at he
      exact h.flat i e he
  symmetric := hn.aliasesSymmetric hsym
  level_eq := hn.level_eq
  entry?_eq := hn.entry?_eq
  isDefined_iff := by
    intro i
    rw [hn.isDefined_iff]
    simp [hne, or_assoc]
  aliases_eq := fun heq => absurd heq hne
  strength?_eq := fun _ => hn.strength?_eq

/-- Linking never fails on symmetric memory, and there is nothing to do for a location with
itself. -/
theorem exists_link {d : Draft} (hsym : d.memory.AliasesSymmetric) (t s : Index) :
    ∃ n : Memory, d.memory.link t s = .ok n ∧
      (Edit.link t s).run d = .ok () (d.update fun _ => n) ∧
      (t = s → n = d.memory) ∧ (t ≠ s → d.memory.LinkedTo t s n) := by
  have hrun {n : Memory} (hn : d.memory.link t s = .ok n) :
      (Edit.link t s).run d = .ok () (d.update fun _ => n) := by
    unfold Edit.link
    rw [EStateM.run_bind, EStateM.run_get]
    dsimp only
    rw [hn]
    rfl
  by_cases hne : t = s
  · exact ⟨d.memory, if_pos hne, hrun (if_pos hne), fun _ => rfl, fun h => absurd hne h⟩
  · obtain ⟨n, hn, hlinked⟩ := exists_linkedTo hsym hne
    exact ⟨n, hn, hrun hn, fun h => absurd h hne, fun _ => hlinked⟩

theorem exists_tied {d : Draft} (h : d.memory.Flat) (hsym : d.memory.AliasesSymmetric)
    (t s : Index) : ∃ n : Memory, (Edit.link t s).run d = .ok () (d.update fun _ => n) ∧
      d.memory.Tied t s n := by
  obtain ⟨n, -, hrun, hsame, hlinked⟩ := exists_link hsym t s
  refine ⟨n, hrun, ?_⟩
  by_cases hne : t = s
  · rw [hsame hne, hne]
    exact tied_self h hsym s
  · exact (hlinked hne).tied h hsym hne

/-- What binding does between variables: the source comes into being, the two are linked, and the
target is written. -/
theorem bindPaths_run {d created : Draft} {linked : Memory} (ht : target.isVariable = true)
    (hs : source.isVariable = true) {targetLevel sourceLevel : Nat}
    (htarget : target.indexAt targetLevel = t) (hsource : source.indexAt sourceLevel = s)
    (hcreated : (if d.memory.isDefined s then d
      else d.store s (.ofValue (.scalar .null)) [] true) = created)
    (hlink : (Edit.link t s).run created = .ok () (created.update fun _ => linked)) :
    (Edit.bindPaths target targetLevel source sourceLevel).run d =
      .ok () ((created.update fun _ => linked).store t
        ((∅ : Entry).join (created.memory.readIndex s))
        (ArraySource.ofEntry created.memory ((∅ : Entry).join (created.memory.readIndex s)))
        true) := by
  have hcreated' : (Locations.ofVariable source sourceLevel).may.toList.foldl (Draft.ensure false)
      ((Locations.ofVariable source sourceLevel).must.toList.foldl (Draft.ensure true) d) =
        created := by
    rw [must_toList_ofVariable, may_toList_ofVariable, hsource]
    exact hcreated
  have hlinks : ((Locations.ofVariable target targetLevel).toList.forM fun t =>
      (Locations.ofVariable source sourceLevel).toList.forM fun s => Edit.link t s).run created =
        .ok () (created.update fun _ => linked) := by
    rw [toList_ofVariable, toList_ofVariable, htarget, hsource]
    change ((Edit.link t s >>= fun _ => pure ()) >>= fun _ => pure ()).run created = _
    rw [EStateM.run_bind, EStateM.run_bind, hlink]
    rfl
  rw [Edit.bindPaths_eq (Draft.follow_of_isVariable d hs _) hcreated'
    (Draft.follow_of_isVariable created ht _) hlinks, toList_ofVariable, hsource]
  unfold Draft.storeAll
  rw [must_toList_ofVariable, may_toList_ofVariable, htarget]
  rfl

/-- The three steps of a binding together. -/
theorem Tied.boundTo {created linked : Memory}
    (hcreate : m.Rewritten (· = s) (fun _ => m.referred s) created)
    (hlink : created.Tied t s linked)
    (hwrite : linked.Rewritten (· = t) (fun _ => m.referred s) n) : m.BoundTo t s n where
  flat := hwrite.flat
  symmetric := aliasesSymmetric_of_aliases_eq hlink.symmetric hwrite.aliases_eq
  level_eq := (hwrite.level_eq.trans hlink.level_eq).trans hcreate.level_eq
  entry?_of := by
    intro i hi
    by_cases hit : i = t
    · exact hwrite.entry?_of i hit
    · rw [hwrite.entry?_of_not i hit, hlink.entry?_eq]
      exact hcreate.entry?_of i (hi.resolve_left hit)
  entry?_of_not := by
    intro i hit his
    rw [hwrite.entry?_of_not i hit, hlink.entry?_eq, hcreate.entry?_of_not i his]
  isDefined_iff := by
    intro i
    rw [hwrite.isDefined_iff, hlink.isDefined_iff, hcreate.isDefined_iff]
    by_cases hts : t = s
    · subst hts
      tauto
    · tauto
  aliases_eq := by
    intro hts i
    rw [hwrite.aliases_eq, hlink.aliases_eq hts, hcreate.aliases_eq]
  strength?_eq := by
    intro hts a b
    rw [hwrite.aliases_eq, hlink.strength?_eq hts]
    unfold strengthAfterLink bindingStrength
    simp only [hcreate.aliases_eq]

/-- Binding one variable to another never fails on flat memory, and this is what it does. -/
theorem exists_boundTo {d : Draft} (h : d.memory.Flat) (hsym : d.memory.AliasesSymmetric)
    (hentries : d.memory.HasEntries) (ht : target.isVariable = true)
    (hs : source.isVariable = true) (targetLevel sourceLevel : Nat)
    (hfits : (d.memory.referred (source.indexAt sourceLevel)).Fits d.limit) :
    ∃ d', (Edit.bindPaths target targetLevel source sourceLevel).run d = .ok () d' ∧
      d.memory.BoundTo (target.indexAt targetLevel) (source.indexAt sourceLevel) d'.memory := by
  generalize htarget : target.indexAt targetLevel = t
  generalize hsource : source.indexAt sourceLevel = s at hfits
  have hflat := isFlat_referred h s
  obtain ⟨created, hcreated, hlimit, hcreate⟩ := exists_rewritten_create h hentries hfits
  have hread : (∅ : Entry).join (created.memory.readIndex s) = d.memory.referred s := by
    rw [Entry.empty_join]
    unfold readIndex
    rw [hcreate.entry?_of s rfl]
    rfl
  obtain ⟨linked, hlink, htied⟩ := exists_tied hcreate.flat
    (aliasesSymmetric_of_aliases_eq hsym hcreate.aliases_eq) t s
  let tied : Draft := created.update fun _ => linked
  have hstore : tied.store t (d.memory.referred s) [] true =
      tied.update (·.write t (d.memory.referred s)) := by
    have hlim : tied.limit = d.limit := hlimit
    rw [Draft.store_flat htied.flat hflat]
    exact Draft.write_of_fits (by rwa [hlim]) t
  refine ⟨tied.update (·.write t (d.memory.referred s)), ?_,
    htied.boundTo hcreate (htied.flat.rewritten_write hflat t)⟩
  rw [bindPaths_run ht hs htarget hsource hcreated hlink, hread, Draft.ofEntry_flat _ hflat, hstore]

theorem unset_variable (d : Draft) (hp : p.isVariable = true) :
    d.unset p = d.update (·.remove [p.indexAt d.memory.level]) := by
  unfold Draft.unset
  rw [follow_variable d.memory hp]
  dsimp only
  rw [must_toList_ofVariable, may_toList_ofVariable]
  rfl

theorem unset_flat {d : Draft} (h : d.memory.Flat) (hp : p.isVariable = true) :
    (d.unset p).memory = d.memory.discard fun i => i = p.indexAt d.memory.level := by
  rw [unset_variable d hp]
  exact h.remove_eq _

theorem hasEntries_discard (h : m.HasEntries) (gone : Index → Bool) :
    (m.discard gone).HasEntries := by
  intro i hi
  obtain ⟨hg, hd⟩ := isDefined_discard.1 hi
  rw [entry?_discard, if_neg (by rw [hg]; exact Bool.false_ne_true)]
  exact h i hd

theorem Rewritten.hasEntries {P : Index → Prop} {f : Index → Entry} (hr : m.Rewritten P f n)
    (h : m.HasEntries) : n.HasEntries := by
  intro i hi
  by_cases hp : P i
  · rw [hr.entry?_of i hp]
    rfl
  · rw [hr.entry?_of_not i hp]
    exact h i (((hr.isDefined_iff i).1 hi).resolve_left hp)

theorem BoundTo.hasEntries (hb : m.BoundTo t s n) (h : m.HasEntries) : n.HasEntries := by
  intro i hi
  by_cases hts : i = t ∨ i = s
  · rw [hb.entry?_of i hts]
    rfl
  · have ht : i ≠ t := fun he => hts (.inl he)
    have hs : i ≠ s := fun he => hts (.inr he)
    rw [hb.entry?_of_not i ht hs]
    exact h i (((hb.isDefined_iff i).1 hi).resolve_left ht |>.resolve_left hs)

theorem Rewritten.mustEdge_iff {P : Index → Prop} {f : Index → Entry} (hr : m.Rewritten P f n) :
    n.MustEdge i j ↔ m.MustEdge i j := by
  unfold MustEdge
  rw [hr.aliases_eq]

theorem Rewritten.edge_iff {P : Index → Prop} {f : Index → Entry} (hr : m.Rewritten P f n) :
    n.Edge i j ↔ m.Edge i j := by
  unfold Edge
  rw [hr.aliases_eq]

theorem Rewritten.linked_iff {P : Index → Prop} {f : Index → Entry} (hr : m.Rewritten P f n) :
    n.Linked i j ↔ m.Linked i j := by
  have hedge : n.Edge = m.Edge := by
    funext a b
    exact propext hr.edge_iff
  unfold Linked
  rw [hedge]

theorem Rewritten.mustLinked_iff {P : Index → Prop} {f : Index → Entry} (hr : m.Rewritten P f n) :
    n.MustLinked i j ↔ m.MustLinked i j := by
  have hedge : n.MustEdge = m.MustEdge := by
    funext a b
    exact propext hr.mustEdge_iff
  unfold MustLinked
  rw [hedge]

/-- The aliases of `n` are those of `m` after `t` was bound to `s`. -/
structure Relinked (m : Memory) (t s : Index) (n : Memory) : Prop where
  aliases_eq : t = s → ∀ i, n.aliases i = m.aliases i
  strength?_eq : t ≠ s → ∀ a b, (n.aliases a).strength? b =
    m.strengthAfterLink t s (m.bindingStrength t s) a b

/-- Binding keeps all edges, though it may make them uncertain. -/
theorem Relinked.edge_of_edge (hb : m.Relinked t s n) (h : m.Edge i j) : n.Edge i j := by
  obtain ⟨r, hr⟩ := h
  unfold Edge
  by_cases hts : t = s
  · rw [hb.aliases_eq hts]
    exact ⟨r, hr⟩
  · rw [hb.strength?_eq hts]
    unfold strengthAfterLink
    split
    · exact ⟨_, rfl⟩
    · split
      · rw [hr]
        exact ⟨.may, rfl⟩
      · exact ⟨r, hr⟩

/-- A certain edge that was there before is one that the binding has not touched, or the binding is
certain itself. -/
theorem Relinked.of_mustEdge (hb : m.Relinked t s n) (h : n.MustEdge i j) :
    i = t ∧ j = s ∨ i = s ∧ j = t ∨
      m.MustEdge i j ∧ (i ≠ t ∧ j ≠ t ∨ t = s ∨ m.bindingStrength t s = .must) := by
  unfold MustEdge at h
  by_cases hts : t = s
  · rw [hb.aliases_eq hts] at h
    exact .inr (.inr ⟨h, .inr (.inl hts)⟩)
  · rw [hb.strength?_eq hts] at h
    unfold strengthAfterLink at h
    split at h
    · next hends => tauto
    · split at h
      · obtain ⟨r, -, hr⟩ := Option.map_eq_some_iff.1 h
        cases hr
      · next hside =>
        refine .inr (.inr ⟨h, ?_⟩)
        cases hstrength : m.bindingStrength t s with
        | must => exact .inr (.inr rfl)
        | may =>
          have hout := not_or.1 fun hends => hside ⟨hstrength, hends⟩
          exact .inl hout

/-- Nothing but the aliases matters. -/
theorem Relinked.congr {m' n' : Memory} (hb : m.Relinked t s n)
    (hm : ∀ i, m'.aliases i = m.aliases i) (hn : ∀ i, n'.aliases i = n.aliases i) :
    m'.Relinked t s n' where
  aliases_eq := fun hts i => (hn i).trans ((hb.aliases_eq hts i).trans (hm i).symm)
  strength?_eq := by
    intro hts a b
    rw [hn, hb.strength?_eq hts]
    unfold strengthAfterLink bindingStrength
    rw [hm, hm]

theorem BoundTo.relinked (hb : m.BoundTo t s n) : m.Relinked t s n :=
  ⟨hb.aliases_eq, hb.strength?_eq⟩

theorem BoundTo.edge_of_edge (hb : m.BoundTo t s n) (h : m.Edge i j) : n.Edge i j :=
  hb.relinked.edge_of_edge h

theorem BoundTo.linked_of_linked (hb : m.BoundTo t s n) (h : m.Linked i j) : n.Linked i j :=
  ReflTransGen.mono (fun _ _ => hb.edge_of_edge) _ _ h

theorem BoundTo.linked (hb : m.BoundTo t s n) : n.Linked t s := by
  by_cases hts : t = s
  · rw [hts]
    exact .refl
  · refine .single ⟨m.bindingStrength t s, ?_⟩
    rw [hb.strength?_eq hts]
    exact if_pos (.inl ⟨rfl, rfl⟩)

/-- A binding is certain if it was before, or if the target had no aliases. -/
theorem bindingStrength_eq_must (h : m.bindingStrength t s = .must) :
    m.MustEdge t s ∨ ∀ j, ¬m.Edge t j := by
  unfold bindingStrength at h
  split at h
  · next hor =>
    refine hor.imp_right fun hempty j => ?_
    rintro ⟨r, hr⟩
    rw [AliasSet.isEmpty_iff.1 hempty] at hr
    cases hr
  · cases h

theorem mustEdge_discard {gone : Index → Bool} : (m.discard gone).MustEdge i j ↔
    gone i = false ∧ gone j = false ∧ m.MustEdge i j := by
  unfold MustEdge
  rw [strength?_discard]
  cases hi : gone i <;> cases hj : gone j <;> simp

end Memory

namespace Transact
open Memory
variable {m : Memory} {p target source : Path} {e : Entry}

theorem yields_assign_variable (limits : Limits) (h : m.Flat) (he : e.IsFlat)
    (hp : p.isVariable = true) (force : Bool) (hfits : ∀ i, m.Linked (p.indexAt m.level) i →
      (m.assigned (p.indexAt m.level) e i).Fits limits.simplify) :
    ∃ n, Yields (Snapshot.assign p e force) limits m () n ∧
      m.Rewritten (m.Linked (p.indexAt m.level)) (m.assigned (p.indexAt m.level) e) n := by
  let d : Draft := { memory := m, limit := limits.simplify }
  exact ⟨_, Yields.mutate (Edit.assign_run d p he.isData force),
    rewritten_assign (d := d) h he hp m.level force hfits⟩

theorem yields_assignAlias (limits : Limits) (h : m.Flat) (hsym : m.AliasesSymmetric)
    (hentries : m.HasEntries) (ht : target.isVariable = true) (hs : source.isVariable = true)
    (hfits : (m.referred (source.indexAt m.level)).Fits limits.simplify) :
    ∃ n, Yields (Snapshot.assignAlias target source) limits m () n ∧
      m.BoundTo (target.indexAt m.level) (source.indexAt m.level) n := by
  let d : Draft := { memory := m, limit := limits.simplify }
  obtain ⟨d', hrun, hbound⟩ := exists_boundTo (d := d) h hsym hentries ht hs m.level m.level hfits
  exact ⟨_, Yields.mutate ((Edit.assignAlias_run d target source).trans hrun), hbound⟩

theorem yields_unset_variable (limits : Limits) (h : m.Flat) (hp : p.isVariable = true) :
    Yields (Snapshot.unset p) limits m () (m.discard fun i => i = p.indexAt m.level) := by
  let d : Draft := { memory := m, limit := limits.simplify }
  have hrun : (Edit.unset p).run d = .ok () (d.unset p) := rfl
  have hmemory : (d.unset p).memory = m.discard fun i => i = p.indexAt m.level :=
    unset_flat (d := d) h hp
  rw [← hmemory]
  exact Yields.mutate hrun

end Transact
end ScriptMemory
