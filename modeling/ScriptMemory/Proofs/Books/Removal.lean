import ScriptMemory.Proofs.Books.Reading
import ScriptMemory.Proofs.Memory.Nesting

/-! Removing locations from the books. A location is struck off one book after the other: its
definition, the edges that its own aliases have back to it, its place in the list of its container
and its entry; what its array lists goes before it. Memory discards a whole set of locations with
every mention of them at once, which comes to the same, since aliases are mutual and nothing is
listed but by its container. -/
namespace ScriptMemory
open Std

namespace Books

/-- Strikes a member off the list of its object, or of the array above it if there is one. -/
def unlist (b : Books) : Index → Books
  | .root _ => b
  | .member (.root (.object id)) s =>
    { b with objects := b.objects.modify id fun d => { d with fields := d.fields.erase s } }
  | .member parent s =>
    { b with shapes := b.shapes.modify parent fun d =>
        { d with members := d.members.map fun ms => ms.erase s } }

/-- Makes other locations forget that `i` is an alias. -/
def disown (b : Books) (i : Index) (peers : List Index) : Books :=
  peers.foldl (fun b j => b.modifyAliases j (·.erase i)) b

/-- Removes the definition of a location, and the edges that its aliases have back to it. -/
def undefine (b : Books) (i : Index) : Books :=
  { b with shapes := b.shapes.erase i }.disown i (b.aliases i).toList

/-- Removes one location without what lies below it. -/
def strike (b : Books) (i : Index) : Books :=
  if b.isDefined i then
    let c := (b.undefine i).unlist i
    { c with entries := c.entries.erase i }
  else b

/-- Removes a location after its members, each of them in the same way. The first argument bounds
the depth. -/
def removeWithin : Nat → Books → Index → Books
  | 0, b, i => b.strike i
  | depth + 1, b, i => ((b.members i).foldl (removeWithin depth) b).strike i

/-- Removes a location with all that lies below it: the locations on a way down are all defined. -/
def remove (b : Books) (i : Index) : Books :=
  removeWithin (b.shapes.size + 1) b i

/-- Removes the members of the array that a location has, each with all that lies below it. -/
def clearMembers (b : Books) (i : Index) : Books :=
  (b.members i).foldl (removeWithin b.shapes.size) b

/-- Removes the variables and the return value of the frame at a level. -/
def closeFrame (b : Books) (level : Nat) : Books :=
  (b.shapes.keys.filter (·.isRootedAtLevel level)).foldl remove b

variable {b : Books} {i j : Index}

theorem getElem?_shapes_disown (b : Books) (i : Index) (peers : List Index) (j : Index) :
    (b.disown i peers).shapes[j]? = b.shapes[j]?.map fun d =>
      { d with aliases := if j ∈ peers then d.aliases.erase i else d.aliases } := by
  induction peers generalizing b with
  | nil => simp [disown]
  | cons k peers ih =>
    have herase (a : AliasSet) : (a.erase i).erase i = a.erase i := by
      apply AliasSet.ext_strength?
      intro x
      rw [AliasSet.strength?_erase, ite_eq_right_iff]
      intro hx
      rw [AliasSet.strength?_erase, if_pos hx]
    have hk : (b.modifyAliases k (·.erase i)).shapes[j]? = b.shapes[j]?.map fun d =>
        { d with aliases := if j = k then d.aliases.erase i else d.aliases } := by
      change (b.shapes.modify k _)[j]? = _
      rw [OrdMap.getElem?_modify]
      split <;> simp
    calc (b.disown i (k :: peers)).shapes[j]?
        = ((b.modifyAliases k (·.erase i)).disown i peers).shapes[j]? := rfl
      _ = _ := by
        rw [ih, hk, Option.map_map]
        congr 1
        ext1 d
        by_cases hj : j = k <;> by_cases hp : j ∈ peers <;> simp [hj, hp, herase]

theorem entries_disown (b : Books) (i : Index) (peers : List Index) :
    (b.disown i peers).entries = b.entries := by
  induction peers generalizing b with
  | nil => rfl
  | cons k peers ih => exact ih _

theorem objects_disown (b : Books) (i : Index) (peers : List Index) :
    (b.disown i peers).objects = b.objects := by
  induction peers generalizing b with
  | nil => rfl
  | cons k peers ih => exact ih _

theorem level_disown (b : Books) (i : Index) (peers : List Index) :
    (b.disown i peers).level = b.level := by
  induction peers generalizing b with
  | nil => rfl
  | cons k peers ih => exact ih _

/-- Nothing is filtered out of a list that `i` cannot be in. -/
theorem filter_members_of_ne {ms : OrdSet Segment} (h : ∀ s ∈ ms, j.member s ≠ i) :
    (ms.filter fun s => !decide (j.member s = i)) = ms := by
  apply ExtTreeSet.ext_mem
  intro s
  rw [OrdSet.mem_filter, Bool.not_eq_true', decide_eq_false_iff_not]
  exact and_iff_left_of_imp (h s)

theorem filter_members_member (ms : OrdSet Segment) (s : Segment) :
    (ms.filter fun t => !decide (j.member t = j.member s)) = ms.erase s := by
  apply ExtTreeSet.ext_mem
  intro t
  rw [OrdSet.mem_filter, OrdSet.mem_erase, Bool.not_eq_true', decide_eq_false_iff_not, and_comm]
  simp only [ne_eq, Index.member.injEq, true_and]

/-- Striking a location off its list is filtering it out of every list. -/
theorem getElem?_shapes_unlist (h : ∀ id, j = .object id → b.segments j = ∅) :
    (b.unlist i).shapes[j]? = b.shapes[j]?.map fun d => { d with
      members := d.members.map fun ms => ms.filter fun s => !decide (j.member s = i) } := by
  have hself (hms : ∀ s ∈ b.segments j, j.member s ≠ i) :
      b.shapes[j]? = b.shapes[j]?.map fun d => { d with
        members := d.members.map fun ms => ms.filter fun s => !decide (j.member s = i) } := by
    unfold segments shapeAt at hms
    cases hd : b.shapes[j]? with
    | none => rfl
    | some d =>
      rw [hd] at hms
      obtain ⟨a, ms, os⟩ := d
      cases ms with
      | none => rfl
      | some ms =>
        have hfilter : (ms.filter fun s => !decide (j.member s = i)) = ms :=
          filter_members_of_ne hms
        show _ = some (Memory.Shape.mk a (some (ms.filter _)) os)
        rw [hfilter]
  unfold unlist
  split
  · exact hself nofun
  · next id s =>
    -- a field is struck off the list of its object, so the location above it must not list it
    apply hself
    intro t ht heq
    obtain ⟨rfl, -⟩ := Index.member.inj heq
    rw [h id rfl] at ht
    exact ExtTreeSet.not_mem_empty ht
  · next parent s hobject =>
    show (b.shapes.modify parent _)[j]? = _
    rw [OrdMap.getElem?_modify]
    split
    · next hj =>
      subst hj
      simp only [filter_members_member]
    · next hj =>
      apply hself
      exact fun t _ heq => hj (Index.member.inj heq).1

theorem entries_unlist (b : Books) (i : Index) : (b.unlist i).entries = b.entries := by
  unfold unlist
  split <;> rfl

theorem level_unlist (b : Books) (i : Index) : (b.unlist i).level = b.level := by
  unfold unlist
  split <;> rfl

theorem getElem?_objects_unlist (b : Books) (i : Index) (id : ObjectId) :
    (b.unlist i).objects[id]? = b.objects[id]?.map fun d =>
      { d with fields := d.fields.filter fun s => !decide ((Index.object id).member s = i) } := by
  have hself (hne : ∀ s, (Index.object id).member s ≠ i) :
      b.objects[id]? = b.objects[id]?.map fun d =>
        { d with fields := d.fields.filter fun s => !decide ((Index.object id).member s = i) } := by
    simp only [filter_members_of_ne fun s _ => hne s, Option.map_id']
  unfold unlist
  split
  · exact hself nofun
  · next id' s =>
    show (b.objects.modify id' _)[id]? = _
    rw [OrdMap.getElem?_modify]
    split
    · next hid =>
      subst hid
      simp only [← filter_members_member (j := .object id)]
      rfl
    · next hid =>
      apply hself
      intro t heq
      cases heq
      exact hid rfl
  · next parent s hobject =>
    apply hself
    intro t heq
    exact hobject id (Index.member.inj heq).1.symm

end Books

namespace Memory
variable {m : Memory} {i j : Index} {s : Segment} {p q gone : Index → Bool}

theorem aliases_forget (h : m.AliasesSymmetric) (i j : Index) :
    (if j ∈ (m.aliases i).toList then (m.aliases j).erase i else m.aliases j) =
      (m.aliases j).filter fun k => !decide (k = i) := by
  apply AliasSet.ext_strength?
  intro k
  rw [AliasSet.strength?_filter]
  split
  · rw [AliasSet.strength?_erase]
    by_cases hk : k = i <;> simp [hk]
  · next hj =>
    by_cases hk : k = i
    · subst hk
      cases hs : (m.aliases j).strength? k with
      | none => simp
      | some t => exact absurd (AliasSet.mem_toList.2 ⟨t, (h k j).trans hs⟩) hj
    · simp [hk]

theorem getElem?_shapes_undefine (h : m.AliasesSymmetric) (i j : Index) :
    (m.books.undefine i).shapes[j]? = if j = i then none else m.shapes[j]?.map fun d =>
      { d with aliases := d.aliases.filter fun k => !decide (k = i) } := by
  rw [Books.undefine, Books.getElem?_shapes_disown, OrdMap.getElem?_erase, aliases_books]
  show (if j = i then none else m.shapes[j]?).map _ = _
  by_cases hj : j = i
  · rw [if_pos hj, if_pos hj]
    rfl
  · rw [if_neg hj, if_neg hj, getElem?_shapes]
    refine Option.map_congr fun d hd => ?_
    obtain ⟨-, hshape⟩ := Option.ite_none_right_eq_some.1 hd
    cases hshape
    have haliases : (m.shape j).aliases = m.aliases j := rfl
    rw [haliases, aliases_forget h]

theorem Filed.segments_undefine (h : m.Filed) (i : Index) (id : ObjectId) :
    (m.books.undefine i).segments (.object id) = ∅ := by
  have hshape : (m.shape (.object id)).members.getD ∅ = ∅ := by
    unfold shape
    rw [h.members_object]
    split <;> rfl
  unfold Books.segments Books.shapeAt
  rw [getElem?_shapes_undefine h.symmetric, getElem?_shapes]
  split
  · rfl
  · split
    · exact hshape
    · rfl

/-- In the alias graph of memory it is the own aliases of a location that know it, and a location
is listed by its container only; so it is gone from everywhere once it is struck off there. -/
theorem Filed.strike_books (h : m.Filed) (i : Index) :
    m.books.strike i = (m.discard fun j => j = i).books := by
  by_cases hd : m.isDefined i = true
  · have hdb : m.books.isDefined i = true := (isDefined_books m i).trans hd
    rw [books_discard, Books.strike, if_pos hdb]
    refine Books.ext_lookup (fun j => ?_) (fun j => ?_) (fun id => ?_) ?_
    · show (Books.unlist _ i).shapes[j]? = (m.shapes.filterMap _)[j]?
      rw [Books.getElem?_shapes_unlist, getElem?_shapes_undefine h.symmetric,
        ExtTreeMap.getElem?_filterMap']
      · by_cases hj : j = i
        · subst hj
          cases m.shapes[j]? <;> simp
        · cases m.shapes[j]? <;> simp [hj]
      · exact fun id hid => hid ▸ h.segments_undefine i id
    · show ((Books.unlist _ i).entries.erase i)[j]? = (m.entries.filter _)[j]?
      rw [OrdMap.getElem?_erase, Books.entries_unlist, Books.undefine, Books.entries_disown,
        ExtTreeMap.getElem?_filter']
      show (if j = i then none else m.entries[j]?) = _
      by_cases hj : j = i
      · cases m.entries[j]? <;> simp [hj]
      · cases m.entries[j]? <;> simp [hj, Option.filter]
    · show (Books.unlist _ i).objects[id]? = (m.objects.map _)[id]?
      rw [Books.getElem?_objects_unlist, Books.undefine, Books.objects_disown,
        ExtTreeMap.getElem?_map]
      rfl
    · show (Books.unlist _ i).level = m.level
      rw [Books.level_unlist, Books.undefine, Books.level_disown]
      rfl
  · have hdb : ¬m.books.isDefined i = true := fun hb => hd ((isDefined_books m i).symm.trans hb)
    have hnone : (m.discard fun j => j = i) = m.discard fun _ => false := by
      apply h.discard_congr
      intro j hj
      exact decide_eq_false fun heq => hd (heq ▸ hj)
    rw [Books.strike, if_neg hdb, hnone, discard_eq_self fun _ => rfl]

/-- Some locations are removed one after the other, where nothing lies below two of them: removing
one does not touch what lies below another. -/
theorem Filed.foldl_removeWithin_books {depth : Nat}
    (hone : ∀ {m : Memory}, m.Filed → ∀ i, m.books.removeWithin depth i =
      (m.discard (· ∈ m.subtree depth i)).books) {is : List Index}
    (hapart : is.Pairwise fun i j => ∀ k, i.Contains k → ¬j.Contains k) (h : m.Filed) :
    is.foldl (Books.removeWithin depth) m.books =
      (m.discard (· ∈ is.flatMap (m.subtree depth))).books := by
  induction is generalizing m with
  | nil =>
    symm
    exact congrArg books (discard_eq_self fun _ => rfl)
  | cons i is ih =>
    obtain ⟨hi, his⟩ := List.pairwise_cons.1 hapart
    have hrest : is.flatMap ((m.discard (· ∈ m.subtree depth i)).subtree depth) =
        is.flatMap (m.subtree depth) := by
      refine List.flatMap_congr fun j hj => subtree_discard fun k hk => ?_
      exact decide_eq_false fun hmem => hi j hj k (contains_of_mem_subtree hmem) hk
    rw [List.foldl_cons, hone h i, ih his (h.discard _), hrest, discard_discard]
    apply congrArg books
    apply discard_eq_of_iff
    intro k
    simp only [List.flatMap_cons, List.mem_append, Bool.or_eq_true, decide_eq_true_eq]

theorem pairwise_members (m : Memory) (i : Index) :
    (m.members i).Pairwise fun j k => ∀ x, j.Contains x → ¬k.Contains x := by
  unfold members
  rw [List.pairwise_map]
  refine (OrdSet.nodup_toList _).imp fun hne x hs ht => hne ?_
  exact hs.segment_eq ht

/-- Removing a location after its members discards it together with them. By induction on the
depth. -/
theorem Filed.removeWithin_books {depth : Nat} (h : m.Filed) (i : Index) :
    m.books.removeWithin depth i = (m.discard (· ∈ m.subtree depth i)).books := by
  induction depth generalizing m i with
  | zero =>
    rw [Books.removeWithin, h.strike_books]
    simp only [subtree, List.mem_singleton]
  | succ depth ih =>
    rw [Books.removeWithin, h.members_books,
      h.foldl_removeWithin_books ih (pairwise_members m i), (h.discard _).strike_books,
      discard_discard]
    apply congrArg books
    apply discard_eq_of_iff
    intro k
    simp only [subtree, List.mem_cons, Bool.or_eq_true, decide_eq_true_eq, or_comm]

theorem Filed.clearMembers_books (h : m.Filed) (i : Index) :
    m.books.clearMembers i = (m.clearMembers i).books := by
  rw [Books.clearMembers, h.members_books, size_books,
    h.foldl_removeWithin_books (fun h => h.removeWithin_books) (pairwise_members m i)]
  apply congrArg books
  apply discard_eq_of_iff
  intro k
  rw [decide_eq_true_eq, ExtTreeSet.contains_iff_mem, OrdSet.mem_ofList]
  rfl

theorem Filed.remove_books (h : m.Filed) (i : Index) :
    m.books.remove i = (m.discard fun j => j = i ∨ j ∈ m.below i).books := by
  rw [Books.remove, size_books, h.removeWithin_books]
  apply congrArg books
  apply discard_eq_of_iff
  intro k
  simp only [subtree, List.mem_cons, decide_eq_true_eq]
  rfl

/-- Whole locations are removed one after the other. It does not matter that some may lie below
others: what is gone with the first ones is not there any more, and all else below is. -/
theorem Filed.foldl_remove_books (h : m.Filed) (is : List Index) :
    is.foldl Books.remove m.books =
      (m.discard fun j => ∃ i ∈ is, j = i ∨ j ∈ m.below i).books := by
  induction is generalizing m with
  | nil =>
    symm
    exact congrArg books (discard_eq_self fun i => decide_eq_false (by simp))
  | cons i is ih =>
    have hclosed : ∀ p s, s ∈ (m.cell p).members →
        (decide (p = i ∨ p ∈ m.below i) : Bool) = true →
          (decide (p.member s = i ∨ p.member s ∈ m.below i) : Bool) = true := by
      intro p s hs hp
      rw [decide_eq_true_eq] at hp ⊢
      rcases hp with rfl | hp
      · exact .inr (h.mem_below.2 ⟨s, [], ⟨hs, trivial⟩, rfl⟩)
      · exact .inr (h.mem_below_member hp hs)
    rw [List.foldl_cons, h.remove_books, ih (h.discard _), discard_discard]
    apply congrArg books
    apply discard_eq_of_iff
    intro j
    have hbelow (k : Index) := h.mem_below_discard (i := k) (j := j) hclosed
    simp only [decide_eq_true_eq] at hbelow
    simp only [Bool.or_eq_true, decide_eq_true_eq, List.exists_mem_cons_iff]
    by_cases hj : j = i ∨ j ∈ m.below i
    · exact iff_of_true (.inl hj) (.inl hj)
    · simp only [hj, false_or] at hbelow ⊢
      simp only [hbelow]

theorem Filed.remove_all_books (h : m.Filed) (targets : List Index) :
    targets.foldl Books.remove m.books = (m.remove targets).books := by
  rw [h.foldl_remove_books]
  apply congrArg books
  apply discard_eq_of_iff
  intro j
  rw [mem_contains_ofList, List.mem_append, List.mem_flatMap, decide_eq_true_eq]
  constructor
  · rintro ⟨i, hi, rfl | hj⟩
    · exact .inl hi
    · exact .inr ⟨i, hi, hj⟩
  · rintro (hj | ⟨i, hi, hj⟩)
    · exact ⟨j, hj, .inl rfl⟩
    · exact ⟨i, hi, .inr hj⟩

/-- What lies below a location of a frame belongs to the frame. -/
theorem Filed.closeFrame_books (h : m.Filed) (level : Nat) :
    m.books.closeFrame level = (m.discard (·.isRootedAtLevel level)).books := by
  rw [Books.closeFrame, h.foldl_remove_books]
  apply congrArg books
  apply h.discard_congr
  intro j hj
  rw [Bool.eq_iff_iff, decide_eq_true_eq]
  constructor
  · rintro ⟨i, hi, heq⟩
    have hi : i.isRootedAtLevel level = true := (List.mem_filter.1 hi).2
    rcases heq with rfl | hbelow
    · exact hi
    · obtain ⟨s, -, hs⟩ := h.contains_of_mem_below hbelow
      have hbase : j.base = i.base := ((Index.contains_member i s).trans hs).base_eq
      unfold Index.isRootedAtLevel at hi ⊢
      rwa [hbase]
  · exact fun hroot => ⟨j, List.mem_filter.2 ⟨(mem_keys_books m j).2 hj, hroot⟩, .inl rfl⟩

end Memory
end ScriptMemory
