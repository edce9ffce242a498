import ScriptMemory.Proofs.Assignment
import ScriptMemory.Proofs.Lattice
import ScriptMemory.Proofs.LocalMerging

/-! What a location held, written back to it. A strong write first removes all that lies below the
location, and every alias edge with it; then the copy goes through the members in the order in which
they are listed, and puts back one location at a time. In the end all is there again but the edges.
A weak write adds what is there already. -/
namespace ScriptMemory
open Std

namespace Cell

/-- The cell of `i` without the alias edges that touch some locations. -/
def unlink (c : Cell) (i : Index) (cut : Index → Bool) : Cell :=
  { c with aliases := if cut i then ∅ else c.aliases.filter fun j => !cut j }

theorem unlink_blank (i : Index) (cut : Index → Bool) : ({} : Cell).unlink i cut = {} := by
  have hnone : (∅ : AliasSet).filter (fun j => !cut j) = ∅ := by
    apply AliasSet.ext_strength?
    intro j
    rw [AliasSet.strength?_filter, AliasSet.strength?_empty, ite_self]
  unfold unlink
  dsimp only
  rw [hnone, ite_self]

end Cell

namespace Memory
variable {m n : Memory} {i j p x : Index} {e : Entry} {s : Segment} {cut gone : Index → Bool}
  {missing : List Index}

/-- The memory without the alias edges that touch some locations. -/
def unlink (m : Memory) (cut : Index → Bool) : Memory :=
  { m with cells := m.cells.map fun i c => c.unlink i cut }

theorem cell_unlink (m : Memory) (cut : Index → Bool) (i : Index) :
    (m.unlink cut).cell i = (m.cell i).unlink i cut := by
  unfold unlink cell
  rw [ExtTreeMap.getElem?_map]
  cases m.cells[i]? with
  | none => exact (Cell.unlink_blank i cut).symm
  | some c => rfl

@[simp]
theorem entry?_unlink (m : Memory) (cut : Index → Bool) (i : Index) :
    Memory.entry? (m.unlink cut) i = m.entry? i := by
  unfold entry?
  rw [cell_unlink]
  rfl

@[simp]
theorem members_unlink (m : Memory) (cut : Index → Bool) (i : Index) :
    ((m.unlink cut).cell i).members = (m.cell i).members := by
  rw [cell_unlink]
  rfl

theorem aliases_unlink (m : Memory) (cut : Index → Bool) (i : Index) :
    (m.unlink cut).aliases i = if cut i then ∅ else (m.aliases i).filter fun j => !cut j :=
  congrArg Cell.aliases (cell_unlink m cut i)

theorem strength?_unlink (m : Memory) (cut : Index → Bool) (i j : Index) :
    ((m.unlink cut).aliases i).strength? j =
      if cut i = true ∨ cut j = true then none else (m.aliases i).strength? j := by
  rw [aliases_unlink]
  by_cases hi : cut i = true
  · rw [if_pos hi, if_pos (.inl hi), AliasSet.strength?_empty]
  · rw [if_neg hi, AliasSet.strength?_filter]
    by_cases hj : cut j = true <;> simp [hi, hj]

@[simp]
theorem isDefined_unlink (m : Memory) (cut : Index → Bool) (i : Index) :
    (m.unlink cut).isDefined i = m.isDefined i := by
  unfold isDefined unlink
  exact ExtTreeMap.contains_map

theorem consistent_unlink (h : m.Consistent) (cut : Index → Bool) : (m.unlink cut).Consistent :=
  h.of_aliases
    (fun i j => by simp only [strength?_unlink, h.symmetric i j, or_comm])
    (fun i => by rw [strength?_unlink, h.irreflexive, ite_self])
    (entry?_unlink m cut) (members_unlink m cut) rfl

/-- Locations that are removed take their edges with them. -/
theorem discard_unlink (m : Memory) (gone : Index → Bool) :
    (m.unlink gone).discard gone = m.discard gone := by
  refine ext_parts (fun i => ?_) (fun i => ?_) (fun i => ?_) (fun i s => ?_) (fun id => ?_) rfl
  · rw [isDefined_discard, isDefined_discard, isDefined_unlink]
  · rw [entry?_discard, entry?_discard, entry?_unlink]
  · rw [aliases_discard, aliases_discard]
    by_cases hi : gone i = true
    · rw [if_pos hi, if_pos hi]
    · rw [if_neg hi, if_neg hi]
      apply AliasSet.ext_strength?
      intro j
      rw [AliasSet.strength?_filter, AliasSet.strength?_filter, strength?_unlink]
      by_cases hj : gone j = true <;> simp [hi, hj]
  · rw [members_discard, members_discard, members_unlink]
  · rw [object?_discard, object?_discard]
    rfl

/-- Nothing is cut exactly if there is nothing to cut. -/
theorem unlink_eq_self_iff (h : m.AliasesSymmetric) :
    m.unlink cut = m ↔ ∀ i, cut i = true → (m.aliases i).isEmpty = true := by
  simp only [AliasSet.isEmpty_iff]
  constructor
  · intro heq i hi j
    rw [← heq, strength?_unlink, if_pos (.inl hi)]
  · intro hnone
    refine ext_parts (fun i => ?_) (entry?_unlink m cut) (fun i => ?_) (fun i s => ?_)
      (fun _ => rfl) rfl
    · rw [isDefined_unlink]
    · apply AliasSet.ext_strength?
      intro j
      rw [strength?_unlink, ite_eq_right_iff]
      rintro (hi | hj)
      · rw [hnone i hi j]
      · rw [h i j, hnone j hj i]
    · rw [members_unlink]

theorem Filed.ne_object_of_mem (h : m.Filed) (hs : s ∈ (m.cell p).members) (id : ObjectId) :
    p ≠ .object id := by
  rintro rfl
  rw [h.members_object] at hs
  exact ExtTreeSet.not_mem_empty hs

/-- A member that is listed is not listed anew. -/
theorem Filed.register_member_eq_self (h : m.Filed) (hs : s ∈ (m.cell p).members) :
    m.register (p.member s) = m := by
  have hp := h.ne_object_of_mem hs
  have hholds := (h.member p s hs).1
  have hmembers (i : Index) (t : Segment) :
      t ∈ ((m.register (p.member s)).cell i).members ↔ t ∈ (m.cell i).members := by
    by_cases hi : i = p
    · subst hi
      rw [mem_members_register_member hp hholds, or_iff_right_iff_imp]
      rintro rfl
      exact hs
    · rw [members_register_of_not]
      rintro t heq
      exact hi (Index.member.inj heq).1.symm
  refine ext_parts (fun i => ?_) (entry?_register m _) (aliases_register m _) hmembers
    (fun id => ?_) (level_register m _)
  · rw [isDefined_register]
  · rw [register_member hp hholds]

theorem Filed.register_eq_self (h : m.Filed) (hi : m.Lists i) : m.register i = m := by
  cases i with
  | root r => rfl
  | member p s =>
    rcases hi with ⟨-, hs⟩ | ⟨-, id, d, rfl, hd, hs⟩
    · exact h.register_member_eq_self hs
    · have hinsert : d.fields.insert s = d.fields := by
        apply ExtTreeSet.ext_mem
        intro t
        rw [OrdSet.mem_insert, or_iff_right_iff_imp]
        rintro rfl
        exact hs
      refine ext_parts (fun _ => Iff.rfl) (fun _ => rfl) (fun _ => rfl) (fun _ _ => Iff.rfl)
        (fun k => ?_) rfl
      change (m.objects.modify id _)[k]? = _
      rw [ExtTreeMap.getElem?_modify]
      split
      · next hk =>
        obtain rfl := LawfulEqCmp.compare_eq_iff_eq.1 hk
        rw [hd, Option.map_some, hinsert]
      · rfl

/-- An entry that is there already is put in vain. -/
theorem Consistent.put_eq_self (h : m.Consistent) (he : m.entry? i = some e) : m.put i e = m := by
  refine ext_parts (fun j => ?_) (fun j => ?_) (fun j => aliases_put m i j e) (fun j s => ?_)
    (fun _ => rfl) rfl
  · unfold put
    rw [isDefined_insert, or_iff_right_iff_imp]
    rintro rfl
    exact isDefined_of_entry? he
  · rw [entry?_put, ite_eq_right_iff]
    rintro rfl
    exact he.symm
  · rw [members_put]
    split
    · next heq =>
      subst heq
      split
      · rfl
      · next hc =>
        rw [h.members_eq_empty]
        rwa [holdsArray_eq_contains, entryOrUndefined_of_some he]
    · rfl

/-- The memory without some locations, once the edges of these have been cut. -/
def without (m : Memory) (cut : Index → Bool) (missing : List Index) : Memory :=
  (m.unlink cut).discard (· ∈ missing)

theorem isDefined_without :
    (m.without cut missing).isDefined i = true ↔ i ∉ missing ∧ m.isDefined i = true := by
  unfold without
  rw [isDefined_discard, isDefined_unlink, decide_eq_false_iff_not]

theorem entry?_without (m : Memory) (cut : Index → Bool) (missing : List Index) (i : Index) :
    Memory.entry? (m.without cut missing) i = if i ∈ missing then none else m.entry? i := by
  unfold without
  simp only [entry?_discard, entry?_unlink, decide_eq_true_eq]

theorem aliases_without (hcut : ∀ j ∈ missing, cut j = true) (i : Index) :
    (m.without cut missing).aliases i = (m.unlink cut).aliases i := by
  unfold without
  apply AliasSet.ext_strength?
  intro j
  simp only [aliases_discard, decide_eq_true_eq]
  split
  · next hi => rw [AliasSet.strength?_empty, strength?_unlink, if_pos (.inl (hcut i hi))]
  · rw [AliasSet.strength?_filter, ite_eq_left_iff]
    intro hj
    rw [strength?_unlink, if_pos (.inr (hcut j (by simpa using hj)))]

theorem mem_members_without : s ∈ ((m.without cut missing).cell i).members ↔
    i ∉ missing ∧ s ∈ (m.cell i).members ∧ i.member s ∉ missing := by
  unfold without
  simp only [members_discard, members_unlink, decide_eq_true_eq]
  split
  · next hi => exact iff_of_false ExtTreeSet.not_mem_empty fun hs => hs.1 hi
  · next hi => simp [hi]

theorem object?_without (m : Memory) (cut : Index → Bool) (missing : List Index) (id : ObjectId) :
    (m.without cut missing).objects[id]? = m.objects[id]?.map fun d =>
      { d with fields := d.fields.filter fun s => !((Index.object id).member s ∈ missing) } := by
  unfold without
  exact object?_discard _ _ id

theorem without_nil (m : Memory) (cut : Index → Bool) : m.without cut [] = m.unlink cut :=
  discard_eq_self fun _ => decide_eq_false List.not_mem_nil

section
variable {t : Segment} (h : m.Filed) (hs : s ∈ (m.cell p).members) (hp : p ∉ missing)
include h hs hp

theorem Filed.holdsArray_without : (m.without cut (p.member s :: missing)).holdsArray p = true := by
  rw [holdsArray_congr (m := m), (h.member p s hs).1]
  rw [entry?_without, if_neg]
  rw [List.mem_cons, or_iff_right (Index.ne_member p s)]
  exact hp

variable (hx : p.member s ∉ missing)
  (hbelow : ∀ t ∈ (m.cell (p.member s)).members, (p.member s).member t ∈ missing)
include hx hbelow

/-- A member that is put back is listed by its container again, and no other list changes. -/
theorem Filed.mem_members_put_register :
    t ∈ ((((m.without cut (p.member s :: missing)).register (p.member s)).put
        (p.member s) e).cell j).members ↔ t ∈ ((m.without cut missing).cell j).members := by
  have hmem {k : Index} (hk : k ≠ p.member s) : k ∈ p.member s :: missing ↔ k ∈ missing := by
    rw [List.mem_cons, or_iff_right hk]
  rw [members_put, mem_members_without]
  by_cases hj : j = p.member s
  · subst hj
    refine iff_of_false ?_ fun ht => ht.2.2 (hbelow t ht.2.1)
    rw [if_pos rfl, members_register_of_not (Index.ne_member _)]
    split
    · exact fun ht => (mem_members_without.1 ht).1 List.mem_cons_self
    · exact ExtTreeSet.not_mem_empty
  rw [if_neg hj]
  by_cases hjp : j = p
  · subst hjp
    rw [mem_members_register_member (h.ne_object_of_mem hs) (h.holdsArray_without hs hp),
      mem_members_without, hmem hj]
    by_cases ht : t = s
    · subst ht
      exact iff_of_true (.inl rfl) ⟨hp, hs, hx⟩
    · rw [or_iff_right ht, hmem fun heq => ht (Index.member.inj heq).2]
  · have hother (t : Segment) : j.member t ≠ p.member s :=
      fun heq => hjp (Index.member.inj heq).1
    rw [members_register_of_not fun t heq => hother t heq.symm, mem_members_without, hmem hj,
      hmem (hother t)]

/-- The next location that is put back: its container is there, and nothing that lies below it. -/
theorem Filed.put_register_without (hcut : ∀ j ∈ p.member s :: missing, cut j = true)
    (he : m.entry? (p.member s) = some e) :
    ((m.without cut (p.member s :: missing)).register (p.member s)).put (p.member s) e =
      m.without cut missing := by
  have hmem {k : Index} (hk : k ≠ p.member s) : k ∈ p.member s :: missing ↔ k ∈ missing := by
    rw [List.mem_cons, or_iff_right hk]
  have hobject := h.ne_object_of_mem hs
  have hobjects : (((m.without cut (p.member s :: missing)).register (p.member s)).put
      (p.member s) e).objects = (m.without cut (p.member s :: missing)).objects := by
    change ((m.without cut (p.member s :: missing)).register (p.member s)).objects = _
    rw [register_member hobject (h.holdsArray_without hs hp)]
  refine ext_parts (fun j => ?_) (fun j => ?_) (fun j => ?_)
    (fun j t => h.mem_members_put_register hs hp hx hbelow) (fun id => ?_) ?_
  · rw [isDefined_put_register, isDefined_without, isDefined_without]
    by_cases hj : j = p.member s
    · subst hj
      exact iff_of_true (.inl rfl) ⟨hx, isDefined_of_entry? he⟩
    · rw [or_iff_right hj, hmem hj]
  · rw [entry?_put_register, entry?_without, entry?_without]
    by_cases hj : j = p.member s
    · subst hj
      rw [if_pos rfl, if_neg hx, he]
    · simp only [if_neg hj, hmem hj]
  · rw [aliases_put, aliases_register, aliases_without hcut,
      aliases_without fun j hj => hcut j (List.mem_cons_of_mem _ hj)]
  · rw [hobjects, object?_without, object?_without]
    simp only [hmem fun heq => hobject id (Index.member.inj heq).1.symm]
  · rw [level_put, level_register]
    rfl

end

theorem members_eq_nil (h : ∀ s, s ∉ (m.cell x).members) : m.members x = [] := by
  apply List.eq_nil_iff_forall_not_mem.2
  intro j hj
  obtain ⟨s, hs, -⟩ := mem_members.1 hj
  exact h s hs

/-- The bound does not matter to the search below a location if no way down is longer. -/
theorem subtree_congr {a b : Nat}
    (ha : ∀ segments, m.ListsAlong x segments → segments.length ≤ a)
    (hb : ∀ segments, m.ListsAlong x segments → segments.length ≤ b) :
    m.subtree a x = m.subtree b x := by
  have hnone {x : Index} (h : ∀ segments, m.ListsAlong x segments → segments.length ≤ 0) :
      m.members x = [] :=
    members_eq_nil fun s hs => Nat.not_succ_le_zero 0 (h [s] ⟨hs, trivial⟩)
  induction a generalizing x b with
  | zero =>
    cases b with
    | zero => rfl
    | succ b => rw [subtree, subtree, hnone ha, List.flatMap_nil]
  | succ a ih =>
    cases b with
    | zero => rw [subtree, subtree, hnone hb, List.flatMap_nil]
    | succ b =>
      have hmember {s : Segment} {c : Nat} (hs : s ∈ (m.cell x).members)
          (h : ∀ segments, m.ListsAlong x segments → segments.length ≤ c + 1)
          (segments : List Segment) (hl : m.ListsAlong (x.member s) segments) :
          segments.length ≤ c :=
        Nat.le_of_succ_le_succ (h (s :: segments) ⟨hs, hl⟩)
      rw [subtree, subtree]
      congr 1
      apply List.flatMap_congr
      intro j hj
      obtain ⟨s, hs, rfl⟩ := mem_members.1 hj
      exact ih (hmember hs ha) (hmember hs hb)

/-- The search comes to every location once. -/
theorem nodup_subtree (m : Memory) (bound : Nat) (x : Index) : (m.subtree bound x).Nodup := by
  induction bound generalizing x with
  | zero => exact List.nodup_singleton x
  | succ bound ih =>
    rw [subtree, List.nodup_cons]
    constructor
    · intro hx
      obtain ⟨k, hk, hx⟩ := List.mem_flatMap.1 hx
      obtain ⟨s, -, rfl⟩ := mem_members.1 hk
      exact Index.not_member_contains x s (contains_of_mem_subtree hx)
    · unfold members
      rw [List.flatMap_map, List.nodup_flatMap]
      refine ⟨fun s _ => ih (x.member s), (OrdSet.nodup_toList _).imp fun hne j hs ht => hne ?_⟩
      exact (contains_of_mem_subtree hs).segment_eq (contains_of_mem_subtree ht)

theorem subtree_eq_cons {depth : Nat}
    (hdepth : ∀ segments, m.ListsAlong x segments → segments.length ≤ depth) :
    m.subtree depth x = x :: (m.members x).flatMap (m.subtree (depth - 1)) := by
  rw [← subtree]
  exact subtree_congr hdepth fun segments hl =>
    Nat.le_trans (hdepth segments hl) (Nat.le_succ_of_pred_le (Nat.le_refl _))

theorem nodup_below (m : Memory) (i : Index) : (m.below i).Nodup :=
  (List.nodup_cons.1 (m.nodup_subtree (m.cells.size + 1) i)).2

theorem clearMembers_eq_without (m : Memory) (i : Index) :
    m.clearMembers i = m.without (· ∈ m.below i) (m.below i) := by
  unfold without
  rw [discard_unlink]
  exact congrArg m.discard
    (funext fun j => Bool.eq_iff_iff.2 (mem_contains_ofList.trans decide_eq_true_iff.symm))

/-- A location stays listed when all that lies below it is removed. -/
theorem Consistent.lists_clearMembers (h : m.Consistent) (hi : m.Lists i) :
    (m.clearMembers i).Lists i := by
  have hself : i ∉ m.below i := fun hb => (h.contains_ne_of_mem_below hb).2 rfl
  apply hi.mono
  · rintro p s rfl hs
    rwa [h.members_clearMembers_of_not (Index.not_member_contains p s)]
  · rintro id d s rfl hd hs
    refine ⟨_, (object?_discard m _ id).trans (congrArg _ hd), OrdSet.mem_filter.2 ⟨hs, ?_⟩⟩
    rw [Bool.not_eq_true', ← Bool.not_eq_true, mem_contains_ofList]
    exact hself

end Memory

namespace Draft
open Memory
variable {d : Draft} {m : Memory} {i p x : Index} {e : Entry} {s : Segment} {cut : Index → Bool}
  {missing : List Index}

/-- What a location holds is written to it as it is. -/
theorem incoming_held (h : m.Consistent) (x : Index) :
    incoming x (m.entryOrUndefined x) (m.holdsArray x) = m.entryOrUndefined x := by
  refine incoming_eq_self (fun k hk => ?_) ?_
  · exact (h.held_entryOrUndefined x _ hk).2 k rfl
  · rw [holdsArray_eq_contains, Entry.contains_eq_true]

/-- The draft is one of `m` without the edges that are cut, and some locations are still to be put
back. -/
structure Awaits (d : Draft) (m : Memory) (cut : Index → Bool) (missing : List Index) : Prop where
  limit_eq : d.limit = none
  memory_eq : d.memory = m.without cut missing
  nodup : missing.Nodup
  isCut : ∀ j ∈ missing, cut j = true

theorem Awaits.free (hd : d.Awaits m cut missing) (h : m.Consistent) : d.Free where
  limit_eq := hd.limit_eq
  consistent := by
    rw [hd.memory_eq]
    exact consistent_discard (consistent_unlink h cut) _

/-- A strong write to the next location that is missing. -/
theorem Awaits.place (hd : d.Awaits m cut (p.member s :: missing)) (h : m.Filed)
    (hs : s ∈ (m.cell p).members) (hp : p ∉ missing)
    (hbelow : ∀ t ∈ (m.cell (p.member s)).members, (p.member s).member t ∈ missing) :
    (d.place (p.member s) (m.entryOrUndefined (p.member s)) (m.holdsArray (p.member s))
      true).Awaits m cut missing := by
  obtain ⟨hx, hnodup⟩ := List.nodup_cons.1 hd.nodup
  obtain ⟨-, e, he⟩ := h.member p s hs
  have hfree := hd.free h.toConsistent
  have hdata : (m.entryOrUndefined (p.member s)).IsData :=
    fun v hv => (h.held_entryOrUndefined _ v hv).1
  refine ⟨(hfree.place hdata _ _ true).limit_eq, ?_, hnodup,
    fun j hj => hd.isCut j (List.mem_cons_of_mem _ hj)⟩
  have hnone : (d.memory.cell (p.member s)).members = ∅ := by
    rw [hd.memory_eq]
    apply ExtTreeSet.ext_mem
    intro t
    refine iff_of_false (fun ht => ?_) ExtTreeSet.not_mem_empty
    exact (mem_members_without.1 ht).1 List.mem_cons_self
  rw [hfree.place_strong, clearMembers_eq_self hnone, incoming_held h.toConsistent, hd.memory_eq,
    entryOrUndefined_of_some he]
  exact h.put_register_without hs hp hx hbelow hd.isCut he

/-- Once a location is written, a strong copy puts back all that was below it. By induction on the
depth; the members are put back one after the other, each with what lies below it. -/
theorem Awaits.copy {depth : Nat} (h : m.Filed)
    (hdepth : ∀ segments, m.ListsAlong x segments → segments.length ≤ depth)
    (hplaced : (d.place x (m.entryOrUndefined x) (m.holdsArray x) true).Awaits m cut
      ((m.members x).flatMap (m.subtree (depth - 1)) ++ missing))
    (hx : x ∉ missing) :
    (copy depth d x (m.entryOrUndefined x) (ArraySource.held m x) true).Awaits m cut missing := by
  induction depth generalizing d x missing with
  | zero =>
    have hnone : m.members x = [] :=
      members_eq_nil fun s hs => Nat.not_succ_le_zero 0 (hdepth [s] ⟨hs, trivial⟩)
    rw [hnone] at hplaced
    rw [Draft.copy, ArraySource.isEmpty_held]
    exact hplaced
  | succ depth ih =>
    have hfold : ∀ (l : List Segment) (d : Draft), (∀ s ∈ l, s ∈ (m.cell x).members) →
        d.Awaits m cut (l.flatMap (fun s => m.subtree depth (x.member s)) ++ missing) →
        (l.foldl (fun d s => Draft.copy depth d (x.member s) (m.entryOrUndefined (x.member s))
          (ArraySource.held m (x.member s)) true) d).Awaits m cut missing := by
      intro l
      induction l with
      | nil => exact fun _ _ hd => hd
      | cons s l ihl =>
        intro d hl hd
        have hs := hl s List.mem_cons_self
        have hways : ∀ segments, m.ListsAlong (x.member s) segments → segments.length ≤ depth :=
          fun segments hl => Nat.le_of_succ_le_succ (hdepth (s :: segments) ⟨hs, hl⟩)
        rw [List.flatMap_cons, List.append_assoc, subtree_eq_cons hways, List.cons_append] at hd
        refine ihl _ (fun t ht => hl t (List.mem_cons_of_mem s ht))
          (ih hways (hd.place h hs ?_ ?_) ?_)
        · -- the container is not among the locations below its members
          have hnot {t : Segment} {b : Nat} {k : Index} (hk : (x.member t).Contains k) :
              x ∉ m.subtree b k :=
            fun hmem => Index.not_member_contains x t (hk.trans (contains_of_mem_subtree hmem))
          rw [List.mem_append, List.mem_append, List.mem_flatMap, List.mem_flatMap]
          rintro (⟨k, hk, hmem⟩ | ⟨t, -, hmem⟩ | hmem)
          · obtain ⟨t, -, rfl⟩ := mem_members.1 hk
            exact hnot (Index.contains_member (x.member s) t) hmem
          · exact hnot (Index.contains_refl (x.member t)) hmem
          · exact hx hmem
        · intro t ht
          refine List.mem_append_left _ (List.mem_flatMap.2 ⟨_, mem_members.2 ⟨t, ht, rfl⟩, ?_⟩)
          exact mem_subtree.2 ⟨[], Nat.zero_le _, trivial, rfl⟩
        · exact fun hmem => (List.nodup_cons.1 hd.nodup).1 (List.mem_append_right _ hmem)
    rw [copy_succ_held h.toConsistent]
    refine hfold _ _ (fun s hs => ExtTreeSet.mem_toList.1 hs) ?_
    unfold members at hplaced
    rwa [List.flatMap_map] at hplaced

/-- What a location held is written back to it. Everything is as before, but the alias edges of what
lies below the location are gone. -/
theorem store_held_strong (h : m.Filed) (hi : m.Lists i) (he : m.entry? i = some e)
    (hd : d.memory = m) (hlimit : d.limit = none) :
    (d.store i e (ArraySource.held m i) true).memory = m.unlink (· ∈ m.below i) := by
  have hfree : d.Free := ⟨hlimit, hd ▸ h.toConsistent⟩
  have hheld := entryOrUndefined_of_some he
  have hdata : e.IsData := fun v hv => (h.held i e he v hv).1
  have hbelow : m.below i =
      (m.members i).flatMap (m.subtree (ArraySource.depth (ArraySource.held m i) - 1)) := by
    apply List.flatMap_congr
    intro j hj
    obtain ⟨s, hs, rfl⟩ := mem_members.1 hj
    refine subtree_congr (fun _ hl => h.length_le_size hl) fun segments hl => ?_
    apply Nat.le_sub_one_of_lt
    have hway : m.ListsAlong i (s :: segments) := ⟨hs, hl⟩
    exact ArraySource.length_le_depth_held h.toConsistent hway
  have hcleared : ((m.clearMembers i).register i).put i e = m.clearMembers i := by
    have hfiled : (m.clearMembers i).Filed := h.discard _
    rw [hfiled.register_eq_self (h.lists_clearMembers hi)]
    apply hfiled.put_eq_self
    rw [entry?_clearMembers_of_not h.toConsistent (.inr rfl), he]
  have hplaced : (d.place i e (m.holdsArray i) true).Awaits m (· ∈ m.below i) (m.below i) := by
    refine ⟨(hfree.place hdata i _ true).limit_eq, ?_, m.nodup_below i, fun j => decide_eq_true⟩
    rw [hfree.place_strong, hd, ← hheld, incoming_held h.toConsistent, hheld, hcleared,
      clearMembers_eq_without]
  have hcopied : (d.store i (m.entryOrUndefined i) (ArraySource.held m i) true).Awaits m
      (· ∈ m.below i) [] := by
    refine Awaits.copy h (fun _ hl => ArraySource.length_le_depth_held h.toConsistent hl) ?_
      List.not_mem_nil
    rwa [List.append_nil, ← hbelow, hheld]
  rw [← hheld, hcopied.memory_eq, without_nil]

/-- A weak write of what a location holds changes nothing. -/
theorem place_held_weak (h : m.Consistent) (hregister : m.register x = m)
    (he : m.entry? x = some e) (hd : d.memory = m) (hlimit : d.limit = none) :
    d.place x e (m.holdsArray x) false = d := by
  have hheld := entryOrUndefined_of_some he
  have hplaced : placed (m.entryOrUndefined x) x e (m.holdsArray x) false = e := by
    change (m.entryOrUndefined x).join (incoming x e (m.holdsArray x)) = e
    rw [← hheld, incoming_held h]
    exact sup_idem _
  have hwritten : m.write x e = m := by
    rw [h.write_eq, hregister, h.put_eq_self he]
    rw [holdsArray_eq_contains, Entry.contains_eq_true, hheld]
    exact id
  have hfits : e.Fits d.limit := by
    rw [hlimit]
    exact Entry.fits_none e
  rw [place_eq, if_neg Bool.false_ne_true, hd, hplaced, write_of_fits hfits]
  change { d with memory := d.memory.write x e } = d
  rw [hd, hwritten, ← hd]

/-- By induction on the depth, member by member. -/
theorem copy_held_weak {depth : Nat} (h : m.Filed) (hregister : m.register x = m)
    (he : m.entry? x = some e) (hd : d.memory = m) (hlimit : d.limit = none) :
    copy depth d x e (ArraySource.held m x) false = d := by
  induction depth generalizing x e with
  | zero =>
    rw [copy, ArraySource.isEmpty_held]
    exact place_held_weak h.toConsistent hregister he hd hlimit
  | succ depth ih =>
    rw [copy_succ_held h.toConsistent, place_held_weak h.toConsistent hregister he hd hlimit]
    have hmembers (s : Segment) (hs : s ∈ (m.cell x).members.toList) :
        copy depth d (x.member s) (m.entryOrUndefined (x.member s))
          (ArraySource.held m (x.member s)) false = d := by
      rw [ExtTreeSet.mem_toList] at hs
      obtain ⟨-, f, hf⟩ := h.member x s hs
      rw [entryOrUndefined_of_some hf]
      exact ih (h.register_member_eq_self hs) hf
    generalize (m.cell x).members.toList = l at hmembers
    induction l with
    | nil => rfl
    | cons s l ihl =>
      rw [List.foldl_cons, hmembers s List.mem_cons_self]
      exact ihl fun t ht => hmembers t (List.mem_cons_of_mem s ht)

theorem store_held_weak (h : m.Filed) (hi : m.Lists i) (he : m.entry? i = some e)
    (hd : d.memory = m) (hlimit : d.limit = none) :
    d.store i e (ArraySource.held m i) false = d :=
  copy_held_weak h (h.register_eq_self hi) he hd hlimit

end Draft
end ScriptMemory
