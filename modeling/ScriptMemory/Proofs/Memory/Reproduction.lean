import ScriptMemory.Proofs.Memory.Retention

/-! Copies of arrays within a simplify limit, in memory of which nothing is known but that it is
consistent. Whatever is written below a location leaves everything else as it is, but for the list
of the container; and a strong copy lists what the source lists, at every depth. -/
namespace ScriptMemory
open Std

namespace Memory
variable {m : Memory} {i j x : Index} {e : Entry} {s t : Segment}

theorem members_register_of_not (h : ∀ s, i ≠ j.member s) :
    ((m.register i).cell j).members = (m.cell j).members := by
  unfold register
  split
  · rfl
  · rfl
  · next parent s _ =>
    split
    · rw [cell_modify, if_neg]
      rintro ⟨rfl, -⟩
      exact h s rfl
    · rfl

theorem register_member (hx : ∀ id, x ≠ .object id) (hholds : m.holdsArray x = true) :
    m.register (x.member s) =
      { m with cells := m.cells.modify x fun c => { c with members := c.members.insert s } } := by
  unfold register
  split
  · next heq => cases heq
  · next id _ heq =>
    cases heq
    exact absurd rfl (hx id)
  · next parent _ _ heq =>
    cases heq
    exact if_pos hholds

theorem mem_members_register_member (hx : ∀ id, x ≠ .object id) (hholds : m.holdsArray x = true) :
    t ∈ ((m.register (x.member s)).cell x).members ↔ t = s ∨ t ∈ (m.cell x).members := by
  obtain ⟨f, hf, -⟩ := holdsArray_iff.1 hholds
  rw [register_member hx hholds, cell_modify, if_pos ⟨rfl, isDefined_of_entry? hf⟩]
  exact OrdSet.mem_insert

/-- Removing what lies below a location takes no member off any list outside of it. -/
theorem Consistent.members_clearMembers_of_not (h : m.Consistent) (hj : ¬i.Contains j) :
    ((m.clearMembers i).cell j).members = (m.cell j).members := by
  have hgone (k : Index) (hk : k ∈ m.below i) : i.Contains k ∧ i ≠ k :=
    h.contains_ne_of_mem_below hk
  unfold clearMembers
  rw [members_discard, if_neg fun hb => hj (hgone j (mem_contains_ofList.1 hb)).1]
  apply ExtTreeSet.ext_mem
  intro s
  rw [OrdSet.mem_filter, and_iff_left]
  rw [Bool.not_eq_true', ← Bool.not_eq_true, mem_contains_ofList]
  intro hb
  obtain ⟨hc, hne⟩ := hgone _ hb
  exact (Index.contains_member_iff.1 hc).elim hne hj

end Memory

theorem ArraySource.isData_of_mem_held {m : Memory} {y : Index} {a : ArraySource}
    (h : m.Consistent) (ha : a ∈ held m y) : a.IsData := by
  unfold held at ha
  split at ha
  · rw [List.mem_singleton.1 ha]
    exact fun i e he v hv => (h.held i e he v hv).1
  · cases ha

namespace Draft
variable {d d' d'' : Draft} {m : Memory} {v x y j : Index} {e : Entry} {s t : Segment}
  {arrays : List ArraySource}

/-- The draft `d'` is `d`, whose memory is consistent, after writes at `v` and below. -/
structure WrittenBelow (d : Draft) (v : Index) (d' : Draft) : Prop where
  consistent : d'.memory.Consistent
  limit_eq : d'.limit = d.limit
  entry?_eq : ∀ j, ¬v.Contains j → d'.memory.entry? j = d.memory.entry? j
  members_eq : ∀ j, ¬v.Contains j → (∀ s, v ≠ j.member s) →
    (d'.memory.cell j).members = (d.memory.cell j).members
  listed : ∀ p s, v = p.member s → (∀ id, p ≠ .object id) → d.memory.holdsArray p = true →
    ∀ t, t ∈ (d'.memory.cell p).members ↔ t = s ∨ t ∈ (d.memory.cell p).members

namespace WrittenBelow

theorem holdsArray_eq (h : d.WrittenBelow v d') (hj : ¬v.Contains j) :
    d'.memory.holdsArray j = d.memory.holdsArray j :=
  Memory.holdsArray_congr (h.entry?_eq j hj)

/-- What is apart from a location does not notice. -/
theorem members_eq_of_apart (h : d.WrittenBelow v d') (hj : v.Apart j) :
    (d'.memory.cell j).members = (d.memory.cell j).members := by
  refine h.members_eq j hj.1 ?_
  rintro s rfl
  exact hj.2 (Index.contains_member j s)

/-- Writes to a member are writes below the location. -/
theorem member (h : d.WrittenBelow v d') (h' : d'.WrittenBelow (v.member s) d'') :
    d.WrittenBelow v d'' where
  consistent := h'.consistent
  limit_eq := h'.limit_eq.trans h.limit_eq
  entry?_eq := by
    intro j hj
    exact (h'.entry?_eq j fun hc => hj ((Index.contains_member v s).trans hc)).trans
      (h.entry?_eq j hj)
  members_eq := by
    intro j hj hparent
    refine (h'.members_eq j (fun hc => hj ((Index.contains_member v s).trans hc)) ?_).trans
      (h.members_eq j hj hparent)
    rintro t heq
    cases heq
    exact hj (Index.contains_refl v)
  listed := by
    rintro p u rfl hp hholds t
    -- the container is not the parent of the member
    have hnot : ¬(p.member u).Contains p := Index.not_member_contains p u
    rw [h'.members_eq p (fun hc => hnot ((Index.contains_member _ s).trans hc)) nofun]
    exact h.listed p u rfl hp hholds t

end WrittenBelow

theorem consistent_place (h : d.memory.Consistent) (he : e.IsData) (v : Index)
    (hasArray strong : Bool) : (d.place v e hasArray strong).memory.Consistent :=
  survives_place Memory.consistent_durable.toSurvives h trivial he hasArray strong

/-- A write removes what lies below its location, or nothing; then it lists and puts the entry. -/
theorem place_memory (h : d.memory.Consistent) (v : Index) (e : Entry) (hasArray strong : Bool) :
    (d.place v e hasArray strong).memory =
      ((if strong then d.memory.clearMembers v else d.memory).register v).put v
        (d.fit (placed (d.memory.entryOrUndefined v) v e hasArray strong)) := by
  rw [place_eq, write_memory]
  cases strong with
  | true => exact h.write_clearMembers_eq v _
  | false =>
    refine h.write_eq fun hown => ?_
    apply (writtenAs_fit d _).coarsened.array_mem_iff.2
    refine (mem_placed_iff_of_isSolid (Value.array_isSolid v) ..).2 (.inl ⟨rfl, ?_⟩)
    exact Memory.Holds.mem_entryOrUndefined (Memory.holdsArray_iff.1 hown)

theorem writtenBelow_place (h : d.memory.Consistent) (he : e.IsData) (v : Index)
    (hasArray strong : Bool) : d.WrittenBelow v (d.place v e hasArray strong) := by
  have hne {j : Index} (hj : ¬v.Contains j) : j ≠ v := by
    rintro rfl
    exact hj (Index.contains_refl j)
  have hcleared {j : Index} (hj : ¬v.Contains j) :
      ((if strong then d.memory.clearMembers v else d.memory).cell j).members =
        (d.memory.cell j).members := by
    cases strong with
    | true => exact h.members_clearMembers_of_not hj
    | false => rfl
  have hentry {j : Index} (hj : ¬v.Contains j) :
      Memory.entry? (if strong then d.memory.clearMembers v else d.memory) j =
        d.memory.entry? j := by
    cases strong with
    | true => exact Memory.entry?_clearMembers_of_not h (.inl hj)
    | false => rfl
  refine ⟨consistent_place h he v hasArray strong, ?_, fun j hj => ?_, fun j hj hparent => ?_, ?_⟩
  · rw [place_eq, limit_write]
    cases strong <;> rfl
  · rw [place_memory h, Memory.entry?_put_register, if_neg (hne hj), hentry hj]
  · rw [place_memory h, Memory.members_put, if_neg (hne hj),
      Memory.members_register_of_not hparent, hcleared hj]
  · rintro p s rfl hp hholds t
    have hnot : ¬(p.member s).Contains p := Index.not_member_contains p s
    rw [place_memory h, Memory.members_put, if_neg (hne hnot),
      Memory.mem_members_register_member hp ((Memory.holdsArray_congr (hentry hnot)).trans hholds),
      hcleared hnot]

/-- By induction on the depth, member by member. -/
theorem writtenBelow_copy {depth : Nat} (h : d.memory.Consistent) (he : e.IsData)
    (ha : ∀ a ∈ arrays, a.IsData) (v : Index) (strong : Bool) :
    d.WrittenBelow v (copy depth d v e arrays strong) := by
  induction depth generalizing d v e arrays with
  | zero => exact writtenBelow_place h he v _ strong
  | succ depth ih =>
    have hfold : ∀ (segments : List Segment) (d' : Draft), d.WrittenBelow v d' →
        d.WrittenBelow v (segments.foldl (fun d s => copy depth d (v.member s)
          (ArraySource.memberEntry arrays s) (ArraySource.memberArrays arrays s) strong) d') := by
      intro segments
      induction segments with
      | nil => exact fun _ h => h
      | cons s segments ihs =>
        exact fun d' h' => ihs _ (h'.member (ih h'.consistent
          (ArraySource.isData_memberEntry ha s)
          (fun a => ArraySource.isData_of_mem_memberArrays ha) _))
    exact hfold _ _ (writtenBelow_place h he v _ strong)

theorem writtenBelow_store (h : d.memory.Consistent) (he : e.IsData)
    (ha : ∀ a ∈ arrays, a.IsData) (v : Index) (strong : Bool) :
    d.WrittenBelow v (d.store v e arrays strong) :=
  writtenBelow_copy h he ha v strong

/-- The draft has below `x` what `m` has below `y`: the same members at every depth, with the same
entries, but for the owners of the arrays and for what is over the limit. -/
structure Reproduces (d : Draft) (x : Index) (m : Memory) (y : Index) : Prop where
  members : ∀ segments, m.ListsAlong y segments →
    (d.memory.cell (x.descend segments)).members = (m.cell (y.descend segments)).members
  entry : ∀ s segments, m.ListsAlong y (s :: segments) →
    d.memory.entry? (x.descend (s :: segments)) =
      some (d.fit ((m.entryOrUndefined (y.descend (s :: segments))).relocate
        (y.descend (s :: segments)) (x.descend (s :: segments))))

/-- A member is reproduced together with its entry. -/
structure ReproducesMember (d : Draft) (x : Index) (m : Memory) (y : Index) (s : Segment) : Prop
    extends d.Reproduces (x.member s) m (y.member s) where
  own : d.memory.entry? (x.member s) =
    some (d.fit ((m.entryOrUndefined (y.member s)).relocate (y.member s) (x.member s)))

theorem reproduces_of_members (hmembers : (d.memory.cell x).members = (m.cell y).members)
    (h : ∀ s ∈ (m.cell y).members, d.ReproducesMember x m y s) : d.Reproduces x m y where
  members := by
    rintro (_ | ⟨s, segments⟩) hl
    · exact hmembers
    · exact (h s hl.1).members segments hl.2
  entry := by
    rintro s (_ | ⟨t, segments⟩) hl
    · exact (h s hl.1).own
    · exact (h s hl.1).entry t segments hl.2

/-- Writes apart from a location leave alone what it reproduces. -/
theorem Reproduces.of_writtenBelow (h : d.Reproduces x m y) (hw : d.WrittenBelow v d')
    (hv : v.Apart x) : d'.Reproduces x m y := by
  have hapart (segments : List Segment) : v.Apart (x.descend segments) :=
    (hv.symm.of_contains ⟨segments, rfl⟩).symm
  constructor
  · intro segments hl
    rw [hw.members_eq_of_apart (hapart segments)]
    exact h.members segments hl
  · intro s segments hl
    rw [hw.entry?_eq _ (hapart _).1, fit_congr hw.limit_eq]
    exact h.entry s segments hl

theorem ReproducesMember.of_writtenBelow (h : d.ReproducesMember x m y s)
    (hw : d.WrittenBelow v d') (hv : v.Apart (x.member s)) : d'.ReproducesMember x m y s where
  toReproduces := h.toReproduces.of_writtenBelow hw hv
  own := by
    rw [hw.entry?_eq _ hv.1, fit_congr hw.limit_eq]
    exact h.own

/-- Two members of one location are apart. -/
theorem apart_members (x : Index) (h : s ≠ t) : (x.member s).Apart (x.member t) :=
  ⟨fun hc => h (hc.segment_eq (Index.contains_refl _)),
    fun hc => h (hc.segment_eq (Index.contains_refl _)).symm⟩

/-- After a strong write a location lists nothing. -/
theorem members_place_strong (h : d.memory.Consistent) (x : Index) (e : Entry) (hasArray : Bool) :
    ((d.place x e hasArray true).memory.cell x).members = ∅ := by
  rw [place_memory h, if_pos rfl, Memory.members_put, if_pos rfl,
    Memory.members_register_of_not (Index.ne_member x), h.members_clearMembers, ite_self]

section
variable {f : Draft → Segment → Draft} {listed : List Segment} {P Q : Draft → Segment → Prop}

/-- Writes to other members leave alone what is said of a member of `x`. -/
def PrivateTo (x : Index) (P : Draft → Segment → Prop) : Prop :=
  ∀ d d' s t, t ≠ s → d.WrittenBelow (x.member t) d' → P d s → P d' s

section
variable (hwrite : ∀ (d : Draft) s, s ∈ listed → d.memory.Consistent →
    d.WrittenBelow (x.member s) (f d s))
  (h : d.memory.Consistent)
include hwrite h

theorem foldl_of_not_mem (hP : PrivateTo x P) (hs : s ∉ listed) (hPs : P d s) :
    P (listed.foldl f d) s := by
  induction listed generalizing d with
  | nil => exact hPs
  | cons t listed ih =>
    obtain ⟨hne, hs⟩ := not_or.1 (mt List.mem_cons.2 hs)
    have hwritten := hwrite d t List.mem_cons_self h
    exact ih (fun d s hs => hwrite d s (List.mem_cons_of_mem t hs)) hwritten.consistent hs
      (hP d _ s t (Ne.symm hne) hwritten hPs)

/-- Members are written one after the other, none in another one's way. -/
theorem foldl_of_mem (hP : PrivateTo x P) (hQ : PrivateTo x Q)
    (hdone : ∀ (d : Draft) s, s ∈ listed → d.memory.Consistent → Q d s → P (f d s) s)
    (hnodup : listed.Nodup) (hready : ∀ s ∈ listed, Q d s) :
    ∀ s ∈ listed, P (listed.foldl f d) s := by
  induction listed generalizing d with
  | nil => exact nofun
  | cons s listed ih =>
    obtain ⟨hs, hnodup⟩ := List.nodup_cons.1 hnodup
    have hwritten := hwrite d s List.mem_cons_self h
    have hwrite' := fun d t ht => hwrite d t (List.mem_cons_of_mem s ht)
    intro t ht
    rw [List.foldl_cons]
    rcases List.mem_cons.1 ht with rfl | ht
    · exact foldl_of_not_mem hwrite' hwritten.consistent hP hs
        (hdone d t List.mem_cons_self h (hready t List.mem_cons_self))
    · refine ih hwrite' hwritten.consistent
        (fun d t ht => hdone d t (List.mem_cons_of_mem s ht)) hnodup (fun t ht => ?_) t ht
      have hne : s ≠ t := fun heq => hs (heq ▸ ht)
      exact hQ d _ t s hne hwritten (hready t (List.mem_cons_of_mem s ht))

/-- The location itself is left alone, but for the list of its members. -/
theorem foldl_members (hx : listed ≠ [] → ∀ id, x ≠ .object id)
    (hholds : listed ≠ [] → d.memory.holdsArray x = true) :
    (listed.foldl f d).memory.Consistent ∧ (listed.foldl f d).limit = d.limit ∧
      Memory.entry? (listed.foldl f d).memory x = d.memory.entry? x ∧
      ∀ t, t ∈ ((listed.foldl f d).memory.cell x).members ↔
        t ∈ listed ∨ t ∈ (d.memory.cell x).members := by
  induction listed generalizing d with
  | nil => exact ⟨h, rfl, rfl, fun t => (or_iff_right List.not_mem_nil).symm⟩
  | cons s listed ih =>
    have hne := List.cons_ne_nil s listed
    have hwritten := hwrite d s List.mem_cons_self h
    have hnot : ¬(x.member s).Contains x := Index.not_member_contains x s
    have hholds' := (hwritten.holdsArray_eq hnot).trans (hholds hne)
    obtain ⟨hconsistent, hlimit, hentry, hmembers⟩ := ih
      (fun d t ht => hwrite d t (List.mem_cons_of_mem s ht)) hwritten.consistent
      (fun _ => hx hne) fun _ => hholds'
    rw [List.foldl_cons]
    refine ⟨hconsistent, hlimit.trans hwritten.limit_eq,
      hentry.trans (hwritten.entry?_eq x hnot), fun t => ?_⟩
    rw [hmembers, hwritten.listed x s rfl (hx hne) (hholds hne), List.mem_cons]
    tauto

end
end

theorem privateTo_reproducesMember (x : Index) (m : Memory) (y : Index) :
    PrivateTo x fun d s => d.ReproducesMember x m y s :=
  fun _ _ _ _ hne hw h => h.of_writtenBelow hw (apart_members x hne)

/-- By induction on the depth, each member being copied like the location itself. -/
theorem reproduces_copy {depth : Nat} (h : d.memory.Consistent) (hm : m.Consistent)
    (hx : ∀ id, x ≠ .object id) (he : e.IsData)
    (hdepth : ∀ segments, m.ListsAlong y segments → segments.length ≤ depth) :
    (copy depth d x e (ArraySource.held m y) true).Reproduces x m y ∧
      Memory.entry? (copy depth d x e (ArraySource.held m y) true).memory x =
        some (d.fit (placed (d.memory.entryOrUndefined x) x e (m.holdsArray y) true)) := by
  induction depth generalizing d x y e with
  | zero =>
    -- no way leads down from the source, so no member is listed
    have hnone : ∀ s, s ∉ (m.cell y).members :=
      fun s hs => Nat.not_succ_le_zero 0 (hdepth [s] ⟨hs, trivial⟩)
    refine ⟨reproduces_of_members ?_ fun s hs => absurd hs (hnone s), ?_⟩
    · refine (members_place_strong h x e _).trans (ExtTreeSet.ext_mem fun s => ?_).symm
      exact iff_of_false (hnone s) ExtTreeSet.not_mem_empty
    · rw [← ArraySource.isEmpty_held]
      exact entry?_place d x e _ true
  | succ depth ih =>
    let listed := (m.cell y).members.toList
    let f (d : Draft) (s : Segment) : Draft := copy depth d (x.member s)
      (m.entryOrUndefined (y.member s)) (ArraySource.held m (y.member s)) true
    have hlisted (s : Segment) : s ∈ listed ↔ s ∈ (m.cell y).members := ExtTreeSet.mem_toList
    have hdata (s : Segment) : (m.entryOrUndefined (y.member s)).IsData :=
      fun v hv => (hm.held_entryOrUndefined _ v hv).1
    have hwrite : ∀ (d : Draft) s, s ∈ listed → d.memory.Consistent →
        d.WrittenBelow (x.member s) (f d s) := by
      intro d s hs hd
      exact writtenBelow_copy hd (hdata s) (fun a => ArraySource.isData_of_mem_held hm) _ true
    have hdone : ∀ (d : Draft) s, s ∈ listed → d.memory.Consistent → True →
        (f d s).ReproducesMember x m y s := by
      intro d s hs hd _
      have hmember (id : ObjectId) : x.member s ≠ .object id := fun heq => by cases heq
      obtain ⟨hbelow, hown⟩ := ih (x := x.member s) (y := y.member s) hd hmember (hdata s)
        fun segments hl => Nat.le_of_succ_le_succ (hdepth (s :: segments) ⟨(hlisted s).1 hs, hl⟩)
      refine ⟨hbelow, ?_⟩
      rw [hown, fit_congr (hwrite d s hs hd).limit_eq,
        Entry.placed_eq_relocate _ _ _ (m.holdsArray_eq_contains (y.member s))]
    have hplaced := consistent_place h he x (m.holdsArray y) true
    have hentry := entry?_place d x e (m.holdsArray y) true
    have hholds : listed ≠ [] → (d.place x e (m.holdsArray y) true).memory.holdsArray x = true := by
      intro hne
      obtain ⟨s, hs⟩ := List.exists_mem_of_ne_nil listed hne
      rw [(hm.member y s ((hlisted s).1 hs)).1] at hentry ⊢
      exact Memory.holdsArray_iff.2 ⟨_, hentry,
        (writtenAs_fit d _).coarsened.array_mem_iff.2 (array_mem_placed ..)⟩
    have hall := foldl_of_mem hwrite hplaced (privateTo_reproducesMember x m y)
      (fun _ _ _ _ _ _ => id) hdone (OrdSet.nodup_toList _) fun _ _ => trivial
    obtain ⟨-, -, hown, hmembers⟩ := foldl_members hwrite hplaced (fun _ => hx) hholds
    rw [copy_succ_held hm]
    refine ⟨reproduces_of_members (ExtTreeSet.ext_mem fun t => ?_)
      fun s hs => hall s ((hlisted s).2 hs), hown.trans hentry⟩
    rw [hmembers, members_place_strong h, or_iff_left ExtTreeSet.not_mem_empty, hlisted]

/-- A strong copy of an array is complete, whatever the limit makes of the single entries. -/
theorem reproduces_store (h : d.memory.Consistent) (hm : m.Consistent) (hx : ∀ id, x ≠ .object id)
    (he : e.IsData) :
    (d.store x e (ArraySource.held m y) true).Reproduces x m y ∧
      Memory.entry? (d.store x e (ArraySource.held m y) true).memory x =
        some (d.fit (placed (d.memory.entryOrUndefined x) x e (m.holdsArray y) true)) :=
  reproduces_copy h hm hx he fun _ => ArraySource.length_le_depth_held hm

/-- Copies to locations apart from `x` leave it alone. -/
theorem foldl_store_of_apart {visits : List (Bool × Index)} (strong : Bool × Index → Bool)
    (he : e.IsData) (ha : ∀ a ∈ arrays, a.IsData) (hapart : ∀ v ∈ visits, v.2.Apart x)
    (h : d.memory.Consistent) :
    let d' := visits.foldl (fun d v => d.store v.2 e arrays (strong v)) d
    d'.memory.Consistent ∧ d'.limit = d.limit ∧ d'.memory.entry? x = d.memory.entry? x ∧
      (d.Reproduces x m y → d'.Reproduces x m y) := by
  induction visits generalizing d with
  | nil => exact ⟨h, rfl, rfl, id⟩
  | cons v visits ih =>
    have hv := hapart v List.mem_cons_self
    have hwritten := writtenBelow_store h he ha v.2 (strong v)
    obtain ⟨hconsistent, hlimit, hentry, hkept⟩ :=
      ih (fun w hw => hapart w (List.mem_cons_of_mem v hw)) hwritten.consistent
    exact ⟨hconsistent, hlimit.trans hwritten.limit_eq, hentry.trans (hwritten.entry?_eq x hv.1),
      fun hr => hkept (hr.of_writtenBelow hwritten hv)⟩

/-- What is stored to all that a path denotes is complete at a certain location, unless another one
of them contains it or lies below it. -/
theorem reproduces_storeAll {l : Locations} (h : d.memory.Consistent) (hm : m.Consistent)
    (he : e.IsData) (hseparate : l.Separate) (hmust : x ∈ l.must) (hx : ∀ id, x ≠ .object id)
    (hapart : l.All fun v => v ≠ x → v.Apart x) :
    (d.storeAll l e (ArraySource.held m y) true).Reproduces x m y ∧
      ∃ old, Memory.entry? (d.storeAll l e (ArraySource.held m y) true).memory x =
        some (d.fit (placed old x e (m.holdsArray y) true)) := by
  have harrays : ∀ a ∈ ArraySource.held m y, a.IsData := fun a => ArraySource.isData_of_mem_held hm
  have hvisit : (true, x) ∈ l.visits := Locations.mem_visits.2 (.inl ⟨rfl, hmust⟩)
  -- all other writes, before and after that to `x`, are apart from it
  have hnodup := Locations.nodup_visits hseparate
  have hothers : ∀ v ∈ l.visits, v.2 ≠ x → v.2.Apart x := fun v hv =>
    hapart v.2 ((Locations.mem_visits.1 hv).imp And.right And.right)
  rw [storeAll_eq]
  obtain ⟨front, rest, hsplit⟩ := List.append_of_mem hvisit
  rw [hsplit, List.map_append, List.map_cons, List.nodup_append, List.nodup_cons] at hnodup
  obtain ⟨-, ⟨hrest, -⟩, hfront⟩ := hnodup
  have hfront : ∀ v ∈ front, v.2.Apart x := fun v hv =>
    hothers v (hsplit ▸ List.mem_append_left _ hv)
      (hfront v.2 (List.mem_map_of_mem hv) x List.mem_cons_self)
  have hrest : ∀ v ∈ rest, v.2.Apart x := fun v hv =>
    hothers v (hsplit ▸ List.mem_append_right _ (List.mem_cons_of_mem _ hv)) fun heq =>
      hrest (List.mem_map.2 ⟨v, hv, heq⟩)
  rw [hsplit, List.foldl_append, List.foldl_cons]
  generalize hbefore : front.foldl (fun d v => d.store v.2 e (ArraySource.held m y)
    (v.1 && (true || !l.unknown))) d = before
  obtain ⟨hconsistent, hlimit, -, -⟩ :=
    foldl_store_of_apart (m := m) (y := y) (fun v => v.1 && (true || !l.unknown)) he harrays
      hfront h
  rw [hbefore] at hconsistent hlimit
  obtain ⟨hcopied, hentry⟩ := reproduces_store (y := y) hconsistent hm hx he
  obtain ⟨-, -, hentry', hkept⟩ := foldl_store_of_apart _ he harrays hrest
    (writtenBelow_store hconsistent he harrays x true).consistent
  refine ⟨hkept hcopied, before.memory.entryOrUndefined x, ?_⟩
  rw [← fit_congr hlimit]
  exact hentry'.trans hentry

end Draft
end ScriptMemory
