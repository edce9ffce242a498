import ScriptMemory.Proofs.Memory.Plain
import ScriptMemory.Proofs.Memory.References

/-! Memory of scripts whose references are parameters. Every location is one that memory is certain
of: variables that share a slot are linked by certain edges, within the frames up to that of the
newer one, so that closing a frame separates none that are left. -/
namespace ScriptMemory
open Std Relation

namespace Index
variable {i : Index} {level : Nat}

/-- The level of the frame that a location belongs to; zero if it is outside of all frames. -/
def frame (i : Index) : Nat :=
  match i.base with
  | .var _ (.frame level) => level
  | .returnSlot level => level
  | _ => 0

theorem isRootedAtLevel_iff : i.isRootedAtLevel (level + 1) = true ↔ i.frame = level + 1 := by
  unfold isRootedAtLevel frame
  cases i.base with
  | var name table => cases table <;> simp
  | control name => simp
  | returnSlot k => simp
  | object id => simp

/-- The location is that of a variable. -/
def IsVariable (i : Index) : Prop :=
  ∃ name table, i = .ofVariable name table

theorem isVariable_indexAt (p : Path) (level : Nat) : (p.indexAt level).IsVariable :=
  ⟨p.name, _, rfl⟩

theorem frame_indexAt_le (p : Path) (level : Nat) : (p.indexAt level).frame ≤ level := by
  unfold Path.indexAt
  cases p.scope with
  | global => exact Nat.zero_le level
  | current =>
    cases level with
    | zero => exact Nat.le_refl 0
    | succ level => exact Nat.le_refl (level + 1)

theorem IsVariable.ne_returnSlot (h : i.IsVariable) (level : Nat) : i ≠ .returnSlot level := by
  obtain ⟨name, table, rfl⟩ := h
  intro heq
  cases heq

theorem IsVariable.ne_diagnostics (h : i.IsVariable) : i ≠ .diagnostics := by
  obtain ⟨name, table, rfl⟩ := h
  intro heq
  cases heq

end Index

namespace Entry

/-- The entry of a slot. -/
def ofContent (v : Option Scalar) : Entry :=
  ofValue (.ofContent v)

theorem isFlat_ofContent (v : Option Scalar) : (ofContent v).IsFlat := by
  cases v <;> exact all_ofValue ⟨rfl, rfl⟩

/-- An entry of one value is within every limit but zero. -/
theorem fits_ofValue (v : Value) {limit : Nat} (h : 0 < limit) : (ofValue v).Fits (some limit) := by
  have hlist : (ofValue v).toList = [v] := OrdSet.toList_eq_singleton fun _ => mem_ofValue
  have hcount : (ofValue v).simplifiableCount ≤ limit := by
    unfold simplifiableCount
    rw [hlist]
    exact Nat.le_trans List.countP_le_length h
  exact if_pos hcount

end Entry

namespace Memory
variable {m n : Memory} {σ : Environment} {level k : Nat} {returned v : Option Scalar}
  {i j x t s : Index} {P : Index → Prop} {f : Index → Entry}

/-- Certain edges lead from one location to the other by way of frames up to a level. -/
def LinkedWithin (m : Memory) (level : Nat) : Index → Index → Prop :=
  ReflTransGen fun i j => m.MustEdge i j ∧ i.frame ≤ level ∧ j.frame ≤ level

theorem LinkedWithin.mustLinked (h : m.LinkedWithin level i j) : m.MustLinked i j :=
  ReflTransGen.mono (fun _ _ hs => hs.1) _ _ h

theorem LinkedWithin.mono (h : m.LinkedWithin level i j) (hle : level ≤ k) : m.LinkedWithin k i j :=
  ReflTransGen.mono (fun _ _ hs => ⟨hs.1, Nat.le_trans hs.2.1 hle, Nat.le_trans hs.2.2 hle⟩) _ _ h

/-- In the frame at a level, memory holds exactly what an environment has its variables bound to and
what the function has returned. -/
structure Mirrors (σ : Environment) (level : Nat) (returned : Option Scalar) (m : Memory) :
    Prop where
  level_eq : m.level = level
  flat : m.Flat
  symmetric : m.AliasesSymmetric
  hasEntries : m.HasEntries
  framed : ∀ i, σ.isBound i = true → i.IsVariable ∧ i.frame ≤ level
  isDefined_iff : ∀ i, i.IsVariable → (m.isDefined i = true ↔ σ.isBound i = true)
  content : ∀ i, i.IsVariable → m.entryOrUndefined i = .ofContent (σ.read i)
  edge : ∀ i j, m.Edge i j → m.MustEdge i j ∧ σ.SameSlot i j
  linked : ∀ k i j, σ.SameSlot i j → i.frame ≤ k → j.frame ≤ k → m.LinkedWithin k i j
  returns : ∀ k, m.entryOrUndefined (.returnSlot k) =
    .ofContent (if k = level then returned else none)

theorem mirrors_initial : Mirrors .blank 0 none initial where
  level_eq := rfl
  flat := plain_initial.toFlat
  symmetric := wellFormed_initial.symmetric
  hasEntries := by decide
  framed := by
    intro i h
    cases h
  isDefined_iff := by
    intro i hi
    refine iff_of_false ?_ (by simp [Environment.isBound, Environment.blank])
    intro hd
    have hentries : initial.HasEntries := by decide
    have he := hentries i hd
    rw [entry?_initial, if_neg hi.ne_diagnostics] at he
    cases he
  content := by
    intro i hi
    apply entryOrUndefined_of_none
    rw [entry?_initial, if_neg hi.ne_diagnostics]
  edge := by
    rintro i j ⟨r, hr⟩
    rw [aliases_initial] at hr
    cases hr
  linked := by
    rintro k i j ⟨c, hc, -⟩
    cases hc
  returns := by
    intro k
    unfold entryOrUndefined
    rw [entry?_initial, if_neg (fun h => by cases h), ite_self]
    rfl

/-- What is linked is what shares a slot. -/
theorem Mirrors.linked_iff (h : Mirrors σ level returned m) :
    m.Linked i j ↔ i = j ∨ σ.SameSlot i j := by
  constructor
  · intro hl
    induction hl with
    | refl => exact .inl rfl
    | tail _ hlast ih =>
      have hs := (h.edge _ _ hlast).2
      rcases ih with rfl | hi
      · exact .inr hs
      · exact .inr (hi.trans hs)
  · rintro (rfl | hs)
    · exact .refl
    · exact (h.linked _ i j hs (Nat.le_max_left _ _) (Nat.le_max_right _ _)).mustLinked.linked

theorem Mirrors.mustLinked_iff (h : Mirrors σ level returned m) :
    m.MustLinked i j ↔ i = j ∨ σ.SameSlot i j := by
  constructor
  · exact fun hl => h.linked_iff.1 hl.linked
  · rintro (rfl | hs)
    · exact .refl
    · exact (h.linked _ i j hs (Nat.le_max_left _ _) (Nat.le_max_right _ _)).mustLinked

/-- No alias is merely possible, so an assignment leaves nothing of what was there. -/
theorem Mirrors.assigned_eq (h : Mirrors σ level returned m) (hi : m.Linked x i) (e : Entry) :
    m.assigned x e i = e :=
  assigned_of_mustLinked (h.mustLinked_iff.2 (h.linked_iff.1 hi))

/-- A variable is read as what its slot holds, in whatever frame it is. -/
theorem Mirrors.readAt_eq (h : Mirrors σ level returned m) {p : Path} (hp : p.isVariable = true)
    (k : Nat) : m.readAt p k = .ofContent (σ.read (p.indexAt k)) := by
  refine Memory.readAt_eq hp fun j hj => ?_
  rcases h.mustLinked_iff.1 hj with rfl | hs
  · exact h.content _ (Index.isVariable_indexAt p k)
  · have hj : j.IsVariable := (h.framed j hs.symm.isBound).1
    rw [hs.read_eq, ← h.content j hj]
    obtain ⟨name, table, rfl⟩ := hj
    rfl

theorem Rewritten.linkedWithin_iff (hr : m.Rewritten P f n) :
    n.LinkedWithin k i j ↔ m.LinkedWithin k i j := by
  have hedge : (fun i j => n.MustEdge i j ∧ i.frame ≤ k ∧ j.frame ≤ k) =
      fun i j => m.MustEdge i j ∧ i.frame ≤ k ∧ j.frame ≤ k := by
    funext a b
    rw [hr.mustEdge_iff]
  unfold LinkedWithin
  rw [hedge]

/-- A write that leaves the variables alone changes at most what is returned. -/
theorem Mirrors.rewritten (h : Mirrors σ level returned m) (hr : m.Rewritten P f n)
    (hP : ∀ i, P i → ¬i.IsVariable)
    (hreturns : ∀ k, n.entryOrUndefined (.returnSlot k) =
      .ofContent (if k = level then v else none)) : Mirrors σ level v n where
  level_eq := hr.level_eq.trans h.level_eq
  flat := hr.flat
  symmetric := aliasesSymmetric_of_aliases_eq h.symmetric hr.aliases_eq
  hasEntries := hr.hasEntries h.hasEntries
  framed := h.framed
  isDefined_iff := by
    intro i hi
    rw [hr.isDefined_iff, or_iff_right fun hp => hP i hp hi, h.isDefined_iff i hi]
  content := by
    intro i hi
    rw [← h.content i hi]
    unfold entryOrUndefined
    rw [hr.entry?_of_not i fun hp => hP i hp hi]
  edge := by
    intro i j hij
    rw [hr.mustEdge_iff]
    exact h.edge i j (hr.edge_iff.1 hij)
  linked := by
    intro k i j hs hi hj
    rw [hr.linkedWithin_iff]
    exact h.linked k i j hs hi hj
  returns := hreturns

/-- A write outside of the variables and the return slots goes unnoticed. -/
theorem Mirrors.elsewhere (h : Mirrors σ level returned m) (hr : m.Rewritten P f n)
    (hP : ∀ i, P i → ¬i.IsVariable ∧ ∀ k, i ≠ .returnSlot k) : Mirrors σ level returned n := by
  refine h.rewritten hr (fun i hp => (hP i hp).1) fun k => ?_
  rw [← h.returns k]
  unfold entryOrUndefined
  rw [hr.entry?_of_not _ fun hp => (hP _ hp).2 k rfl]

/-- The function has returned something. -/
theorem Mirrors.return (h : Mirrors σ level returned m)
    (hr : m.Rewritten (· = .returnSlot level) (fun _ => .ofContent v) n) : Mirrors σ level v n := by
  refine h.rewritten hr (fun i hp hi => hi.ne_returnSlot level hp) fun k => ?_
  unfold entryOrUndefined
  by_cases hk : k = level
  · rw [hr.entry?_of _ (by rw [hk]), if_pos hk]
    rfl
  · have hne : Index.returnSlot k ≠ .returnSlot level := by
      intro heq
      cases heq
      exact hk rfl
    have hold := h.returns k
    rw [if_neg hk] at hold ⊢
    rw [hr.entry?_of_not _ hne]
    exact hold

/-- An assignment writes to the slot of a variable. -/
theorem Mirrors.write (h : Mirrors σ level returned m) (hx : x.IsVariable) (hle : x.frame ≤ level)
    (hr : m.Rewritten (m.Linked x) (m.assigned x (.ofContent v)) n) :
    Mirrors (σ.write x v) level returned n where
  level_eq := hr.level_eq.trans h.level_eq
  flat := hr.flat
  symmetric := aliasesSymmetric_of_aliases_eq h.symmetric hr.aliases_eq
  hasEntries := hr.hasEntries h.hasEntries
  framed := by
    intro i hi
    rcases Environment.isBound_write.1 hi with rfl | hi
    · exact ⟨hx, hle⟩
    · exact h.framed i hi
  isDefined_iff := by
    intro i hi
    rw [hr.isDefined_iff, Environment.isBound_write, h.linked_iff, h.isDefined_iff i hi]
    constructor
    · rintro ((rfl | hs) | hb)
      · exact .inl rfl
      · exact .inr hs.symm.isBound
      · exact .inr hb
    · rintro (rfl | hb)
      · exact .inl (.inl rfl)
      · exact .inr hb
  content := by
    intro i hi
    unfold entryOrUndefined
    by_cases hxi : m.Linked x i
    · have hread : (σ.write x v).read i = v := by
        rcases h.linked_iff.1 hxi with rfl | hs
        · exact Environment.read_write_self
        · exact Environment.read_write_of_sameSlot hs
      rw [hr.entry?_of i hxi, h.assigned_eq hxi, hread]
      rfl
    · obtain ⟨hne, hs⟩ := not_or.1 fun hor => hxi (h.linked_iff.2 hor)
      have hread : (σ.write x v).read i = σ.read i :=
        Environment.read_write_of_not_sameSlot (Ne.symm hne) hs
      rw [hr.entry?_of_not i hxi, hread]
      exact h.content i hi
  edge := by
    intro i j hij
    obtain ⟨hm, hs⟩ := h.edge i j (hr.edge_iff.1 hij)
    exact ⟨hr.mustEdge_iff.2 hm, Environment.sameSlot_write.2 (.inl hs)⟩
  linked := by
    intro k i j hs hi hj
    rw [hr.linkedWithin_iff]
    rcases Environment.sameSlot_write.1 hs with hs | ⟨rfl, rfl⟩
    · exact h.linked k i j hs hi hj
    · exact .refl
  returns := by
    intro k
    rw [← h.returns k]
    unfold entryOrUndefined
    rw [hr.entry?_of_not]
    intro hl
    rcases h.linked_iff.1 hl with heq | hs
    · exact hx.ne_returnSlot k heq
    · exact (h.framed _ hs.symm.isBound).1.ne_returnSlot k rfl

theorem Mirrors.referred_eq (h : Mirrors σ level returned m) (hs : s.IsVariable) :
    m.referred s = .ofContent (σ.shared s) := by
  unfold Environment.shared
  rw [Memory.referred_eq h.hasEntries]
  by_cases hb : σ.isBound s = true
  · rw [if_pos ((h.isDefined_iff s hs).2 hb), if_pos hb]
    exact h.content s hs
  · rw [if_neg fun hd => hb ((h.isDefined_iff s hs).1 hd), if_neg hb]
    rfl

/-- A location without edges gets a certain one, and no other edge changes. -/
theorem BoundTo.strength?_of_new (hb : m.BoundTo t s n) (hne : t ≠ s) (hnone : ∀ i, ¬m.Edge t i)
    (i j : Index) : (n.aliases i).strength? j =
      if (i = t ∧ j = s) ∨ (i = s ∧ j = t) then some .must else (m.aliases i).strength? j := by
  have hmust : m.bindingStrength t s = .must := by
    refine if_pos (.inr (AliasSet.isEmpty_iff.2 fun i => ?_))
    cases hst : (m.aliases t).strength? i with
    | none => rfl
    | some r => exact absurd ⟨r, hst⟩ (hnone i)
  rw [hb.strength?_eq hne, hmust]
  unfold strengthAfterLink
  simp

/-- What shares the slot of a new variable or of its source is linked by way of the source. -/
theorem Mirrors.linked_share (h : Mirrors σ level returned m) (hframe : t.frame = level)
    (hle : s.frame ≤ level) (hkept : ∀ i j, m.MustEdge i j → n.MustEdge i j)
    (hts : n.MustEdge t s) (hst : n.MustEdge s t) (hsame : (σ.share t s).SameSlot i j)
    (hi : i.frame ≤ k) (hj : j.frame ≤ k) : n.LinkedWithin k i j := by
  have hlinked {i j : Index} (hij : m.LinkedWithin k i j) : n.LinkedWithin k i j :=
    ReflTransGen.mono (fun _ _ hs => ⟨hkept _ _ hs.1, hs.2⟩) _ _ hij
  rcases Environment.sameSlot_share.1 hsame with ⟨hi', hj'⟩ | ⟨-, -, hold⟩
  · have hsource {u w : Index} (hu : u = s ∨ σ.SameSlot u s) (hw : w = s ∨ σ.SameSlot w s)
        (huk : u.frame ≤ k) (hwk : w.frame ≤ k) : n.LinkedWithin k u w := by
      rcases hu with rfl | hu
      · rcases hw with rfl | hw
        · exact .refl
        · exact hlinked (h.linked k _ _ hw.symm huk hwk)
      · rcases hw with rfl | hw
        · exact hlinked (h.linked k _ _ hu huk hwk)
        · exact hlinked (h.linked k _ _ (hu.trans hw.symm) huk hwk)
    -- the new variable is in the last frame, so that the source is in none that is left out
    have hsk (htk : t.frame ≤ k) : s.frame ≤ k := Nat.le_trans hle (hframe ▸ htk)
    rcases hi' with rfl | hi'
    · rcases hj' with rfl | hj'
      · exact .refl
      · exact ReflTransGen.head ⟨hts, hi, hsk hi⟩ (hsource (.inl rfl) hj' (hsk hi) hj)
    · rcases hj' with rfl | hj'
      · exact ReflTransGen.tail (hsource hi' (.inl rfl) hi (hsk hj)) ⟨hst, hsk hj, hj⟩
      · exact hsource hi' hj' hi hj
  · exact hlinked (h.linked k i j hold hi hj)

/-- A new variable of the frame shares the slot of another one: its only link leads there. -/
theorem Mirrors.share (h : Mirrors σ level returned m) (ht : t.IsVariable)
    (hnew : ¬σ.isBound t = true) (hframe : t.frame = level) (hs : s.IsVariable)
    (hle : s.frame ≤ level) (hne : t ≠ s) (hb : m.BoundTo t s n) :
    Mirrors (σ.share t s) level returned n := by
  -- no edge leads to the new variable, so that the new one is certain and leaves all others alone
  have hstrength := hb.strength?_of_new hne fun i he => hnew (h.edge t i he).2.isBound
  have hkept (i j : Index) (hij : m.MustEdge i j) : n.MustEdge i j := by
    unfold MustEdge at hij ⊢
    rw [hstrength, hij, ite_self]
  have hts : n.MustEdge t s := by
    unfold MustEdge
    rw [hstrength]
    exact if_pos (.inl ⟨rfl, rfl⟩)
  have hst : n.MustEdge s t := by
    unfold MustEdge
    rw [hstrength]
    exact if_pos (.inr ⟨rfl, rfl⟩)
  refine ⟨hb.level_eq.trans h.level_eq, hb.flat, hb.symmetric, hb.hasEntries h.hasEntries, ?_, ?_,
    ?_, ?_, ?_, ?_⟩
  · intro i hi
    rcases Environment.isBound_share.1 hi with rfl | rfl | hi
    · exact ⟨ht, Nat.le_of_eq hframe⟩
    · exact ⟨hs, hle⟩
    · exact h.framed i hi
  · intro i hi
    rw [hb.isDefined_iff, Environment.isBound_share, h.isDefined_iff i hi]
  · intro i hi
    unfold entryOrUndefined
    rw [Environment.read_share]
    by_cases hor : i = t ∨ i = s
    · rw [hb.entry?_of i hor, if_pos hor, h.referred_eq hs]
      rfl
    · obtain ⟨hit, his⟩ := not_or.1 hor
      rw [hb.entry?_of_not i hit his, if_neg hor]
      exact h.content i hi
  · rintro i j ⟨r, hr⟩
    rw [hstrength] at hr
    unfold MustEdge
    rw [hstrength, Environment.sameSlot_share]
    split at hr
    · next hends =>
      refine ⟨if_pos hends, .inl ?_⟩
      rcases hends with ⟨rfl, rfl⟩ | ⟨rfl, rfl⟩
      · exact ⟨.inl rfl, .inr (.inl rfl)⟩
      · exact ⟨.inr (.inl rfl), .inl rfl⟩
    · next hends =>
      obtain ⟨hm, hsame⟩ := h.edge i j ⟨r, hr⟩
      rw [if_neg hends]
      refine ⟨hm, .inr ⟨?_, ?_, hsame⟩⟩
      · rintro rfl
        exact hnew hsame.isBound
      · rintro rfl
        exact hnew hsame.symm.isBound
  · intro k i j hsame hi hj
    exact h.linked_share hframe hle hkept hts hst hsame hi hj
  · intro k
    rw [← h.returns k]
    unfold entryOrUndefined
    rw [hb.entry?_of_not _ (ht.ne_returnSlot k).symm (hs.ne_returnSlot k).symm]

/-- A new frame is empty. -/
theorem Mirrors.enter (h : Mirrors σ level none m) :
    Mirrors σ (level + 1) none { m with level := level + 1 } where
  level_eq := rfl
  flat := ⟨h.flat.members, h.flat.flat⟩
  symmetric := h.symmetric
  hasEntries := h.hasEntries
  framed := by
    intro i hi
    obtain ⟨hv, hle⟩ := h.framed i hi
    exact ⟨hv, Nat.le_succ_of_le hle⟩
  isDefined_iff := h.isDefined_iff
  content := h.content
  edge := h.edge
  linked := h.linked
  returns := by
    intro k
    have hnone := h.returns k
    rw [ite_self] at hnone ⊢
    exact hnone

theorem entryOrUndefined_discard (m : Memory) (gone : Index → Bool) (i : Index) :
    (m.discard gone).entryOrUndefined i =
      if gone i then .undefined else m.entryOrUndefined i := by
  unfold entryOrUndefined
  rw [entry?_discard]
  split <;> rfl

/-- What is linked within some frames stays so when nothing in them is taken away. -/
theorem LinkedWithin.discard {gone : Index → Bool} (h : m.LinkedWithin k i j)
    (hgone : ∀ u : Index, u.frame ≤ k → gone u = false) : (m.discard gone).LinkedWithin k i j := by
  refine ReflTransGen.mono ?_ _ _ h
  rintro u w ⟨hm, hu, hw⟩
  exact ⟨mustEdge_discard.2 ⟨hgone u hu, hgone w hw, hm⟩, hu, hw⟩

/-- Closing a frame takes its variables away and leaves the others linked. -/
theorem Mirrors.close (h : Mirrors σ (level + 1) returned m) :
    Mirrors (σ.unbind (·.isRootedAtLevel (level + 1))) level none
      { m.discard (·.isRootedAtLevel (level + 1)) with level := level } := by
  have hkept {i : Index} (hi : i.isRootedAtLevel (level + 1) = false) : i.frame ≠ level + 1 := by
    rw [← Bool.not_eq_true, Index.isRootedAtLevel_iff] at hi
    exact hi
  -- the level makes no difference to what memory holds
  have hentry : ∀ i, entryOrUndefined
      { m.discard (·.isRootedAtLevel (level + 1)) with level := level } i =
        if i.isRootedAtLevel (level + 1) then .undefined else m.entryOrUndefined i :=
    entryOrUndefined_discard m _
  have hstrength : ∀ i j, (Memory.aliases
      { m.discard (·.isRootedAtLevel (level + 1)) with level := level } i).strength? j =
        if i.isRootedAtLevel (level + 1) || j.isRootedAtLevel (level + 1) then none
        else (m.aliases i).strength? j := strength?_discard m _
  have hflat := h.flat.discard (·.isRootedAtLevel (level + 1))
  have hsym := aliasesSymmetric_discard h.symmetric (·.isRootedAtLevel (level + 1))
  refine ⟨rfl, ⟨hflat.members, hflat.flat⟩, hsym, hasEntries_discard h.hasEntries _, ?_, ?_, ?_, ?_,
    ?_, ?_⟩
  · intro i hi
    obtain ⟨hg, hb⟩ := Environment.isBound_unbind.1 hi
    obtain ⟨hv, hle⟩ := h.framed i hb
    have hne := hkept hg
    exact ⟨hv, by omega⟩
  · intro i hi
    rw [Environment.isBound_unbind, ← h.isDefined_iff i hi]
    exact isDefined_discard
  · intro i hi
    rw [Environment.read_unbind, hentry]
    split
    · rfl
    · exact h.content i hi
  · rintro i j ⟨r, hr⟩
    rw [hstrength] at hr
    split at hr
    · cases hr
    · next hgone =>
      obtain ⟨hi, hj⟩ := Bool.or_eq_false_iff.1 (Bool.not_eq_true _ ▸ hgone)
      obtain ⟨hm, hs⟩ := h.edge i j ⟨r, hr⟩
      exact ⟨mustEdge_discard.2 ⟨hi, hj, hm⟩, Environment.sameSlot_unbind.2 ⟨hi, hj, hs⟩⟩
  · intro k i j hs hi hj
    obtain ⟨hgi, hgj, hs⟩ := Environment.sameSlot_unbind.1 hs
    -- what is left is linked within the frames below the one that is closed
    have hbelow {u : Index} (hu : u.isRootedAtLevel (level + 1) = false) (hb : σ.isBound u = true)
        (huk : u.frame ≤ k) : u.frame ≤ min k level := by
      have hle := (h.framed u hb).2
      have hne := hkept hu
      omega
    have hpath := h.linked (min k level) i j hs (hbelow hgi hs.isBound hi)
      (hbelow hgj hs.symm.isBound hj)
    have hleft : (m.discard (·.isRootedAtLevel (level + 1))).LinkedWithin (min k level) i j := by
      refine hpath.discard fun u hu => ?_
      rw [← Bool.not_eq_true, Index.isRootedAtLevel_iff]
      omega
    exact hleft.mono (Nat.min_le_left k level)
  · intro k
    rw [ite_self, hentry]
    split
    · rfl
    · next hg =>
      have hk : k ≠ level + 1 := fun hk => hg (Index.isRootedAtLevel_iff.2 hk)
      have hold := h.returns k
      rw [if_neg hk] at hold
      exact hold

end Memory
end ScriptMemory
