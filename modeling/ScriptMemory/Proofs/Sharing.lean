import Mathlib.Data.Set.Finite.Basic
import ScriptMemory.Proofs.Environment
import ScriptMemory.Proofs.Memory.Plain
import ScriptMemory.Proofs.Memory.References

/-! References between plain variables. Memory records which variables were bound to which, and a
write reaches all that these records lead to. It describes what scripts do as long as variables that
share a slot stay linked, and only so long: unsetting a variable drops its records, which may have
been all that linked the others. -/
namespace ScriptMemory
open Std Relation

/-- A variable of the script, named on the top level. -/
structure Variable where
  scope : Scope
  name : String
deriving DecidableEq

namespace Variable

/-- A variable of the running function. -/
def ofName (name : String) : Variable :=
  ⟨.current, name⟩

def path (x : Variable) : Path :=
  ⟨x.scope, x.name, []⟩

def index (x : Variable) : Index :=
  x.path.indexAt 0

theorem isVariable_path (x : Variable) : x.path.isVariable = true :=
  rfl

theorem index_ne_diagnostics (x : Variable) : x.index ≠ .diagnostics := by
  intro h
  cases h

end Variable

namespace Value

/-- The value is one that a slot may hold, and not a set of them. -/
def IsContent (v : Value) : Prop :=
  ∃ c, v = ofContent c

theorem IsContent.isFlat {v : Value} (h : v.IsContent) :
    v.isReference = false ∧ v.arrayOwner? = none := by
  obtain ⟨c, rfl⟩ := h
  cases c <;> exact ⟨rfl, rfl⟩

theorem IsContent.absorbs {v : Value} (h : v.IsContent) (w : Value) : v.absorbs w = false := by
  obtain ⟨c, rfl⟩ := h
  cases c <;> cases w <;> rfl

end Value

namespace Entry
variable {e f : Entry} {v : Value}

theorem covers_iff_mem (h : e.All Value.IsContent) : e.Covers v ↔ v ∈ e := by
  constructor
  · rintro ⟨w, hw, rfl | hv⟩
    · exact hw
    · rw [(h w hw).absorbs v] at hv
      cases hv
  · exact covers_of_mem

theorem mem_join_iff (he : e.All Value.IsContent) (hf : f.All Value.IsContent) :
    v ∈ e.join f ↔ v ∈ e ∨ v ∈ f := by
  rw [← covers_iff_mem he, ← covers_iff_mem hf, ← covers_iff_mem (he.join hf), covers_join]

end Entry

/-- One change to the variables of a script. -/
inductive Change where
  | assign (x : Variable) (value : Scalar) (force : Bool)
  | copy (x y : Variable) (force : Bool)
  /-- Makes `x` a reference to `y`. -/
  | bind (x y : Variable)
  | unset (x : Variable)

namespace Change

/-- What the change does to a snapshot. -/
def perform : Change → Transact Unit
  | assign x value force => Snapshot.assign x.path (.ofValue (.scalar value)) force
  | copy x y force => do Snapshot.assign x.path ((← get).memory.read y.path) force
  | bind x y => Snapshot.assignAlias x.path y.path
  | unset x => Snapshot.unset x.path

/-- What the change does at run time. -/
def apply : Change → Environment → Environment
  | assign x value _, σ => σ.write x.index (some value)
  | copy x y _, σ => σ.write x.index (σ.read y.index)
  | bind x y, σ => σ.share x.index y.index
  | unset x, σ => σ.unbind (· = x.index)

/-- The environment after some changes, from that without variables. -/
def after (changes : List Change) : Environment :=
  changes.foldl (fun σ c => c.apply σ) .blank

/-- A transaction that makes some changes, in a fresh snapshot without limits. -/
def session (changes : List Change) : EStateM.Result ContractError Snapshot Unit :=
  (do Snapshot.start; changes.forM perform : Transact Unit).run {}

/-- What any variable holds after the changes is among the values that the snapshot reads. -/
def Sound (changes : List Change) : Prop :=
  ∃ t, session changes = .ok () t ∧
    ∀ x : Variable, .ofContent ((after changes).read x.index) ∈ t.memory.read x.path

/-- All variables that share a slot after the changes are linked in memory. -/
def Connected (changes : List Change) : Prop :=
  ∃ t, session changes = .ok () t ∧
    ∀ x y : Variable, (after changes).SameSlot x.index y.index → t.memory.Linked x.index y.index

end Change

namespace Memory
variable {m n : Memory} {σ : Environment} {x y : Variable} {c : Change} {i j : Index} {v : Value}

/-- Memory of the top level that knows of scalars only. -/
structure Scalars (m : Memory) : Prop where
  level_eq : m.level = 0
  symmetric : m.AliasesSymmetric
  hasEntries : m.HasEntries
  members : ∀ i, (m.cell i).members = ∅
  contents : ∀ i e, m.entry? i = some e → e.All Value.IsContent

theorem scalars_initial : initial.Scalars where
  level_eq := rfl
  symmetric := wellFormed_initial.symmetric
  hasEntries := by decide
  members := plain_initial.members
  contents := by
    intro i e he
    rw [entry?_initial] at he
    split at he
    · cases he
      exact Entry.all_empty
    · cases he

theorem Scalars.flat (h : m.Scalars) : m.Flat :=
  ⟨h.members, fun i e he v hv => (h.contents i e he v hv).isFlat⟩

theorem Scalars.contents_entryOrUndefined (h : m.Scalars) (i : Index) :
    (m.entryOrUndefined i).All Value.IsContent := by
  unfold entryOrUndefined
  cases he : m.entry? i with
  | none => exact Entry.all_ofValue ⟨none, rfl⟩
  | some e => exact h.contents i e he

theorem Scalars.contents_referred (h : m.Scalars) (i : Index) :
    (m.referred i).All Value.IsContent := by
  unfold referred
  cases he : m.entry? i with
  | none => exact Entry.all_ofValue ⟨some .null, rfl⟩
  | some e => exact h.contents i e he

/-- Locations that a variable leads to have no container to fall back on. -/
theorem Scalars.readIndex_eq (h : m.Scalars) (hj : m.MustLinked x.index j) :
    m.readIndex j = m.entryOrUndefined j := by
  by_cases hx : x.index = j
  · rw [← hx]
    rfl
  · have hd := hj.linked.isDefined h.symmetric hx
    obtain ⟨e, he⟩ := Option.isSome_iff_exists.1 (h.hasEntries j hd)
    unfold readIndex entryOrUndefined
    rw [he]
    rfl

/-- A variable is read from what its certain aliases hold. -/
theorem Scalars.mem_read (h : m.Scalars) :
    v ∈ m.read x.path ↔ ∃ j, m.MustLinked x.index j ∧ v ∈ m.entryOrUndefined j := by
  have hread (w : Value) : (m.read x.path).Covers w ↔
      ∃ j, m.MustLinked x.index j ∧ w ∈ m.entryOrUndefined j := by
    unfold read
    rw [h.level_eq, covers_readAt x.isVariable_path]
    refine exists_congr fun j => and_congr_right fun hj => ?_
    rw [h.readIndex_eq hj, Entry.covers_iff_mem (h.contents_entryOrUndefined j)]
  have hall : (m.read x.path).All Value.IsContent := by
    intro w hw
    obtain ⟨j, -, hj⟩ := (hread w).1 (Entry.covers_of_mem hw)
    exact h.contents_entryOrUndefined j w hj
  rw [← Entry.covers_iff_mem hall, hread]

theorem Scalars.contents_read (h : m.Scalars) (x : Variable) :
    (m.read x.path).All Value.IsContent := by
  intro v hv
  obtain ⟨j, -, hj⟩ := h.mem_read.1 hv
  exact h.contents_entryOrUndefined j v hj

theorem Scalars.rewritten (h : m.Scalars) {P : Index → Prop} {f : Index → Entry}
    (hr : m.Rewritten P f n) (hf : ∀ i, P i → (f i).All Value.IsContent) : n.Scalars where
  level_eq := hr.level_eq.trans h.level_eq
  symmetric := aliasesSymmetric_of_aliases_eq h.symmetric hr.aliases_eq
  hasEntries := hr.hasEntries h.hasEntries
  members := hr.flat.members
  contents := by
    intro i e he
    by_cases hi : P i
    · rw [hr.entry?_of i hi] at he
      cases he
      exact hf i hi
    · rw [hr.entry?_of_not i hi] at he
      exact h.contents i e he

theorem Scalars.contents_assigned (h : m.Scalars) {e : Entry} (he : e.All Value.IsContent)
    (x i : Index) : (m.assigned x e i).All Value.IsContent := by
  unfold assigned
  split
  · exact he
  · exact (h.contents_entryOrUndefined i).join he

end Memory

namespace Change
open Memory
variable {m n : Memory} {σ : Environment} {x y : Variable} {c : Change} {i j : Index} {v : Value}

/-- The memory `n` is `m` after a change. -/
def Effect (m : Memory) : Change → Memory → Prop
  | assign x value _, n => m.Rewritten (m.Linked x.index)
      (m.assigned x.index (.ofValue (.scalar value))) n
  | copy x y _, n => m.Rewritten (m.Linked x.index) (m.assigned x.index (m.read y.path)) n
  | bind x y, n => m.BoundTo x.index y.index n
  | unset x, n => n = m.discard (· = x.index)

theorem yields_perform (h : m.Scalars) (c : Change) :
    ∃ n, Transact.Yields c.perform {} m () n ∧ c.Effect m n := by
  have hindex (x : Variable) : x.path.indexAt m.level = x.index := by rw [h.level_eq]; rfl
  cases c with
  | assign x value force =>
    have he : (Entry.ofValue (.scalar value)).IsFlat := Entry.all_ofValue ⟨rfl, rfl⟩
    obtain ⟨n, hn, hr⟩ := Transact.yields_assign_variable {} h.flat he x.isVariable_path force
      fun i _ => Entry.fits_none _
    rw [hindex] at hr
    exact ⟨n, hn, hr⟩
  | copy x y force =>
    have he : (m.read y.path).IsFlat := fun v hv => (h.contents_read y v hv).isFlat
    obtain ⟨n, hn, hr⟩ := Transact.yields_assign_variable {} h.flat he x.isVariable_path force
      fun i _ => Entry.fits_none _
    rw [hindex] at hr
    exact ⟨n, Transact.Yields.get_bind (fun s t hst => by rw [hst]) hn, hr⟩
  | bind x y =>
    obtain ⟨n, hn, hb⟩ := Transact.yields_assignAlias {} h.flat h.symmetric h.hasEntries
      x.isVariable_path y.isVariable_path (Entry.fits_none _)
    rw [hindex, hindex] at hb
    exact ⟨n, hn, hb⟩
  | unset x =>
    refine ⟨_, Transact.yields_unset_variable {} h.flat x.isVariable_path, ?_⟩
    rw [hindex]
    rfl

/-- A change keeps to scalars. -/
theorem Effect.scalars (h : m.Scalars) (he : c.Effect m n) : n.Scalars := by
  cases c with
  | assign x value force =>
    exact h.rewritten he fun i _ => h.contents_assigned (Entry.all_ofValue ⟨some value, rfl⟩) _ i
  | copy x y force => exact h.rewritten he fun i _ => h.contents_assigned (h.contents_read y) _ i
  | bind x y =>
    refine ⟨he.level_eq.trans h.level_eq, he.symmetric, he.hasEntries h.hasEntries,
      he.flat.members, ?_⟩
    intro i e hi
    by_cases hxy : i = x.index ∨ i = y.index
    · rw [he.entry?_of i hxy] at hi
      cases hi
      exact h.contents_referred _
    · rw [he.entry?_of_not i (fun hx => hxy (.inl hx)) fun hy => hxy (.inr hy)] at hi
      exact h.contents i e hi
  | unset x =>
    have hn : n = m.discard (· = x.index) := he
    rw [hn]
    refine ⟨h.level_eq, aliasesSymmetric_discard h.symmetric _, hasEntries_discard h.hasEntries _,
      (h.flat.discard _).members, ?_⟩
    intro i e hi
    rw [entry?_discard] at hi
    split at hi
    · cases hi
    · exact h.contents i e hi

/-- Memory describes an environment: it defines the bound variables, takes for certain what shares a
slot, and holds for each variable what is in its slot. -/
structure Tracks (m : Memory) (σ : Environment) : Prop where
  isDefined_iff : ∀ x : Variable, m.isDefined x.index = true ↔ σ.isBound x.index = true
  sameSlot : ∀ i j, m.MustEdge i j → σ.SameSlot i j
  content : ∀ x : Variable, .ofContent (σ.read x.index) ∈ m.entryOrUndefined x.index

/-- Variables that share a slot are linked. -/
def Links (m : Memory) (σ : Environment) : Prop :=
  ∀ x y : Variable, σ.SameSlot x.index y.index → m.Linked x.index y.index

theorem Tracks.sameSlot_of_mustLinked (ht : Tracks m σ) (h : m.MustLinked i j) :
    i = j ∨ σ.SameSlot i j := by
  induction h with
  | refl => exact .inl rfl
  | tail _ hlast ih =>
    have hedge := ht.sameSlot _ _ hlast
    rcases ih with rfl | hs
    · exact .inr hedge
    · exact .inr (hs.trans hedge)

theorem Tracks.mem_read (h : m.Scalars) (ht : Tracks m σ) (x : Variable) :
    .ofContent (σ.read x.index) ∈ m.read x.path :=
  h.mem_read.2 ⟨_, .refl, ht.content x⟩

theorem tracks_initial : Tracks .initial .blank where
  isDefined_iff := by
    intro x
    refine iff_of_false ?_ (by simp [Environment.isBound, Environment.blank])
    intro hd
    have he := scalars_initial.hasEntries _ hd
    rw [entry?_initial, if_neg x.index_ne_diagnostics] at he
    cases he
  sameSlot := by
    intro i j h
    unfold MustEdge at h
    rw [aliases_initial] at h
    cases h
  content := by
    intro x
    unfold entryOrUndefined
    rw [entry?_initial, if_neg x.index_ne_diagnostics]
    exact Entry.mem_ofValue.2 rfl

/-- A write is described as long as the variables that share the slot are linked. -/
theorem Tracks.write (h : m.Scalars) (ht : Tracks m σ) (hl : Links m σ) {e : Entry}
    {v : Option Scalar} (he : e.All Value.IsContent) (hv : .ofContent v ∈ e)
    (hr : m.Rewritten (m.Linked x.index) (m.assigned x.index e) n) :
    Tracks n (σ.write x.index v) where
  isDefined_iff := by
    intro y
    rw [hr.isDefined_iff, Environment.isBound_write, ht.isDefined_iff]
    constructor
    · rintro (hxy | hy)
      · by_cases hne : x.index = y.index
        · exact .inl hne.symm
        · exact .inr ((ht.isDefined_iff y).1 (hxy.isDefined h.symmetric hne))
      · exact .inr hy
    · rintro (hyx | hy)
      · rw [hyx]
        exact .inl .refl
      · exact .inr hy
  sameSlot := by
    intro i j hij
    exact Environment.sameSlot_write.2 (.inl (ht.sameSlot i j (hr.mustEdge_iff.1 hij)))
  content := by
    intro y
    -- what is assigned may be at all that is linked
    have hnew (hxy : m.Linked x.index y.index) : .ofContent v ∈ n.entryOrUndefined y.index := by
      unfold entryOrUndefined
      rw [hr.entry?_of _ hxy, Option.getD_some]
      unfold assigned
      split
      · exact hv
      · exact (Entry.mem_join_iff (h.contents_entryOrUndefined _) he).2 (.inr hv)
    by_cases hyx : y.index = x.index
    · rw [hyx, Environment.read_write_self, ← hyx]
      exact hnew (by rw [hyx]; exact .refl)
    · by_cases hs : σ.SameSlot x.index y.index
      · rw [Environment.read_write_of_sameSlot hs]
        exact hnew (hl x y hs)
      · rw [Environment.read_write_of_not_sameSlot hyx hs]
        have hold := ht.content y
        by_cases hxy : m.Linked x.index y.index
        · -- a certain alias would share the slot
          have hnot : ¬m.MustLinked x.index y.index := by
            intro hm
            rcases ht.sameSlot_of_mustLinked hm with heq | hsame
            · exact hyx heq.symm
            · exact hs hsame
          unfold entryOrUndefined
          rw [hr.entry?_of _ hxy, assigned_of_not_mustLinked hnot]
          exact (Entry.mem_join_iff (h.contents_entryOrUndefined _) he).2 (.inl hold)
        · unfold entryOrUndefined
          rw [hr.entry?_of_not _ hxy]
          exact hold

theorem Tracks.referred (h : m.Scalars) (ht : Tracks m σ) (y : Variable) :
    .ofContent (σ.shared y.index) ∈ m.referred y.index := by
  unfold Environment.shared
  rw [referred_eq h.hasEntries]
  by_cases hy : σ.isBound y.index = true
  · rw [if_pos ((ht.isDefined_iff y).2 hy), if_pos hy]
    exact ht.content y
  · rw [if_neg fun hd => hy ((ht.isDefined_iff y).1 hd), if_neg hy]
    exact Entry.mem_ofValue.2 rfl

theorem Tracks.share (h : m.Scalars) (ht : Tracks m σ) (hb : m.BoundTo x.index y.index n) :
    Tracks n (σ.share x.index y.index) where
  isDefined_iff := by
    intro z
    rw [hb.isDefined_iff, Environment.isBound_share, ht.isDefined_iff]
  sameSlot := by
    intro i j hij
    rw [Environment.sameSlot_share]
    rcases hb.relinked.of_mustEdge hij with ⟨rfl, rfl⟩ | ⟨rfl, rfl⟩ | ⟨hm, hcase⟩
    · exact .inl ⟨.inl rfl, .inr (.inl rfl)⟩
    · exact .inl ⟨.inr (.inl rfl), .inl rfl⟩
    · have hs := ht.sameSlot i j hm
      -- the slot that the target leaves must be the one that it gets
      have hcommon (hxy : σ.SameSlot x.index y.index) :
          (i = x.index ∨ i = y.index ∨ σ.SameSlot i y.index) ∧
              (j = x.index ∨ j = y.index ∨ σ.SameSlot j y.index) ∨
            i ≠ x.index ∧ j ≠ x.index ∧ σ.SameSlot i j := by
        by_cases hi : i = x.index
        · subst hi
          exact .inl ⟨.inl rfl, .inr (.inr (hs.symm.trans hxy))⟩
        · by_cases hj : j = x.index
          · subst hj
            exact .inl ⟨.inr (.inr (hs.trans hxy)), .inl rfl⟩
          · exact .inr ⟨hi, hj, hs⟩
      rcases hcase with ⟨hi, hj⟩ | hsame | hmust
      · exact .inr ⟨hi, hj, hs⟩
      · by_cases hi : i = x.index
        · rw [hi, hsame] at hs ⊢
          exact .inl ⟨.inl rfl, .inr (.inr hs.symm)⟩
        · by_cases hj : j = x.index
          · rw [hj, hsame] at hs ⊢
            exact .inl ⟨.inr (.inr hs), .inl rfl⟩
          · exact .inr ⟨hi, hj, hs⟩
      · rcases bindingStrength_eq_must hmust with hxy | hnone
        · exact hcommon (ht.sameSlot _ _ hxy)
        · refine .inr ⟨?_, ?_, hs⟩
          · rintro rfl
            exact hnone j ⟨_, hm⟩
          · rintro rfl
            exact hnone i (h.symmetric.edge ⟨_, hm⟩)
  content := by
    intro z
    rw [Environment.read_share]
    unfold entryOrUndefined
    split
    · next hz =>
      rw [hb.entry?_of _ hz]
      exact ht.referred h y
    · next hz =>
      obtain ⟨hx, hy⟩ := not_or.1 hz
      rw [hb.entry?_of_not _ hx hy]
      exact ht.content z

theorem Tracks.unbind (ht : Tracks m σ) (gone : Index → Bool) :
    Tracks (m.discard gone) (σ.unbind gone) where
  isDefined_iff := by
    intro y
    rw [isDefined_discard, Environment.isBound_unbind, ht.isDefined_iff]
  sameSlot := by
    intro i j hij
    obtain ⟨hi, hj, hm⟩ := mustEdge_discard.1 hij
    exact Environment.sameSlot_unbind.2 ⟨hi, hj, ht.sameSlot i j hm⟩
  content := by
    intro y
    rw [Environment.read_unbind]
    unfold entryOrUndefined
    rw [entry?_discard]
    split
    · exact Entry.mem_ofValue.2 rfl
    · exact ht.content y

/-- A change is described, if variables that share a slot are linked when it is a write. -/
theorem Effect.tracks (h : m.Scalars) (ht : Tracks m σ) (hl : Links m σ) (he : c.Effect m n) :
    Tracks n (c.apply σ) := by
  cases c with
  | assign x value force =>
    exact ht.write h hl (Entry.all_ofValue ⟨some value, rfl⟩) (Entry.mem_ofValue.2 rfl) he
  | copy x y force => exact ht.write h hl (h.contents_read y) (ht.mem_read h y) he
  | bind x y => exact ht.share h he
  | unset x =>
    have hn : n = m.discard (· = x.index) := he
    rw [hn]
    exact ht.unbind _

/-- Every change but unsetting keeps variables linked that share a slot. -/
theorem Effect.links (hc : ∀ x, c ≠ .unset x) (hl : Links m σ)
    (he : c.Effect m n) : Links n (c.apply σ) := by
  have hwrite {x : Variable} {v : Option Scalar} {e : Entry}
      (hr : m.Rewritten (m.Linked x.index) (m.assigned x.index e) n) :
      Links n (σ.write x.index v) := by
    intro y z hyz
    rw [hr.linked_iff]
    rcases Environment.sameSlot_write.1 hyz with hs | ⟨hy, hz⟩
    · exact hl y z hs
    · rw [hy, hz]
      exact .refl
  cases c with
  | assign x value force => exact hwrite he
  | copy x y force => exact hwrite he
  | bind x y =>
    intro z w hzw
    -- all that share the slot in the end are linked to the source
    have hsource {u : Variable}
        (hu : u.index = x.index ∨ u.index = y.index ∨ σ.SameSlot u.index y.index) :
        n.Linked u.index y.index := by
      rcases hu with hu | hu | hu
      · rw [hu]
        exact he.linked
      · rw [hu]
        exact .refl
      · exact he.linked_of_linked (hl u y hu)
    rcases Environment.sameSlot_share.1 hzw with ⟨hz, hw⟩ | ⟨-, -, hs⟩
    · exact (hsource hz).trans (he.symmetric.linked (hsource hw))
    · exact he.linked_of_linked (hl z w hs)
  | unset x => exact absurd rfl (hc x)

/-- What is not linked to the target of an assignment is read as before. -/
theorem mem_read_of_not_linked (h : m.Scalars) {e : Entry}
    (hr : m.Rewritten (m.Linked x.index) (m.assigned x.index e) n) (hn : n.Scalars)
    (hxy : ¬m.Linked x.index y.index) : v ∈ n.read y.path ↔ v ∈ m.read y.path := by
  rw [h.mem_read, hn.mem_read]
  refine exists_congr fun j => ?_
  rw [hr.mustLinked_iff]
  refine and_congr_right fun hj => ?_
  unfold entryOrUndefined
  rw [hr.entry?_of_not]
  intro hxj
  exact hxy (hxj.trans (h.symmetric.linked hj.linked))

/-- The transaction that makes the changes ends with the memory. -/
def Leaves (changes : List Change) (m : Memory) : Prop :=
  Transact.Yields (changes.forM perform) {} .initial () m

variable {l changes : List Change}

theorem leaves_nil : Leaves [] .initial :=
  Transact.Yields.pure {} .initial ()

theorem Leaves.snoc (hm : Leaves l m) (hc : Transact.Yields c.perform {} m () n) :
    Leaves (l ++ [c]) n :=
  Transact.Yields.snoc hm hc

theorem after_snoc (l : List Change) (c : Change) : after (l ++ [c]) = c.apply (after l) := by
  unfold after
  rw [List.foldl_append]
  rfl

theorem Leaves.session (hm : Leaves l m) : ∃ t, session l = .ok () t ∧ t.memory = m :=
  Transact.Yields.session hm

/-- Every sequence of changes succeeds, and after it memory knows of scalars only. -/
theorem exists_leaves (changes : List Change) : ∃ m, Leaves changes m ∧ m.Scalars := by
  induction changes using List.reverseRecOn with
  | nil => exact ⟨_, leaves_nil, scalars_initial⟩
  | append_singleton l c ih =>
    obtain ⟨m, hm, h⟩ := ih
    obtain ⟨n, hn, he⟩ := yields_perform h c
    exact ⟨n, hm.snoc hn, he.scalars h⟩

theorem sound_iff (hm : Leaves l m) : Sound l ↔
    ∀ x : Variable, .ofContent ((after l).read x.index) ∈ m.read x.path := by
  obtain ⟨t, ht, htm⟩ := hm.session
  unfold Sound
  rw [ht, ← htm]
  simp

theorem connected_iff (hm : Leaves l m) : Connected l ↔ Links m (after l) := by
  obtain ⟨t, ht, htm⟩ := hm.session
  unfold Connected Links
  rw [ht, ← htm]
  simp

/-- Memory describes the variables after changes before which those that share a slot were always
linked. -/
theorem tracks_of_connected (hl : ∀ k, k <+: l → k ≠ l → Connected k) :
    ∃ m, Leaves l m ∧ m.Scalars ∧ Tracks m (after l) := by
  induction l using List.reverseRecOn with
  | nil => exact ⟨_, leaves_nil, scalars_initial, tracks_initial⟩
  | append_singleton l c ih =>
    have hprefix : l <+: l ++ [c] := List.prefix_append l [c]
    have hproper {k : List Change} (hk : k <+: l) : k ≠ l ++ [c] := by
      rintro rfl
      have hle := hk.length_le
      rw [List.length_append, List.length_singleton] at hle
      omega
    obtain ⟨m, hm, h, ht⟩ := ih fun k hk _ => hl k (hk.trans hprefix) (hproper hk)
    have hlinks : Links m (after l) := (connected_iff hm).1 (hl l hprefix (hproper List.prefix_rfl))
    obtain ⟨n, hn, he⟩ := yields_perform h c
    refine ⟨n, hm.snoc hn, he.scalars h, ?_⟩
    rw [after_snoc]
    exact he.tracks h ht hlinks

theorem connected_of_no_unset (hc : ∀ x, .unset x ∉ l) : Connected l := by
  induction l using List.reverseRecOn with
  | nil =>
    refine (connected_iff leaves_nil).2 ?_
    rintro x y ⟨c, hx, -⟩
    cases hx
  | append_singleton l c ih =>
    have hl : Connected l := ih fun x hx => hc x (List.mem_append_left _ hx)
    obtain ⟨m, hm, h⟩ := exists_leaves l
    obtain ⟨n, hn, he⟩ := yields_perform h c
    rw [connected_iff (hm.snoc hn), after_snoc]
    refine he.links ?_ ((connected_iff hm).1 hl)
    rintro x rfl
    exact hc x (by simp)

/-- Some scalar is not in the entry. -/
theorem exists_scalar_not_mem (e : Entry) : ∃ s : Scalar, .scalar s ∉ e := by
  have hinj : Function.Injective fun s : String => Value.scalar (.string s) := by
    intro s t h
    cases h
    rfl
  obtain ⟨s, hs⟩ := ((List.finite_toSet e.toList).preimage hinj.injOn).exists_notMem
  exact ⟨.string s, fun he => hs (Entry.mem_toList.2 he)⟩

/-- An assignment to one of two variables that share a slot but are not linked is lost for the
other. -/
theorem exists_not_sound (h : ¬Connected l) : ∃ x v force, ¬Sound (l ++ [.assign x v force]) := by
  obtain ⟨m, hm, hs⟩ := exists_leaves l
  rw [connected_iff hm] at h
  unfold Links at h
  push Not at h
  obtain ⟨x, y, hslot, hxy⟩ := h
  obtain ⟨v, hv⟩ := exists_scalar_not_mem (m.read y.path)
  obtain ⟨n, hn, he⟩ := yields_perform hs (.assign x v true)
  refine ⟨x, v, true, ?_⟩
  rw [sound_iff (hm.snoc hn), after_snoc]
  intro hsound
  have hy := hsound y
  rw [mem_read_of_not_linked hs he (he.scalars hs) hxy] at hy
  have hread : ((Change.assign x v true).apply (after l)).read y.index = some v :=
    Environment.read_write_of_sameSlot hslot
  rw [hread] at hy
  exact hv hy

/-- References are handled soundly exactly as long as variables that share a slot stay linked. Every
sequence of changes succeeds. All its beginnings are described, and still are after any further
assignment, if and only if at each of them any two variables that share a slot are linked; unless
something is unset, they always are. -/
theorem sound_iff_connected (changes : List Change) :
    (∃ t, session changes = .ok () t) ∧
    ((∀ l, l <+: changes → Connected l) ↔
      ∀ l, l <+: changes → Sound l ∧ ∀ x v force, Sound (l ++ [.assign x v force])) ∧
    ((∀ x, .unset x ∉ changes) → ∀ l, l <+: changes → Connected l) := by
  refine ⟨?_, ⟨?_, ?_⟩, ?_⟩
  · obtain ⟨m, hm, -⟩ := exists_leaves changes
    obtain ⟨t, ht, -⟩ := hm.session
    exact ⟨t, ht⟩
  · intro hconnected l hl
    have hsound {k : List Change} (hk : ∀ l, l <+: k → l ≠ k → Connected l) : Sound k := by
      obtain ⟨m, hm, h, ht⟩ := tracks_of_connected hk
      exact (sound_iff hm).2 fun x => ht.mem_read h x
    refine ⟨hsound fun k hk _ => hconnected k (hk.trans hl), ?_⟩
    intro x v force
    refine hsound fun k hk hne => ?_
    have hkl : k <+: l := (List.prefix_concat_iff.1 hk).resolve_left hne
    exact hconnected k (hkl.trans hl)
  · intro hsound l hl
    by_contra hnot
    obtain ⟨x, v, force, hx⟩ := exists_not_sound hnot
    exact hx ((hsound l hl).2 x v force)
  · intro hc l hl
    exact connected_of_no_unset fun x hx => hc x (hl.subset hx)

/-- Whether what a variable holds after the changes is among the values that the snapshot reads. -/
def readsHeld (changes : List Change) (x : Variable) : Bool :=
  match session changes with
  | .ok _ t => (t.memory.read x.path).contains (.ofContent ((after changes).read x.index))
  | .error _ _ => false

theorem Sound.readsHeld (h : Sound changes) (x : Variable) : readsHeld changes x = true := by
  obtain ⟨t, ht, hsound⟩ := h
  unfold Change.readsHeld
  rw [ht]
  exact Entry.contains_eq_true.2 (hsound x)

end Change

namespace Sample

/-- Two variables become references to a third one. -/
def references : List Change :=
  [.bind (.ofName "a") (.ofName "x"), .bind (.ofName "b") (.ofName "x")]

end Sample

namespace Change

/-- A number assigned through one reference may be read through the other. -/
theorem sound_iff_connected_references :
    Sound (Sample.references ++ [.assign (.ofName "a") (.integer 5) false]) := by
  have hc : ∀ x, .unset x ∉ Sample.references := by
    intro x hx
    cases hx with
    | tail _ hx =>
      cases hx with
      | tail _ hx => cases hx
  obtain ⟨-, hiff, hconnected⟩ := sound_iff_connected Sample.references
  exact (hiff.1 (hconnected hc) _ List.prefix_rfl).2 _ _ _

set_option maxRecDepth 20000 in
/-- Once the third variable is unset nothing links the references any more, though they still share
their slot: a number assigned through one of them is not read through the other. -/
theorem not_sound_unset : ¬Sound (Sample.references ++
    [.unset (.ofName "x"), .assign (.ofName "a") (.integer 5) false]) := by
  have hlost : readsHeld (Sample.references ++
      [.unset (.ofName "x"), .assign (.ofName "a") (.integer 5) false]) (.ofName "b") = false := by
    decide +kernel
  intro hsound
  exact Bool.false_ne_true (hlost.symm.trans (hsound.readsHeld (.ofName "b")))

end Change
end ScriptMemory
