import ScriptMemory.Proofs.Anonymity
import ScriptMemory.Proofs.Memory.Copying
import ScriptMemory.Proofs.Memory.Loosening
import ScriptMemory.Proofs.Memory.Steady

/-! Certain aliases hold the same, each under its own name. A write reaches all certain aliases of a
variable or none of them, and it does the same to each, so where only variables are aliases they go
on to hold the same. -/
namespace ScriptMemory
open Std

namespace Entry
variable {e f : Entry} {limit : Option Nat}

theorem fits_iff : e.Fits limit ↔ ∀ n, limit = some n → e.simplifiableCount ≤ n := by
  cases limit with
  | none => exact iff_of_true (fits_none e) fun _ h => nomatch h
  | some n =>
    have hfits : e.Fits (some n) ↔ e.simplifiableCount ≤ n := by
      change e.simplify? n = none ↔ _
      rw [simplify?_eq]
      split
      · next h => exact iff_of_true rfl h
      · next h => exact iff_of_false (fun hnone => nomatch hnone) h
    rw [hfits]
    exact ⟨fun h k hk => Option.some.inj hk ▸ h, fun h => h n rfl⟩

theorem fits_anonymous : e.anonymous.Fits limit ↔ e.Fits limit := by
  rw [fits_iff, fits_iff, simplifiableCount_anonymous]

theorem Fits.widen (h : e.Fits limit) (previous : Entry) : (e.widen previous).Fits limit :=
  fits_iff.2 fun n hn => Nat.le_trans (simplifiableCount_widen e previous) (fits_iff.1 h n hn)

theorem fits_undefined : undefined.Fits limit := by
  refine fits_iff.2 fun n _ => ?_
  have hnone : undefined.simplifiableCount = 0 := by
    apply List.countP_eq_zero.2
    intro v hv
    rw [mem_ofValue.1 (mem_toList.1 hv)]
    exact Bool.false_ne_true
  rw [hnone]
  exact Nat.zero_le n

theorem mem_relocate {x y : Index} {v : Value} : v ∈ e.relocate y x ↔
    v = .array x ∧ .array y ∈ e ∨ v ∈ e ∧ v.arrayOwner? = none := by
  have hothers : v ∈ e.filter (fun v => v.arrayOwner?.isNone) ↔ v ∈ e ∧ v.arrayOwner? = none := by
    rw [mem_filter, Option.isNone_iff_eq_none]
  have hnone : (e.filter fun v => v.arrayOwner?.isNone).absorbs (.array x) = false :=
    not_absorbs_of_isSolid (Value.array_isSolid x)
  unfold relocate
  split
  · next hy =>
    rw [mem_insert_of_not_absorbs hnone, hothers, and_iff_left (contains_eq_true.1 hy)]
    exact or_congr_right (and_iff_left rfl)
  · next hy =>
    rw [hothers, or_iff_right fun h => hy (contains_eq_true.2 h.2)]

/-- An entry holds no array but that of its location. -/
theorem array_mem_anonymous_iff {i : Index} (he : e.All (Value.Belongs i)) :
    .array .freshArray ∈ e.anonymous ↔ .array i ∈ e := by
  rw [array_mem_anonymous]
  refine ⟨?_, fun h => ⟨i, h⟩⟩
  rintro ⟨j, hj⟩
  exact (he _ hj).2 j rfl ▸ hj

/-- Two entries that are the same up to names, neither of which holds an object that a write has
made, differ in the names of their arrays only. -/
theorem relocate_eq_of_anonymous {i j : Index} (he : e.All (Value.Belongs i))
    (hf : f.All (Value.Belongs j)) (h : e.anonymous = f.anonymous)
    (hmade : ∀ o, .object o ∈ e → o.isMade = false) : e.relocate i j = f := by
  have hnone : .object .unnamed ∉ e.anonymous := by
    rw [unnamed_mem_anonymous]
    rintro ⟨o, hm, ho⟩
    rw [hmade o ho] at hm
    cases hm
  -- so whatever is no array has no name
  have hself {g : Entry} (hg : g.anonymous = e.anonymous) {v : Value} (hv : v ∈ g)
      (ha : v.arrayOwner? = none) : v.anonymous = v := by
    apply Value.anonymous_eq_self ha
    intro heq
    exact hnone (hg ▸ heq ▸ mem_anonymous.2 ⟨v, hv, rfl⟩)
  have hsub {g g' : Entry} (hg : g.anonymous = e.anonymous) (hg' : g'.anonymous = e.anonymous)
      {v : Value} (hv : v ∈ g) (ha : v.arrayOwner? = none) : v ∈ g' := by
    have hmem : v ∈ g'.anonymous := by
      rw [hg', ← hg, ← hself hg hv ha]
      exact mem_anonymous.2 ⟨v, hv, rfl⟩
    obtain ⟨w, hw, hwv⟩ := mem_anonymous.1 hmem
    rw [hself hg' hw (Value.arrayOwner?_anonymous (hwv.symm ▸ ha))] at hwv
    exact hwv ▸ hw
  have harray : .array i ∈ e ↔ .array j ∈ f := by
    rw [← array_mem_anonymous_iff he, ← array_mem_anonymous_iff hf, h]
  apply ext_mem
  intro v
  rw [mem_relocate]
  constructor
  · rintro (⟨rfl, hv⟩ | ⟨hv, ha⟩)
    · exact harray.1 hv
    · exact hsub rfl h.symm hv ha
  · intro hv
    cases ha : v.arrayOwner? with
    | none => exact .inr ⟨hsub h.symm rfl hv ha, rfl⟩
    | some k =>
      have hk := (hf v hv).2 k ha
      cases v with
      | array k' =>
        obtain rfl : k' = k := Option.some.inj ha
        exact .inl ⟨congrArg Value.array hk, harray.2 (hk ▸ hv)⟩
      | _ => cases ha

end Entry

namespace Draft
variable {d d' : Draft} {e old : Entry} {i : Index}

theorem fit_of_fits (h : e.Fits d.limit) : d.fit e = e := by
  have hnone : d.simplify? e = none := h
  unfold fit
  rw [hnone]
  rfl

theorem fits_fit (d : Draft) (e : Entry) : (d.fit e).Fits d.limit := by
  unfold fit
  cases hs : d.simplify? e with
  | none => exact hs
  | some f =>
    refine Entry.fits_iff.2 fun n hn => ?_
    have hsimple : e.simplify? n = some f := by
      unfold simplify? at hs
      rwa [hn] at hs
    -- nothing is left that could be simplified
    have hnone : f.simplifiableCount = 0 := by
      apply List.countP_eq_zero.2
      intro v hv
      rw [(Entry.foldsTo_of_simplify hsimple).isSimplifiable v (Entry.mem_toList.1 hv)]
      exact Bool.false_ne_true
    rw [Option.getD_some, hnone]
    exact Nat.zero_le n

theorem anonymous_fit (d : Draft) (e : Entry) : (d.fit e).anonymous = d.fit e.anonymous := by
  unfold fit simplify?
  cases d.limit with
  | none => rfl
  | some n =>
    rw [Option.bind_some, Option.bind_some, Entry.simplify?_anonymous]
    cases e.simplify? n <;> rfl

/-- What is placed at a location depends on its name only in the name of its array. -/
theorem anonymous_placed (old : Entry) (i : Index) (e : Entry) (hasArray strong : Bool) :
    (placed old i e hasArray strong).anonymous =
      placed old.anonymous .freshArray e.anonymous hasArray strong := by
  have hothers := Entry.anonymous_filter (p := fun v => v.arrayOwner?.isNone)
    Value.isNone_arrayOwner?_anonymous e
  have hvalues : (if hasArray then (e.filter fun v => v.arrayOwner?.isNone).insert (.array i)
      else e.filter fun v => v.arrayOwner?.isNone).anonymous =
      if hasArray then (e.anonymous.filter fun v => v.arrayOwner?.isNone).insert
        (.array .freshArray)
        else e.anonymous.filter fun v => v.arrayOwner?.isNone := by
    split
    · rw [Entry.anonymous_insert, hothers]
      rfl
    · exact hothers
  unfold placed
  dsimp only
  split
  · exact hvalues
  · rw [Entry.anonymous_join, hvalues]

end Draft

namespace Memory
variable {m n before : Memory} {i j x : Index} {l : Locations} {c : Bool} {limit : Option Nat}

/-- What certain aliases hold is the same up to names, and variables hold no more than the limit
allows. -/
structure Agreeing (limit : Option Nat) (m : Memory) : Prop where
  fits : ∀ i, i.IsVariable → (m.entryOrUndefined i).Fits limit
  agree : ∀ i j, m.MustEdge i j →
    (m.entryOrUndefined i).anonymous = (m.entryOrUndefined j).anonymous

theorem Neat.isVariable_of_mustEdge (h : m.Neat) (hij : m.MustEdge i j) :
    i.IsVariable ∧ j.IsVariable :=
  ⟨h.aliased i j _ hij, h.aliased_right hij⟩

/-- Variables that are the same as before, and linked no more than before, go on to agree. -/
theorem Agreeing.of_entries (h : m.Agreeing limit) (hn : n.Neat)
    (he : ∀ i, i.IsVariable → n.entryOrUndefined i = m.entryOrUndefined i)
    (ha : ∀ i, n.aliases i = m.aliases i) : n.Agreeing limit where
  fits := fun i hi => he i hi ▸ h.fits i hi
  agree := by
    intro i j hij
    obtain ⟨hi, hj⟩ := hn.isVariable_of_mustEdge hij
    rw [he i hi, he j hj]
    apply h.agree
    unfold MustEdge at hij ⊢
    rwa [← ha]

theorem Agreeing.renewed {d d' : Draft} {P : Index → Prop} (h : d.memory.Agreeing limit)
    (hr : d.Renewed P d') (hP : ∀ i, i.IsVariable → ¬P i) : d'.memory.Agreeing limit :=
  h.of_entries hr.neat (fun i hi => hr.entryOrUndefined_eq (hP i hi)) hr.aliases_eq

/-- Of two certain aliases a closed set of locations has both or none, in the same role. -/
theorem mem_visits_expand (hsym : m.AliasesSymmetric) (hij : m.MustEdge i j)
    (hi : (c, i) ∈ (m.expand .all l).visits) : (c, j) ∈ (m.expand .all l).visits := by
  have hji : m.MustEdge j i := (hsym j i).trans hij
  rw [Locations.mem_visits] at hi ⊢
  apply hi.imp
  · rintro ⟨hc, hi⟩
    obtain ⟨k, hk, hki⟩ := mem_must_expand.1 hi
    exact ⟨hc, mem_must_expand.2 ⟨k, hk, hki.tail hij⟩⟩
  · rintro ⟨hc, hi⟩
    obtain ⟨⟨k, hk, hki⟩, hnot⟩ := mem_may_expand.1 hi
    refine ⟨hc, mem_may_expand.2 ⟨⟨k, hk, hki.tail ⟨_, hij⟩⟩, fun hj => hnot ?_⟩⟩
    obtain ⟨k, hk, hkj⟩ := mem_must_expand.1 hj
    exact mem_must_expand.2 ⟨k, hk, hkj.tail hji⟩

end Memory

namespace Draft
variable {d d' : Draft} {l : Locations} {f : Draft → Bool × Index → Draft}
  {F : Bool → Entry → Entry} {limit : Option Nat} {arrays : List ArraySource} {e : Entry}
  {p : Path} {level : Nat} {s t : Index}

/-- A write does the same to all of some locations in one role: up to names, what it leaves depends
on what was there. -/
structure Uniform (d : Draft) (l : Locations) (f : Draft → Bool × Index → Draft)
    (F : Bool → Entry → Entry) : Prop where
  renewed : ∀ d' v, v ∈ l.visits → d.Renewed (0 ≤ ·.depth) d' → d'.memory.Hosts v.2 →
    d'.Renewed v.2.Contains (f d' v)
  agree : ∀ d' v, v ∈ l.visits → d.Renewed (0 ≤ ·.depth) d' → d'.memory.Hosts v.2 →
    (Memory.entryOrUndefined (f d' v).memory v.2).anonymous =
      F v.1 (d'.memory.entryOrUndefined v.2).anonymous
  fits : ∀ d' v, v ∈ l.visits → d.Renewed (0 ≤ ·.depth) d' → d'.memory.Hosts v.2 →
    (d'.memory.entryOrUndefined v.2).Fits d.limit →
      (Memory.entryOrUndefined (f d' v).memory v.2).Fits d.limit

/-- Writing in one way to a variable and its aliases keeps certain aliases in agreement. -/
theorem Uniform.agreeing (hf : d.Uniform (d.memory.expand .all l) f F) (h : d.memory.Neat)
    (hA : d.memory.Agreeing d.limit) (hl : l.Ready d.memory 0) :
    Memory.Agreeing d.limit ((d.memory.expand .all l).visits.foldl f d).memory := by
  have hready := h.ready_expand hl .all
  have hnodup := Locations.nodup_visits (d.memory.separate_expand .all l)
  have hswept := renewed_foldl hready.visits hf.renewed h
  -- a variable is written to as one of the locations, or it stays as it is
  have hwritten {v : Bool × Index} (hv : v ∈ (d.memory.expand .all l).visits) :
      (Memory.entryOrUndefined ((d.memory.expand .all l).visits.foldl f d).memory v.2).anonymous =
        F v.1 (d.memory.entryOrUndefined v.2).anonymous ∧
      ((d.memory.entryOrUndefined v.2).Fits d.limit →
        (Memory.entryOrUndefined ((d.memory.expand .all l).visits.foldl f d).memory v.2).Fits
          d.limit) := by
    obtain ⟨d', hd', hhosts, hold, hnew⟩ := foldl_at hready.visits hf.renewed h hnodup hv
    rw [Memory.entryOrUndefined_congr hnew, ← Memory.entryOrUndefined_congr hold]
    exact ⟨hf.agree d' v hv hd' hhosts, hf.fits d' v hv hd' hhosts⟩
  have hkept {i : Index} (hi : i.IsVariable)
    (hnot : ∀ c, (c, i) ∉ (d.memory.expand .all l).visits) :
      Memory.entryOrUndefined ((d.memory.expand .all l).visits.foldl f d).memory i =
        d.memory.entryOrUndefined i := by
    apply hswept.entryOrUndefined_eq
    rintro ⟨⟨c, j⟩, hv, hc⟩
    obtain rfl := hi.eq_of_contains hc
    exact hnot c hv
  constructor
  · intro i hi
    by_cases hv : ∃ c, (c, i) ∈ (d.memory.expand .all l).visits
    · obtain ⟨c, hv⟩ := hv
      exact (hwritten hv).2 (hA.fits i hi)
    · rw [hkept hi fun c hc => hv ⟨c, hc⟩]
      exact hA.fits i hi
  · intro i j hij
    obtain ⟨hi, hj⟩ := hswept.neat.isVariable_of_mustEdge hij
    have hold : d.memory.MustEdge i j := by
      unfold Memory.MustEdge at hij ⊢
      rwa [hswept.aliases_eq] at hij
    have hold' : d.memory.MustEdge j i := (h.symmetric j i).trans hold
    by_cases hv : ∃ c, (c, i) ∈ (d.memory.expand .all l).visits
    · obtain ⟨c, hv⟩ := hv
      rw [(hwritten hv).1, (hwritten (Memory.mem_visits_expand h.symmetric hold hv)).1]
      exact congrArg (F c) (hA.agree i j hold)
    · rw [hkept hi fun c hc => hv ⟨c, hc⟩,
        hkept hj fun c hc => hv ⟨c, Memory.mem_visits_expand h.symmetric hold' hc⟩]
      exact hA.agree i j hold

theorem uniform_store (he : Storable d.memory e arrays) (strong : Bool → Bool) :
    d.Uniform l (fun d v => d.store v.2 e arrays (strong v.1)) fun c old =>
      d.fit (placed old .freshArray e.anonymous (!arrays.isEmpty) (strong c)) where
  renewed := by
    intro d' v _ hd' hv
    have he' := he.mono hd'.objects
    exact renewed_store hd'.neat hv he'.isData he'.introduces he'.available _
  agree := by
    intro d' v _ hd' hv
    have he' := he.mono hd'.objects
    have hentry := entry?_store hd'.neat hv he'.isData he'.introduces he'.available (strong v.1)
    rw [Memory.entryOrUndefined_of_some hentry, anonymous_fit, anonymous_placed,
      fit_congr hd'.limit_eq]
  fits := by
    intro d' v _ hd' hv _
    have he' := he.mono hd'.objects
    have hentry := entry?_store hd'.neat hv he'.isData he'.introduces he'.available (strong v.1)
    rw [Memory.entryOrUndefined_of_some hentry, ← hd'.limit_eq]
    exact fits_fit d' _

/-- What a preparation makes of an entry, up to names. -/
def prepared (d : Draft) (s : Segment) (certain : Bool) (old : Entry) : Entry :=
  let add (v : Value) := d.fit (if certain then .ofValue v else old.insert v)
  if s.isField then if old.objects = [] then add (.object .unnamed) else old
  else if old.contains (.array .freshArray) then old else add (.array .freshArray)

theorem entryOrUndefined_add (d : Draft) (i : Index) (v : Value) (certain : Bool) :
    Memory.entryOrUndefined (d.add i v certain).memory i =
      d.fit (if certain then .ofValue v else (d.memory.entryOrUndefined i).insert v) :=
  Memory.entryOrUndefined_of_some (entry?_write_self d i _)

theorem anonymous_add (d : Draft) (old : Entry) (v : Value) (certain : Bool) :
    (d.fit (if certain then .ofValue v else old.insert v)).anonymous =
      d.fit (if certain then .ofValue v.anonymous else old.anonymous.insert v.anonymous) := by
  rw [anonymous_fit]
  split
  · rw [Entry.anonymous_ofValue]
  · rw [Entry.anonymous_insert]

/-- A preparation treats all variables alike. -/
theorem entryOrUndefined_prepare (h : d.memory.Neat) (hi : i.IsVariable) (s : Segment)
    (certain : Bool) :
    (Memory.entryOrUndefined (d.prepare s certain i).memory i).anonymous =
      d.prepared s certain (d.memory.entryOrUndefined i).anonymous ∧
    ((d.memory.entryOrUndefined i).Fits d.limit →
      (Memory.entryOrUndefined (d.prepare s certain i).memory i).Fits d.limit) := by
  have hobjects : d.memory.objectsAt i = [] ↔
      (d.memory.entryOrUndefined i).anonymous.objects = [] := by
    rw [Entry.objects_anonymous_eq_nil, Memory.objectsAt_eq_objects]
  have harray : d.memory.holdsArray i = true ↔
      (d.memory.entryOrUndefined i).anonymous.contains (.array .freshArray) = true := by
    rw [Entry.contains_eq_true, Entry.array_mem_anonymous_iff (h.held_entryOrUndefined i),
      ← Entry.contains_eq_true, Memory.holdsArray_eq_contains]
  unfold prepared
  dsimp only
  rcases d.prepare_cases s certain i with ⟨hopened, heq⟩ | ⟨hs, hnone, heq⟩ | ⟨hs, hnone, heq⟩ <;>
    rw [heq]
  · refine ⟨?_, id⟩
    unfold Memory.Opened at hopened
    cases hs : s.isField with
    | true =>
      rw [hs, if_pos rfl] at hopened
      rw [if_pos rfl, if_neg (mt hobjects.2 hopened)]
    | false =>
      rw [hs, if_neg Bool.false_ne_true] at hopened
      rw [if_neg Bool.false_ne_true, if_pos (harray.1 hopened)]
  · let declared := d.update (·.declareObject (.madeAt i))
    have hold : declared.memory.entryOrUndefined i = d.memory.entryOrUndefined i :=
      Memory.entryOrUndefined_congr (Memory.entry?_declareObject ..)
    have hmade : (Value.object (.madeAt i)).anonymous = .object .unnamed := by
      obtain ⟨name, table, rfl⟩ := hi
      rw [Value.anonymous_object]
      exact congrArg Value.object (if_pos (ObjectValue.isMade_madeAt name table))
    have hnew := entryOrUndefined_add declared i (.object (.madeAt i)) certain
    rw [if_pos hs, if_pos (hobjects.1 hnone), hnew]
    refine ⟨?_, fun _ => fits_fit declared _⟩
    rw [anonymous_add, hold, hmade]
    rfl
  · have hnew := entryOrUndefined_add d i (.array i) certain
    rw [if_neg (Bool.eq_false_iff.1 hs), if_neg (mt harray.2 hnone), hnew]
    refine ⟨?_, fun _ => fits_fit d _⟩
    rw [anonymous_add]
    rfl

theorem uniform_prepare (hl : ∀ v ∈ l.visits, v.2.IsVariable) (s : Segment) :
    d.Uniform l (fun d v => d.prepare s v.1 v.2) (d.prepared s) where
  renewed := fun _ v _ hd' hv => renewed_prepare hd'.neat hv s v.1
  agree := by
    intro d' v hv hd' _
    have hprepared := (entryOrUndefined_prepare hd'.neat (hl v hv) s v.1).1
    unfold prepared at hprepared ⊢
    simp only [fit_congr hd'.limit_eq] at hprepared
    exact hprepared
  fits := by
    intro d' v hv hd' _ hfits
    rw [← hd'.limit_eq] at hfits ⊢
    exact (entryOrUndefined_prepare hd'.neat (hl v hv) s v.1).2 hfits

/-- The aliases of a variable are variables. -/
theorem isVariable_of_mem_visits (h : d.memory.Neat) (p : Path) (level : Nat) :
    ∀ v ∈ (d.memory.expand .all (.ofVariable p level)).visits, v.2.IsVariable := by
  have hall : (d.memory.expand .all (.ofVariable p level)).All Index.IsVariable := by
    apply Memory.all_expand
    · exact fun i j _ _ hs => h.aliased_right hs
    · exact Locations.all_ofVariable (fun name table => ⟨name, table, rfl⟩) p level
  intro v hv
  rcases Locations.mem_visits.1 hv with ⟨-, hv⟩ | ⟨-, hv⟩
  · exact hall v.2 (.inl hv)
  · exact hall v.2 (.inr hv)

theorem resolve_of_isVariable (d : Draft) (hp : p.isVariable = true) (level : Nat) :
    d.resolve p level = (d, d.memory.expand .all (.ofVariable p level)) := by
  unfold resolve
  rw [follow_of_isVariable d hp]

/-- A write to a path goes to a variable and its aliases, or it goes below the variables, after it
has made the containers on the way. -/
theorem agreeing_storeAll (h : d.memory.Neat) (hA : d.memory.Agreeing d.limit)
    (he : Storable (d.resolve p level).1.memory e arrays) (force : Bool) :
    Memory.Agreeing d.limit
      ((d.resolve p level).1.storeAll (d.resolve p level).2 e arrays force).memory := by
  have hready := Locations.ready_ofVariable d.memory p level
  cases hp : p.isVariable with
  | true =>
    rw [resolve_of_isVariable d hp] at he ⊢
    rw [storeAll_eq]
    exact (uniform_store he fun c => c && (force || _)).agreeing h hA hready
  | false =>
    obtain ⟨s, rest, hsegments⟩ : ∃ s rest, p.segments = s :: rest := by
      cases hsegments : p.segments with
      | nil =>
        rw [Path.isVariable, hsegments] at hp
        cases hp
      | cons s rest => exact ⟨s, rest, rfl⟩
    -- the containers at the variables are made first
    let first := advance s (d, .ofVariable p level)
    obtain ⟨hprepared, hbelow⟩ := ready_advance h hready s
    have hfirst : first.1.memory.Agreeing d.limit := by
      have hsweep : first.1 = d.prepareAll s (d.memory.expand .all (.ofVariable p level)) :=
        congrArg Prod.fst (advance_eq d s (.ofVariable p level))
      rw [hsweep]
      exact (uniform_prepare (isVariable_of_mem_visits h p level) s).agreeing h hA hready
    -- and then nothing at the variables changes
    have hdepth : 1 ≤ if s.isField then 1 else 0 + 1 := by
      split <;> exact Nat.le_refl 1
    obtain ⟨hrest, k, hk, hlast⟩ :=
      ready_foldl_advance (Nat.le_refl 1) hprepared.neat hbelow hdepth rest
    have hfollow : d.follow p level = rest.foldl (fun dl s => advance s dl) first := by
      unfold follow
      rw [hsegments, List.foldl_cons]
    have hresolve : d.resolve p level = ((d.follow p level).1,
        (d.follow p level).1.memory.expand .all (d.follow p level).2) := rfl
    rw [hresolve, hfollow] at he ⊢
    have hclosed := hrest.neat.ready_expand hlast .all
    have hstored := renewed_storeAll hrest.neat hclosed he force
    have hwithin := hrest.trans (hstored.mono (by
      rintro j ⟨v, hv, hj⟩
      exact Nat.le_trans hk ((hclosed.visits v hv).2 ▸ hj.depth_le)))
    apply hfirst.renewed hwithin
    intro i hi hle
    rw [hi.depth_eq] at hle
    cases hle

/-- The source of a reference that comes into being has no aliases yet. -/
theorem agreeing_referring (h : d.memory.Neat) (hA : d.memory.Agreeing d.limit)
    (hs : s.IsVariable) : (d.referring s).memory.Agreeing d.limit := by
  have hrenewed := renewed_referring h hs
  cases hd : d.memory.isDefined s with
  | true =>
    unfold referring
    rw [if_pos hd]
    exact hA
  | false =>
    have hnull := storable_ofValue (m := d.memory) (v := .scalar .null) rfl fun _ ho => nomatch ho
    have hentry := entry?_store h (Memory.hosts_of_isVariable hs) hnull.isData hnull.introduces
      hnull.available true
    have heq : d.referring s = d.store s (.ofValue (.scalar .null)) [] true := by
      unfold referring
      rw [hd]
      rfl
    have hkept {i : Index} (hi : i.IsVariable) (hne : i ≠ s) :
        (d.referring s).memory.entryOrUndefined i = d.memory.entryOrUndefined i :=
      hrenewed.entryOrUndefined_eq fun hc => hne (hi.eq_of_contains hc).symm
    have hunlinked {i j : Index} (hij : (d.referring s).memory.MustEdge i j) :
        d.memory.MustEdge i j ∧ i ≠ s ∧ j ≠ s := by
      have hold : d.memory.MustEdge i j := by
        unfold Memory.MustEdge at hij ⊢
        rwa [hrenewed.aliases_eq] at hij
      refine ⟨hold, ?_, ?_⟩
      · rintro rfl
        rw [Memory.isDefined_of_strength? hold] at hd
        cases hd
      · rintro rfl
        rw [Memory.isDefined_of_strength? ((h.symmetric j i).trans hold)] at hd
        cases hd
    constructor
    · intro i hi
      by_cases hne : i = s
      · subst hne
        rw [heq, Memory.entryOrUndefined_of_some hentry]
        exact fits_fit d _
      · rw [hkept hi hne]
        exact hA.fits i hi
    · intro i j hij
      obtain ⟨hij', hi, hj⟩ := hunlinked hij
      obtain ⟨hiv, hjv⟩ := h.isVariable_of_mustEdge hij'
      rw [hkept hiv hi, hkept hjv hj]
      exact hA.agree i j hij'

/-- What is placed at the target of a reference is what the source holds. -/
theorem placed_anonymous (m : Memory) (old e : Entry) :
    placed old .freshArray e.anonymous (!(ArraySource.ofEntry m e).isEmpty) true = e.anonymous := by
  have harrays :
      (!(ArraySource.ofEntry m e).isEmpty) = e.anonymous.contains (.array .freshArray) := by
    unfold ArraySource.ofEntry
    rw [List.isEmpty_map, Bool.eq_iff_iff, Entry.contains_eq_true, Entry.array_mem_anonymous,
      Bool.not_eq_true', ← Bool.not_eq_true, List.isEmpty_iff]
    constructor
    · intro hne
      obtain ⟨i, hi⟩ := List.exists_mem_of_ne_nil _ hne
      exact ⟨i, Entry.mem_arrays.1 hi⟩
    · rintro ⟨i, hi⟩
      exact List.ne_nil_of_mem (Entry.mem_arrays.2 hi)
  rw [Entry.placed_eq_relocate _ _ _ harrays]
  apply Entry.ext_mem
  intro v
  rw [Entry.mem_relocate]
  constructor
  · rintro (⟨rfl, hv⟩ | ⟨hv, -⟩)
    · exact hv
    · exact hv
  · intro hv
    by_cases ha : v.arrayOwner? = none
    · exact .inr ⟨hv, ha⟩
    · have hfresh := Entry.eq_freshArray_of_mem_anonymous hv ha
      exact .inl ⟨hfresh, hfresh ▸ hv⟩

/-- After a binding the target holds what the source does, and it has lost the certain aliases that
do not. -/
theorem Bound.agreeing (hb : d.Bound t s d') (h : d.memory.Neat) (hA : d.memory.Agreeing d.limit)
    (ht : t.IsVariable) (hs : s.IsVariable) : d'.memory.Agreeing d.limit := by
  obtain ⟨e, he, htarget⟩ := hb.target
  have hsource : d.memory.entryOrUndefined s = e := Memory.entryOrUndefined_of_some he
  have hfits : e.anonymous.Fits d.limit := by
    rw [Entry.fits_anonymous, ← hsource]
    exact hA.fits s hs
  have hkept {i : Index} (hi : i.IsVariable) (hne : i ≠ t) :
      d'.memory.entryOrUndefined i = d.memory.entryOrUndefined i :=
    Memory.entryOrUndefined_congr (hb.entry?_eq i fun hc => hne (hi.eq_of_contains hc).symm)
  have hnew : (d'.memory.entryOrUndefined t).anonymous =
    (d.memory.entryOrUndefined s).anonymous := by
    rw [Memory.entryOrUndefined_of_some htarget, anonymous_fit, anonymous_placed, placed_anonymous,
      fit_of_fits hfits, hsource]
  constructor
  · intro i hi
    by_cases hne : i = t
    · rw [hne, Memory.entryOrUndefined_of_some htarget]
      exact fits_fit d _
    · rw [hkept hi hne]
      exact hA.fits i hi
  · -- up to names the target is the source, so it is enough to look at edges from before
    have hsame {i : Index} (hi : i.IsVariable)
        (h : i ≠ t ∨ (d.memory.entryOrUndefined t).anonymous =
        (d.memory.entryOrUndefined s).anonymous) :
        (d'.memory.entryOrUndefined i).anonymous = (d.memory.entryOrUndefined i).anonymous := by
      by_cases hne : i = t
      · rw [hne, hnew, h.resolve_left fun h => h hne]
      · rw [hkept hi hne]
    intro i j hij
    obtain ⟨hi, hj⟩ := hb.complete.isVariable_of_mustEdge hij
    have hsourceSame : (d'.memory.entryOrUndefined s).anonymous =
        (d.memory.entryOrUndefined s).anonymous := by
      by_cases hts : s = t
      · rw [hts] at hnew ⊢
        exact hnew
      · rw [hkept hs hts]
    rcases hb.relinked.of_mustEdge hij with ⟨rfl, rfl⟩ | ⟨rfl, rfl⟩ | ⟨hold, hcase⟩
    · rw [hnew, hsourceSame]
    · rw [hnew, hsourceSame]
    · have htied : (i ≠ t ∧ j ≠ t) ∨ (d.memory.entryOrUndefined t).anonymous =
          (d.memory.entryOrUndefined s).anonymous := by
        rcases hcase with hout | rfl | hstrength
        · exact .inl hout
        · exact .inr rfl
        · rcases Memory.bindingStrength_eq_must hstrength with hts | hnone
          · exact .inr (hA.agree t s hts)
          · refine .inl ⟨?_, ?_⟩
            · rintro rfl
              exact hnone j ⟨_, hold⟩
            · rintro rfl
              exact hnone i (h.symmetric.edge ⟨_, hold⟩)
      rw [hsame hi (htied.imp_left And.left), hsame hj (htied.imp_left And.right)]
      exact hA.agree i j hold

end Draft

namespace Memory
variable {m n before : Memory} {i j : Index} {gone : Index → Bool} {limit : Option Nat}
  {sources : List Memory} {k : Nat}

theorem agreeing_initial (limit : Option Nat) : initial.Agreeing limit where
  fits := by
    intro i hi
    have hnone : initial.entry? i = none := by
      rw [entry?_initial, if_neg hi.ne_diagnostics]
    rw [entryOrUndefined_of_none hnone]
    exact Entry.fits_undefined
  agree := by
    intro i j hij
    unfold MustEdge at hij
    rw [aliases_initial] at hij
    cases hij

theorem Agreeing.discard (h : m.Agreeing limit) (gone : Index → Bool) :
    (m.discard gone).Agreeing limit where
  fits := by
    intro i hi
    rw [entryOrUndefined_discard]
    split
    · exact Entry.fits_undefined
    · exact h.fits i hi
  agree := by
    intro i j hij
    obtain ⟨hi, hj, hij⟩ := mustEdge_discard.1 hij
    rw [entryOrUndefined_discard, entryOrUndefined_discard, hi, hj]
    exact h.agree i j hij

theorem Agreeing.withLevel (h : m.Agreeing limit) (level : Nat) :
    ({ m with level } : Memory).Agreeing limit :=
  ⟨h.fits, h.agree⟩

/-- What is at a location of a join, if it is a location of some source. -/
theorem entryOrUndefined_simplified_join (hm : m ∈ sources) (hi : m.isDefined i = true) :
    ((join sources k).simplified limit).entryOrUndefined i = Draft.fit { memory := m, limit }
      ((sources.map (·.entryOrUndefined i)).foldl Entry.join ∅) := by
  apply entryOrUndefined_of_some
  unfold simplified
  rw [entry?_mapEntries, entry?_join, if_pos ⟨m, hm, hi⟩]
  rfl

/-- Joined entries are approximated as one, so that what agrees in all sources agrees in
the join. -/
theorem agreeing_takenOver (hne : sources ≠ [])
    (h : ∀ m ∈ sources, m.Complete ∧ m.Agreeing limit) :
    (takenOver limit sources).Agreeing limit := by
  have hmust {i j : Index} : (takenOver limit sources).MustEdge i j ↔
    ∀ m ∈ sources, m.MustEdge i j :=
    mustEdge_takenOver hne
  unfold takenOver at hmust ⊢
  split at *
  · exact (h _ List.mem_cons_self).2
  · constructor
    · intro i hi
      by_cases hdefined : ∃ m ∈ sources, m.isDefined i = true
      · obtain ⟨m, hm, hd⟩ := hdefined
        rw [entryOrUndefined_simplified_join hm hd]
        exact Draft.fits_fit { memory := m, limit } _
      · have hnone : Memory.entry? ((join sources ((sources.head?.map (·.level)).getD 0)).simplified
            limit) i = none := by
          unfold simplified
          rw [entry?_mapEntries, entry?_join, if_neg hdefined]
          rfl
        rw [entryOrUndefined_of_none hnone]
        exact Entry.fits_undefined
    · intro i j hij
      have hall := hmust.1 hij
      obtain ⟨m, hm⟩ := List.exists_mem_of_ne_nil sources hne
      have hji : m.MustEdge j i := ((h m hm).1.symmetric j i).trans (hall m hm)
      have hvalues : (sources.map (·.entryOrUndefined i)).map Entry.anonymous =
          (sources.map (·.entryOrUndefined j)).map Entry.anonymous := by
        rw [List.map_map, List.map_map]
        exact List.map_congr_left fun m hm => (h m hm).2.agree i j (hall m hm)
      rw [entryOrUndefined_simplified_join hm (isDefined_of_strength? (hall m hm)),
        entryOrUndefined_simplified_join hm (isDefined_of_strength? hji), Draft.anonymous_fit,
        Draft.anonymous_fit, Entry.anonymous_foldl_join, Entry.anonymous_foldl_join, hvalues]

theorem entryOrUndefined_widen {e : Entry} (he : m.entry? i = some e) :
    (m.widen before).entryOrUndefined i = before.widenEntry i e := by
  apply entryOrUndefined_of_some
  unfold Memory.widen
  rw [entry?_mapEntries, he]
  rfl

theorem anonymous_widenEntry (before : Memory) (i : Index) (e : Entry) :
    (before.widenEntry i e).anonymous =
      (((before.entry? i).map Entry.anonymous).map e.anonymous.widen).getD e.anonymous := by
  unfold widenEntry
  cases before.entry? i with
  | none => rfl
  | some old =>
    change Entry.anonymous (if old = e then e else e.widen old) = e.anonymous.widen old.anonymous
    rw [← Entry.anonymous_widen]
    split
    · next heq => rw [heq, Entry.widen_self]
    · rfl

/-- Widening does the same to what agrees, if it agreed in the memory before. -/
theorem Agreeing.widen (h : m.Agreeing limit) (hm : m.Complete)
    (hbefore : ∀ i j, m.MustEdge i j →
      (before.entry? i).map Entry.anonymous = (before.entry? j).map Entry.anonymous) :
    (m.widen before).Agreeing limit where
  fits := by
    intro i hi
    have hfits := h.fits i hi
    cases he : m.entry? i with
    | none =>
      have hnone : Memory.entry? (m.widen before) i = none := by
        unfold Memory.widen
        rw [entry?_mapEntries, he]
        rfl
      rw [entryOrUndefined_of_none hnone]
      exact Entry.fits_undefined
    | some e =>
      rw [entryOrUndefined_of_some he] at hfits
      rw [entryOrUndefined_widen he]
      rcases widenEntry_cases before i e with heq | ⟨old, heq⟩
      · rwa [heq]
      · rw [heq]
        exact hfits.widen old
  agree := by
    intro i j hij
    have hold : m.MustEdge i j := by
      unfold MustEdge Memory.widen at hij
      rwa [aliases_mapEntries] at hij
    have hdefined : m.isDefined j = true :=
      isDefined_of_strength? ((hm.symmetric j i).trans hold)
    obtain ⟨e, he⟩ := Option.isSome_iff_exists.1 (hm.hasEntries i (isDefined_of_strength? hold))
    obtain ⟨f, hf⟩ := Option.isSome_iff_exists.1 (hm.hasEntries j hdefined)
    have hagree := h.agree i j hold
    rw [entryOrUndefined_of_some he, entryOrUndefined_of_some hf] at hagree
    rw [entryOrUndefined_widen he, entryOrUndefined_widen hf, anonymous_widenEntry,
      anonymous_widenEntry, hbefore i j hold, hagree]

/-- Every statement that makes references between variables only keeps certain aliases in
agreement. -/
theorem steady_agreeing (limits : Limits) : Steady limits
    (fun target source => target.isVariable = true ∧ source.isVariable = true) (fun _ => True)
    (Agreeing limits.simplify) where
  renewed := fun _ h hr hP => h.renewed hr hP
  store := by
    intro d p level e arrays force hm hd h he
    rw [← hd] at h ⊢
    exact Draft.agreeing_storeAll hm.toNeat h he force
  refers := id
  bound := by
    intro d d' target source targetLevel sourceLevel _ hm hd h hb
    have hsource := Index.isVariable_indexAt source sourceLevel
    have hreferring := Draft.renewed_referring hm.toNeat hsource
    have hlimit : (d.referring (source.indexAt sourceLevel)).limit = limits.simplify :=
      hreferring.limit_eq.trans hd
    rw [← hlimit]
    apply hb.agreeing hreferring.neat _ (Index.isVariable_indexAt target targetLevel) hsource
    rw [hreferring.limit_eq]
    exact Draft.agreeing_referring hm.toNeat (hd ▸ h) hsource
  unset := fun _ _ _ h => h.discard _

end Memory
end ScriptMemory
