import Mathlib.Algebra.Order.BigOperators.Group.List
import Mathlib.Data.Set.Card
import Mathlib.Data.Set.Finite.Lattice
import ScriptMemory.Proofs.ConservativeWidening
import ScriptMemory.Proofs.Lattice

/-! Growing entries come to rest. Values of one kind climb a few steps only: whatever they were, a
change leaves one interval of them or their kind, each further change takes an end off the interval,
and after the kind there is nothing but the value for everything. So an entry that is joined with
something new and widened against what it was changes a limited number of times. -/
namespace ScriptMemory
open Std

namespace Range
variable {α : Type} [DecidableEq α]

/-- How many ends of the range are infinite. -/
def openEnds (r : Range α) : ℕ :=
  (if r.start = .negInf then 1 else 0) + if r.stop = .posInf then 1 else 0

theorem openEnds_le (r : Range α) : r.openEnds ≤ 2 := by
  unfold openEnds
  split <;> split <;> omega

variable [Ord α] [TransOrd α] [LawfulEqOrd α] {r previous : Range α}

omit [DecidableEq α] [TransOrd α] [LawfulEqOrd α] in
theorem isOpen_start_widen (h : previous.start = .negInf) : (r.widen previous).start = .negInf := by
  unfold widen
  dsimp only
  split
  · rfl
  · rw [h]
    exact Bound.least_of_isLE (Bound.negInf_isLE _)

omit [DecidableEq α] in
theorem isOpen_stop_widen (h : previous.stop = .posInf) : (r.widen previous).stop = .posInf := by
  unfold widen
  dsimp only
  split
  · rfl
  · rw [h]
    exact Bound.greatest_of_isGE (Bound.isLE_posInf _)

/-- A range that has outgrown the earlier one on some side is open there when it is widened. -/
theorem openEnds_lt_widen (hc : r.contains previous = true) (hne : r ≠ previous) :
    previous.openEnds < (r.widen previous).openEnds := by
  obtain ⟨hstart, hstop⟩ := contains_iff.1 hc
  have hmoved : compare r.start previous.start = .lt ∨ compare r.stop previous.stop = .gt := by
    by_contra hnot
    obtain ⟨hs, ht⟩ := not_or.1 hnot
    apply hne
    have hstart' : r.start = previous.start := by
      cases hcmp : compare r.start previous.start with
      | lt => exact absurd hcmp hs
      | eq => exact LawfulEqOrd.eq_of_compare hcmp
      | gt => simp [hcmp] at hstart
    have hstop' : r.stop = previous.stop := by
      refine Bound.eq_of_isLE_of_isLE ?_ hstop
      cases hcmp : compare r.stop previous.stop with
      | gt => exact absurd hcmp ht
      | _ => rfl
    cases r; cases previous
    dsimp only at hstart' hstop'
    rw [hstart', hstop']
  -- the side that moved was not open before
  have hclosed : (compare r.start previous.start = .lt → previous.start ≠ .negInf) ∧
      (compare r.stop previous.stop = .gt → previous.stop ≠ .posInf) := by
    constructor
    · intro hlt hopen
      rw [hopen, OrientedOrd.eq_swap] at hlt
      have hle := Bound.negInf_isLE r.start
      cases hcmp : compare .negInf r.start <;> simp [hcmp] at hlt hle
    · intro hgt hopen
      rw [hopen] at hgt
      have hle := Bound.isLE_posInf r.stop
      simp [hgt] at hle
  have hstartOpen : compare r.start previous.start = .lt → (r.widen previous).start = .negInf :=
    fun hlt => if_pos hlt
  have hstopOpen : compare r.stop previous.stop = .gt → (r.widen previous).stop = .posInf :=
    fun hgt => if_pos hgt
  have hkeptStart (h : previous.start = .negInf) : (r.widen previous).start = .negInf :=
    isOpen_start_widen h
  have hkeptStop (h : previous.stop = .posInf) : (r.widen previous).stop = .posInf :=
    isOpen_stop_widen h
  unfold openEnds
  rcases hmoved with hlt | hgt
  · rw [if_neg (hclosed.1 hlt), if_pos (hstartOpen hlt)]
    split
    · next h => rw [if_pos (hkeptStop h)]; omega
    · omega
  · rw [if_neg (hclosed.2 hgt), if_pos (hstopOpen hgt)]
    split
    · next h => rw [if_pos (hkeptStart h)]; omega
    · omega

end Range

namespace Interval
variable {i j : Interval}

/-- How many ends of the interval are infinite. -/
def openEnds : Interval → ℕ
  | integer r => r.openEnds
  | float r => r.openEnds

theorem openEnds_le (i : Interval) : i.openEnds ≤ 2 := by
  cases i <;> exact Range.openEnds_le _

theorem openEnds_lt_widen (hc : i.contains j = true) (hne : i ≠ j) :
    j.openEnds < (i.widen j).openEnds := by
  cases i <;> cases j <;> simp only [contains, Bool.false_eq_true] at hc
  · exact Range.openEnds_lt_widen hc fun h => hne (congrArg integer h)
  · exact Range.openEnds_lt_widen hc fun h => hne (congrArg float h)

end Interval

/-- How many steps values of a kind can climb. Only numbers have intervals on the way. -/
def Kind.steps : Kind → ℕ
  | integer | float => 4
  | _ => 1

namespace Value

/-- Nothing, anything, a kind, a scalar or an interval: what makes up an entry without arrays,
objects, resources, references and findings. -/
def IsBasic : Value → Prop
  | undefined | any | anyOf _ | scalar _ | interval _ => True
  | _ => False

instance : DecidablePred IsBasic := fun v => by
  cases v <;> unfold IsBasic <;> infer_instance

end Value

namespace Entry
variable {e f : Entry} {v : Value} {k : Kind} {i : Interval}

/-- How far the values of a kind have climbed: past single values, to an interval, past its ends, to
the kind. -/
def height (e : Entry) (k : Kind) : ℕ :=
  if e.Covers (.anyOf k) then k.steps
  else match e.group k with
    | [.interval i] => i.openEnds + 1
    | _ => 0

theorem height_of_covers (h : e.Covers (.anyOf k)) : e.height k = k.steps :=
  if_pos h

theorem height_of_interval (h : ¬e.Covers (.anyOf k)) (hg : e.group k = [.interval i]) :
    e.height k = i.openEnds + 1 := by
  unfold height
  rw [if_neg h, hg]

theorem kind_of_group_eq (hg : e.group k = [.interval i]) : i.kind = k := by
  have hmem : .interval i ∈ e.group k := hg ▸ List.mem_cons_self
  exact Option.some.inj (mem_group.1 hmem).2.2

theorem height_cases (h : ¬e.Covers (.anyOf k)) :
    (∃ i, e.group k = [.interval i] ∧ e.height k = i.openEnds + 1) ∨
      (∀ i, e.group k ≠ [.interval i]) ∧ e.height k = 0 := by
  by_cases hi : ∃ i, e.group k = [.interval i]
  · obtain ⟨i, hi⟩ := hi
    exact .inl ⟨i, hi, height_of_interval h hi⟩
  · refine .inr ⟨fun i hg => hi ⟨i, hg⟩, ?_⟩
    unfold height
    rw [if_neg h]
    split
    · next i hg => exact absurd ⟨i, hg⟩ hi
    · rfl

/-- The kind itself is the last step. -/
theorem height_lt_steps (h : ¬e.Covers (.anyOf k)) : e.height k < k.steps := by
  rcases height_cases h with ⟨i, hg, heq⟩ | ⟨-, heq⟩
  · have hle := i.openEnds_le
    have hk := kind_of_group_eq hg
    rw [heq]
    cases i <;> subst hk <;> simp only [Interval.kind, Kind.steps] <;> omega
  · rw [heq]
    cases k <;> decide

theorem height_le_steps (e : Entry) (k : Kind) : e.height k ≤ k.steps := by
  by_cases h : e.Covers (.anyOf k)
  · exact Nat.le_of_eq (height_of_covers h)
  · exact Nat.le_of_lt (height_lt_steps h)

/-- What covers a kind has no scalar or interval of it. -/
theorem group_eq_nil_of_covers (h : e.Covers (.anyOf k)) : e.group k = [] := by
  apply List.eq_nil_iff_forall_not_mem.2
  intro v hv
  obtain ⟨he, hs, hk⟩ := mem_group.1 hv
  obtain ⟨w, hw, hwithin⟩ := h
  apply absurd_of_mem hw he
  have ha := Value.anyOf_absorbs hs hk
  rcases hwithin with rfl | hwithin
  · exact ha
  · exact Value.absorbs_trans hwithin ha

theorem isScalar_of_mem_group (hv : v ∈ e.group k) : k.isScalar = true := by
  obtain ⟨-, hs, hk⟩ := mem_group.1 hv
  cases v with
  | scalar s => cases hk; cases s <;> rfl
  | interval i => cases hk; cases i <;> rfl
  | _ => cases hs

/-- The entry with something new, widened against what it was. -/
def grown (e f : Entry) : Entry :=
  (e.join f).widen e

theorem le_grown (e f : Entry) : e ≤ e.grown f :=
  (le_sup_left : e ≤ e ⊔ f).trans (isSubsumedBy_widen (e.join f) e)

/-- The values of a kind stay covered by values of the kind, unless the kind itself is covered. -/
theorem exists_within_group (hle : e ≤ f) (hk : ¬f.Covers (.anyOf k)) (hv : v ∈ e.group k) :
    ∃ w ∈ f.group k, v.Within w := by
  obtain ⟨he, hs, hkind⟩ := mem_group.1 hv
  obtain ⟨w, hw, rfl | ha⟩ := isSubsumedBy_iff.1 hle v he
  · exact ⟨v, mem_group.2 ⟨hw, hs, hkind⟩, .refl v⟩
  · have hany : w ≠ .any := by
      rintro rfl
      exact hk ⟨.any, hw, .inr (isScalar_of_mem_group hv)⟩
    have hkind' : w.kind? = some k := (Value.kind_eq_of_absorbs hany ha).symm.trans hkind
    cases hs' : w.isSimplifiable with
    | true => exact ⟨w, mem_group.2 ⟨hw, hs', hkind'⟩, .inr ha⟩
    | false =>
      have heq := Value.eq_anyOf_of_absorbs hs' hkind' ha
      exact absurd (covers_of_mem (heq ▸ hw)) hk

/-- A group that is left empty was empty, unless its kind has taken its place. -/
theorem group_eq_nil_of_le (hle : e ≤ f) (hk : ¬f.Covers (.anyOf k)) (hf : f.group k = []) :
    e.group k = [] := by
  apply List.eq_nil_iff_forall_not_mem.2
  intro v hv
  obtain ⟨w, hw, -⟩ := exists_within_group hle hk hv
  rw [hf] at hw
  cases hw

/-- The hull of a group that has outgrown a single interval is larger than the interval. -/
theorem hull_of_outgrown {hull : Interval} (hle : e ≤ f) (hk : ¬f.Covers (.anyOf k))
    (hg : e.group k = [.interval i]) (hne : f.group k ≠ e.group k)
    (hh : hull? (f.group k) = some hull) : hull.contains i = true ∧ hull ≠ i := by
  have hi : .interval i ∈ e.group k := hg ▸ List.mem_cons_self
  obtain ⟨w, hw, hwithin⟩ := exists_within_group hle hk hi
  obtain ⟨j, hj, hcover⟩ := hull?_contains hh hw
  -- only an interval has room for an interval
  have hwj : w = .interval j := by
    cases w with
    | interval j' => exact congrArg Value.interval (Option.some.inj hj)
    | scalar s => rcases hwithin with heq | ha <;> contradiction
    | _ => cases hj
  subst hwj
  have hji : j.contains i = true := by
    rcases hwithin with heq | ha
    · cases heq
      exact Interval.contains_refl i
    · exact (Bool.and_eq_true_iff.1 ha).2
  refine ⟨Interval.contains_trans hcover hji, ?_⟩
  rintro rfl
  -- otherwise the interval would be there still, and absorb the rest of the group
  obtain rfl := Interval.eq_of_contains_of_contains hji hcover
  apply hne
  rw [hg, group_eq_toList]
  apply toList_eq_singleton
  intro v
  rw [← mem_toList, ← group_eq_toList]
  constructor
  · intro hv
    obtain ⟨j', hj', hcover'⟩ := hull?_contains hh hv
    refine (Value.within_interval hj' hcover').resolve_right ?_
    rw [absorbs_eq_false_of_mem (mem_group.1 hw).1 (mem_group.1 hv).1]
    exact Bool.false_ne_true
  · rintro rfl
    exact hw

/-- A step either takes the values of a kind further up, or leaves them as they are. -/
theorem height_lt_or_group_eq (e f : Entry) (k : Kind) :
    e.height k < (e.grown f).height k ∨
      ((e.grown f).Covers (.anyOf k) ↔ e.Covers (.anyOf k)) ∧
        (e.grown f).group k = e.group k := by
  have hle := le_grown e f
  by_cases hk' : (e.grown f).Covers (.anyOf k)
  · by_cases hk : e.Covers (.anyOf k)
    · exact .inr ⟨iff_of_true hk' hk,
        (group_eq_nil_of_covers hk').trans (group_eq_nil_of_covers hk).symm⟩
    · exact .inl (height_of_covers hk' ▸ height_lt_steps hk)
  have hk : ¬e.Covers (.anyOf k) := fun h => hk' (le_iff.1 hle _ h)
  have hjoin : ¬(e.join f).Covers (.anyOf k) :=
    fun h => hk' (h.of_isSubsumedBy (isSubsumedBy_widen (e.join f) e))
  have hlej : e ≤ e.join f := (le_sup_left : e ≤ e ⊔ f)
  have hgroup : (e.grown f).group k =
      (widenGroup k ((e.join f).group k) (e.group k)).filter Value.isSimplifiable :=
    group_widen (e.join f) e k
  rcases widenGroup_group (e.join f) e k with
    ⟨heq, hstays⟩ | ⟨-, -, -, hne, hull, hh, -, heq⟩ | ⟨-, heq⟩
  · -- nothing is there to be widened, or nothing has changed
    refine .inr ⟨iff_of_false hk' hk, ?_⟩
    have hsame : (e.join f).group k = e.group k :=
      hstays.elim (fun hnil => hnil.trans (group_eq_nil_of_le hlej hjoin hnil).symm) id
    rw [hgroup, heq, hsame]
    exact List.filter_eq_self.2 fun v hv => (mem_group.1 hv).2.1
  · left
    have hsingle : (e.grown f).group k =
        [.interval (((hull? (e.group k)).map hull.widen).getD hull)] := by
      rw [hgroup, heq]
      rfl
    rw [height_of_interval hk' hsingle]
    rcases height_cases hk with ⟨i, hg, hheight⟩ | ⟨-, hheight⟩
    · obtain ⟨hcover, hlarger⟩ := hull_of_outgrown hlej hjoin hg hne hh
      have hold : hull? (e.group k) = some i := by rw [hg]; rfl
      rw [hheight, hold]
      exact Nat.succ_lt_succ (Interval.openEnds_lt_widen hcover hlarger)
    · rw [hheight]
      exact Nat.succ_pos _
  · have hmem : .anyOf k ∈ e.grown f :=
      mem_widen.2 (.inl (mem_widenedGroups.2 ⟨k, heq ▸ List.mem_cons_self⟩))
    exact absurd (covers_of_mem hmem) hk'

/-- How far an entry has climbed altogether. -/
def rank (e : Entry) : ℕ :=
  (if e.Covers .undefined then 1 else 0) + (if e.Covers .any then 1 else 0) +
    (Kind.all.map e.height).sum

theorem rank_le (e : Entry) : e.rank ≤ 16 := by
  have hsum : (Kind.all.map e.height).sum ≤ (Kind.all.map Kind.steps).sum :=
    List.sum_le_sum fun k _ => height_le_steps e k
  have htotal : (Kind.all.map Kind.steps).sum = 14 := by decide
  unfold rank
  split <;> split <;> omega

/-- A step changes nothing that leaves the groups, the kinds and the two single values alone. -/
theorem grown_eq_of_groups (hf : f.All Value.IsBasic)
    (hundefined : (e.grown f).Covers .undefined → e.Covers .undefined)
    (hany : (e.grown f).Covers .any → e.Covers .any)
    (hkind : ∀ k, ((e.grown f).Covers (.anyOf k) ↔ e.Covers (.anyOf k)) ∧
      (e.grown f).group k = e.group k) : e.grown f = e := by
  have hmember : ∀ v ∈ e.grown f, e.Covers v := by
    intro v hv
    cases hs : v.isSimplifiable with
    | true =>
      obtain ⟨k, hk, -⟩ := foldToKind_of_isSimplifiable hs
      have hgroup : v ∈ (e.grown f).group k := mem_group.2 ⟨hv, hs, hk⟩
      rw [(hkind k).2] at hgroup
      exact covers_of_mem (mem_group.1 hgroup).1
    | false =>
      cases v with
      | undefined => exact hundefined (covers_of_mem hv)
      | any => exact hany (covers_of_mem hv)
      | anyOf k => exact (hkind k).1.1 (covers_of_mem hv)
      | scalar | interval => cases hs
      | _ =>
        -- the step has nothing else to add
        rcases mem_or_mem_of_mem_join (mem_of_mem_widen hv rfl nofun) with he | hnew
        · exact covers_of_mem he
        · exact (hf _ hnew).elim
  have hle : e.grown f ≤ e := isSubsumedBy_iff.2 hmember
  exact hle.antisymm (le_grown e f)

theorem height_le_grown (e f : Entry) (k : Kind) : e.height k ≤ (e.grown f).height k := by
  rcases height_lt_or_group_eq e f k with h | ⟨hcovers, hgroup⟩
  · exact h.le
  · apply Nat.le_of_eq
    unfold height
    simp only [hcovers, hgroup]

/-- Every step that changes the entry takes it further up. -/
theorem rank_lt_grown (hf : f.All Value.IsBasic) (hne : e.grown f ≠ e) :
    e.rank < (e.grown f).rank := by
  have hstart (v : Value) :
      (if e.Covers v then 1 else 0) ≤ if (e.grown f).Covers v then 1 else 0 := by
    split
    · next h => rw [if_pos (le_iff.1 (le_grown e f) v h)]
    · exact Nat.zero_le _
  have hheights : (Kind.all.map e.height).sum ≤ (Kind.all.map (e.grown f).height).sum :=
    List.sum_le_sum fun k _ => height_le_grown e f k
  have hundefined := hstart .undefined
  have hany := hstart .any
  unfold rank
  -- had no part of the rank grown, the step would have changed nothing
  by_contra hrank
  refine hne (grown_eq_of_groups hf (fun h => ?_) (fun h => ?_) fun k => ?_)
  · by_contra hnot
    rw [if_pos h, if_neg hnot] at hrank
    omega
  · by_contra hnot
    rw [if_pos h, if_neg hnot] at hrank
    omega
  · refine (height_lt_or_group_eq e f k).resolve_left fun hlt => ?_
    have hgrew : (Kind.all.map e.height).sum < (Kind.all.map (e.grown f).height).sum :=
      List.sum_lt_sum _ _ (fun k _ => height_le_grown e f k) ⟨k, mem_kindAll k, hlt⟩
    omega

/-- What becomes of an entry that keeps growing, by what is joined into it at each step. -/
def growth (e : Entry) (f : ℕ → Entry) : ℕ → Entry
  | 0 => e
  | n + 1 => (growth e f n).grown (f n)

theorem growth_monotone (e : Entry) (f : ℕ → Entry) : Monotone (growth e f) :=
  monotone_nat_of_le_succ fun n => le_grown (growth e f n) (f n)

end Entry

/-- A quantity that never falls, and grows by each change, bounds the number of changes. -/
theorem encard_changes_le {α : Type} {s : ℕ → α} {rank : α → ℕ} {bound : ℕ}
    (hstep : ∀ n, s (n + 1) ≠ s n → rank (s n) < rank (s (n + 1)))
    (hbound : ∀ n, rank (s n) ≤ bound) : {n | s (n + 1) ≠ s n}.encard ≤ bound := by
  have hmono : Monotone fun n => rank (s n) := by
    refine monotone_nat_of_le_succ fun n => ?_
    by_cases h : s (n + 1) = s n
    · exact Nat.le_of_eq (congrArg rank h.symm)
    · exact (hstep n h).le
  have hstrict : ∀ n m, s (n + 1) ≠ s n → n < m → rank (s n) < rank (s m) :=
    fun n m hn hlt => (hstep n hn).trans_le (hmono hlt)
  have hinj : Set.InjOn (fun n => rank (s n)) {n | s (n + 1) ≠ s n} := by
    intro n hn m hm heq
    rcases Nat.lt_trichotomy n m with hlt | hsame | hgt
    · exact absurd heq (hstrict n m hn hlt).ne
    · exact hsame
    · exact absurd heq (hstrict m n hm hgt).ne'
  have hmaps : Set.MapsTo (fun n => rank (s n)) {n | s (n + 1) ≠ s n}
      (Finset.range bound : Set ℕ) := by
    intro n hn
    exact Finset.mem_coe.2 (Finset.mem_range.2 ((hstep n hn).trans_le (hbound (n + 1))))
  calc {n | s (n + 1) ≠ s n}.encard
      ≤ (Finset.range bound : Set ℕ).encard := Set.encard_le_encard_of_injOn hmaps hinj
    _ = bound := by rw [Set.encard_coe_eq_coe_finsetCard, Finset.card_range]

/-- What changes a limited number of times comes to rest. -/
theorem exists_rest {α : Type} {s : ℕ → α} (h : {n | s (n + 1) ≠ s n}.Finite) :
    ∃ n, ∀ m, n ≤ m → s m = s n := by
  obtain ⟨last, hlast⟩ := h.bddAbove
  refine ⟨last + 1, fun m hm => ?_⟩
  induction m, hm using Nat.le_induction with
  | base => rfl
  | succ m hm ih =>
    by_contra hne
    have hchange : s (m + 1) ≠ s m := fun heq => hne (heq.trans ih)
    have hle : m ≤ last := hlast hchange
    omega

namespace Entry

theorem encard_changes_growth (e : Entry) {f : ℕ → Entry} (hf : ∀ n, (f n).All Value.IsBasic) :
    {n | growth e f (n + 1) ≠ growth e f n}.encard ≤ (16 : ℕ) :=
  encard_changes_le (fun n hne => rank_lt_grown (hf n) hne) fun n => rank_le (growth e f n)

/-- An entry that grows by nothing, anything, kinds, scalars and intervals only ascends, at most
twenty of its steps change it, and so it comes to rest. -/
theorem growth_stabilizes (e : Entry) (f : ℕ → Entry) (hf : ∀ n, (f n).All Value.IsBasic) :
    Monotone (growth e f) ∧ {n | growth e f (n + 1) ≠ growth e f n}.encard ≤ 20 ∧
      ∃ n, ∀ m, n ≤ m → growth e f m = growth e f n := by
  have hchanges := encard_changes_growth e hf
  exact ⟨growth_monotone e f, hchanges.trans (by decide),
    exists_rest (Set.finite_of_encard_le_coe hchanges)⟩

/-- A counter and its text, with every number that it reaches. -/
theorem growth_stabilizes_counting :
    let f (n : ℕ) := ofList [.scalar (.integer (Int64.ofNat n)), .scalar (.string (toString n))]
    (∀ n, (f n).All Value.IsBasic) ∧ Monotone (growth undefined f) ∧
      {n | growth undefined f (n + 1) ≠ growth undefined f n}.encard ≤ 20 ∧
      ∃ n, ∀ m, n ≤ m → growth undefined f m = growth undefined f n := by
  intro f
  have hf : ∀ n, (f n).All Value.IsBasic := by
    intro n v hv
    have hlist := (mem_ofList.1 hv).1
    simp only [List.mem_cons, List.not_mem_nil, or_false] at hlist
    rcases hlist with rfl | rfl <;> trivial
  exact ⟨hf, growth_stabilizes undefined f hf⟩

end Entry
end ScriptMemory
