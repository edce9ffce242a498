import ScriptMemory.Snapshot
import ScriptMemory.Proofs.Memory.Edit

/-! Transactions. What happens inside one depends on the limits and the memory only: not on the
checkpoint, the counters or the number of commits. Committing adds widening, and committing the same
memory again over what was committed before changes nothing. -/
namespace ScriptMemory
open Std

namespace Transact
variable {α β : Type} {I : Memory → Prop}

/-- In an open transaction over the memory `m` the operation succeeds with `a` and leaves the memory
`n`, whatever else the snapshot holds. -/
def Yields (x : Transact α) (limits : Limits) (m : Memory) (a : α) (n : Memory) : Prop :=
  ∀ s : Snapshot, s.limits = limits → s.memory = m → (∃ b, s.phase = .open b) →
    ∃ t, x.run s = .ok a t ∧ t.limits = limits ∧ t.memory = n ∧ t.phase = s.phase ∧
      t.commits = s.commits

theorem Yields.pure (limits : Limits) (m : Memory) (a : α) :
    Yields (pure a : Transact α) limits m a m :=
  fun s hl hm _ => ⟨s, rfl, hl, hm, rfl, rfl⟩

/-- What is read of the snapshot is its memory only. -/
theorem Yields.get_bind {k : Snapshot → Transact β} {limits : Limits} {m n : Memory} {b : β}
    (hk : ∀ s t : Snapshot, s.memory = t.memory → k s = k t)
    (h : Yields (k { memory := m }) limits m b n) :
    Yields ((get : Transact Snapshot) >>= k) limits m b n := by
  intro s hl hm ho
  have hks : k s = k { memory := m } := hk s _ hm
  have hrun : ((get : Transact Snapshot) >>= k).run s = (k s).run s := rfl
  rw [hrun, hks]
  exact h s hl hm ho

theorem Yields.bind {x : Transact α} {f : α → Transact β} {limits : Limits} {m n k : Memory} {a : α}
    {b : β} (hx : Yields x limits m a n) (hf : Yields (f a) limits n b k) :
    Yields (x >>= f) limits m b k := by
  intro s hl hm ho
  obtain ⟨t, hrun, htl, htm, htp, htc⟩ := hx s hl hm ho
  obtain ⟨u, hrun', hul, hum, hup, huc⟩ := hf t htl htm (htp ▸ ho)
  refine ⟨u, ?_, hul, hum, hup.trans htp, huc.trans htc⟩
  rw [EStateM.run_bind, hrun]
  exact hrun'

/-- An open transaction hands its checkpoint out and stays as it is. -/
theorem checkpoint_run {s : Snapshot} {b : Memory} (h : s.phase = .open b) :
    Snapshot.checkpoint.run s = .ok b s := by
  unfold Snapshot.checkpoint
  rw [EStateM.run_bind, EStateM.run_get]
  dsimp only
  rw [h]
  rfl

/-- How an operation on a snapshot ends when the edit it ran ends so. -/
def outcome (kind : Statistic) (s : Snapshot) (before : Memory) :
    EStateM.Result ContractError Draft α → EStateM.Result ContractError Snapshot α
  | .ok a d => .ok a { s with
      memory := d.memory
      statistics := (s.statistics.record kind).add .simplification d.simplified }
  | .error e d => .error e { s with
      memory := before
      phase := .resting
      statistics := (s.statistics.record kind).add .simplification d.simplified }

theorem mutate_run (kind : Statistic) (edit : Edit α) {s : Snapshot} {b : Memory}
    (hb : s.phase = .open b) : (Snapshot.mutate kind edit).run s =
      outcome kind s b (edit.run { memory := s.memory, limit := s.limits.simplify }) := by
  have hrecord : (Snapshot.record kind).run s =
      .ok () { s with statistics := s.statistics.record kind } := rfl
  unfold Snapshot.mutate
  rw [EStateM.run_bind, checkpoint_run hb]
  dsimp only
  rw [EStateM.run_bind, hrecord]
  dsimp only
  rw [EStateM.run_bind, EStateM.run_get]
  dsimp only
  cases edit.run { memory := s.memory, limit := s.limits.simplify } <;> rfl

theorem Yields.mutate {edit : Edit α} {kind : Statistic} {limits : Limits} {m : Memory} {a : α}
    {d : Draft} (h : edit.run { memory := m, limit := limits.simplify } = .ok a d) :
    Yields (Snapshot.mutate kind edit) limits m a d.memory := by
  rintro s rfl rfl ⟨b, hb⟩
  have hrun := mutate_run kind edit hb
  rw [h] at hrun
  exact ⟨_, hrun, rfl, rfl, rfl, rfl⟩

theorem mutate_ok (kind : Statistic) {edit : Edit α} {s : Snapshot} {b : Memory} {a : α} {d : Draft}
    (hb : s.phase = .open b)
    (h : edit.run { memory := s.memory, limit := s.limits.simplify } = .ok a d) :
    ∃ t, (Snapshot.mutate kind edit).run s = .ok a t ∧ t.memory = d.memory := by
  have hrun := mutate_run kind edit hb
  rw [h] at hrun
  exact ⟨_, hrun, rfl⟩

theorem mutate_error (kind : Statistic) {edit : Edit α} {s : Snapshot} {b : Memory}
    {e : ContractError} {d : Draft} (hb : s.phase = .open b)
    (h : edit.run { memory := s.memory, limit := s.limits.simplify } = .error e d) :
    ∃ t, (Snapshot.mutate kind edit).run s = .error e t := by
  have hrun := mutate_run kind edit hb
  rw [h] at hrun
  exact ⟨_, hrun⟩

/-- Two outcomes of one operation over one memory are the same. -/
theorem Yields.unique {x : Transact α} {limits : Limits} {m n k : Memory} {a b : α}
    (h : Yields x limits m a n) (h' : Yields x limits m b k) : n = k ∧ a = b := by
  let s : Snapshot := { limits, memory := m, phase := .open m }
  obtain ⟨t, ht, -, htm, -⟩ := h s rfl rfl ⟨m, rfl⟩
  obtain ⟨u, hu, -, hum, -⟩ := h' s rfl rfl ⟨m, rfl⟩
  have htu : EStateM.Result.ok a t = EStateM.Result.ok b u := ht.symm.trans hu
  cases htu
  exact ⟨htm.symm.trans hum, rfl⟩

theorem Yields.snoc {perform : α → Transact Unit} {l : List α} {a : α} {limits : Limits}
    {m n k : Memory} (hl : Yields (l.forM perform) limits m () n)
    (ha : Yields (perform a) limits n () k) :
    Yields ((l ++ [a]).forM perform) limits m () k := by
  rw [List.forM_eq_forM, List.forM_append]
  refine hl.bind ?_
  simpa using ha

/-- The first transaction of a fresh snapshot starts from initial memory. -/
theorem Yields.session {x : Transact Unit} {m : Memory} (h : Yields x {} .initial () m) :
    ∃ t, (do Snapshot.start; x : Transact Unit).run {} = .ok () t ∧ t.memory = m := by
  obtain ⟨t, ht, -, htm, -⟩ := h
    { phase := .open .initial, statistics := ({} : Statistics).record .startTransaction } rfl rfl
    ⟨.initial, rfl⟩
  exact ⟨t, ht, htm⟩

/-- The operation succeeds in every transaction over memory that satisfies `I`, with a result that
satisfies `Q`, and `I` holds again. -/
def Keeps (I : Memory → Prop) (x : Transact α) (Q : α → Prop) : Prop :=
  ∀ limits m, I m → ∃ a n, Yields x limits m a n ∧ I n ∧ Q a

theorem Keeps.pure {Q : α → Prop} {a : α} (ha : Q a) : Keeps I (pure a : Transact α) Q :=
  fun limits m h => ⟨a, m, Yields.pure limits m a, h, ha⟩

theorem Keeps.bind {x : Transact α} {f : α → Transact β} {Q : α → Prop} {R : β → Prop}
    (hx : Keeps I x Q) (hf : ∀ a, Q a → Keeps I (f a) R) : Keeps I (x >>= f) R := by
  intro limits m h
  obtain ⟨a, n, hy, hn, ha⟩ := hx limits m h
  obtain ⟨b, k, hy', hk, hb⟩ := hf a ha limits n hn
  exact ⟨b, k, hy.bind hy', hk, hb⟩

theorem Keeps.mono {x : Transact α} {Q R : α → Prop} (hx : Keeps I x Q) (hQ : ∀ a, Q a → R a) :
    Keeps I x R := by
  intro limits m h
  obtain ⟨a, n, hy, hn, ha⟩ := hx limits m h
  exact ⟨a, n, hy, hn, hQ a ha⟩

theorem Keeps.ite {c : Prop} [Decidable c] {x y : Transact α} {Q : α → Prop} (hx : Keeps I x Q)
    (hy : Keeps I y Q) : Keeps I (if c then x else y) Q := by
  split
  · exact hx
  · exact hy

theorem Keeps.get_bind {k : Snapshot → Transact β} {R : β → Prop}
    (hk : ∀ s t : Snapshot, s.memory = t.memory → k s = k t)
    (h : ∀ s : Snapshot, I s.memory → Keeps I (k s) R) :
    Keeps I ((get : Transact Snapshot) >>= k) R := by
  intro limits m hm
  obtain ⟨b, n, hy, hn, hb⟩ := h { memory := m } hm limits m hm
  exact ⟨b, n, hy.get_bind hk, hn, hb⟩

theorem Keeps.record (kind : Statistic) : Keeps I (Snapshot.record kind) fun _ => True :=
  fun _ m h => ⟨(), m, fun s hl hm _ =>
    ⟨{ s with statistics := s.statistics.record kind }, rfl, hl, hm, rfl, rfl⟩, h, trivial⟩

theorem Keeps.create (v : Value) : Keeps I (Snapshot.create v) fun w => w = v :=
  (Keeps.record _).bind fun _ _ => Keeps.pure rfl

theorem Keeps.mutate {edit : Edit α} {Q : α → Prop} (h : Edit.Keeps I edit Q) (kind : Statistic) :
    Keeps I (Snapshot.mutate kind edit) Q := by
  intro limits m hm
  obtain ⟨a, d, hrun, hd, ha⟩ := h { memory := m, limit := limits.simplify } hm
  exact ⟨a, d.memory, Yields.mutate hrun, hd, ha⟩

theorem Keeps.forM {l : List α} {f : α → Transact Unit}
    (hf : ∀ a ∈ l, Keeps I (f a) fun _ => True) : Keeps I (l.forM f) fun _ => True := by
  induction l with
  | nil => exact Keeps.pure trivial
  | cons a l ih =>
    change Keeps I (f a >>= fun _ => l.forM f) _
    exact (hf a List.mem_cons_self).bind fun _ _ => ih fun b hb => hf b (List.mem_cons_of_mem a hb)

theorem Keeps.mapM {l : List α} {f : α → Transact β} {Q : β → Prop}
    (hf : ∀ a ∈ l, Keeps I (f a) Q) : Keeps I (l.mapM f) fun bs => ∀ b ∈ bs, Q b := by
  induction l with
  | nil =>
    rw [List.mapM_nil]
    exact Keeps.pure (by simp)
  | cons a l ih =>
    rw [List.mapM_cons]
    apply (hf a List.mem_cons_self).bind
    intro b hb
    apply (ih fun b hb => hf b (List.mem_cons_of_mem a hb)).bind
    intro bs hbs
    exact Keeps.pure (List.forall_mem_cons.2 ⟨hb, hbs⟩)

theorem Keeps.foldlM {l : List α} {f : β → α → Transact β} {Q : β → Prop}
    (hf : ∀ b, Q b → ∀ a ∈ l, Keeps I (f b a) Q) {b : β} (hb : Q b) : Keeps I (l.foldlM f b) Q := by
  induction l generalizing b with
  | nil => exact Keeps.pure hb
  | cons a l ih =>
    rw [List.foldlM_cons]
    exact (hf b hb a List.mem_cons_self).bind fun c hc =>
      ih (fun b hb a ha => hf b hb a (List.mem_cons_of_mem _ ha)) hc

/-- In every transaction with the limits over memory that satisfies `I` the operation succeeds, with
a result and memory that satisfy `Q`. -/
def Leads (limits : Limits) (I : Memory → Prop) (x : Transact α) (Q : α → Memory → Prop) : Prop :=
  ∀ m, I m → ∃ a n, Yields x limits m a n ∧ Q a n

variable {limits : Limits} {Q : α → Memory → Prop}

theorem Leads.pure {a : α} (h : ∀ m, I m → Q a m) : Leads limits I (pure a : Transact α) Q :=
  fun m hm => ⟨a, m, Yields.pure limits m a, h m hm⟩

theorem Leads.bind {x : Transact α} {f : α → Transact β} {R : β → Memory → Prop}
    (hx : Leads limits I x Q) (hf : ∀ a, Leads limits (Q a) (f a) R) :
    Leads limits I (x >>= f) R := by
  intro m hm
  obtain ⟨a, n, hy, hn⟩ := hx m hm
  obtain ⟨b, k, hy', hk⟩ := hf a n hn
  exact ⟨b, k, hy.bind hy', hk⟩

theorem Leads.get_bind {k : Snapshot → Transact β} {R : β → Memory → Prop}
    (hk : ∀ s t : Snapshot, s.memory = t.memory → k s = k t)
    (h : ∀ s : Snapshot, I s.memory → Leads limits I (k s) R) :
    Leads limits I ((get : Transact Snapshot) >>= k) R := by
  intro m hm
  obtain ⟨b, n, hy, hn⟩ := h { memory := m } hm m hm
  exact ⟨b, n, hy.get_bind hk, hn⟩

theorem Leads.mono {J : Memory → Prop} {x : Transact α} {R : α → Memory → Prop}
    (hx : Leads limits I x Q) (hI : ∀ m, J m → I m) (hQ : ∀ a n, Q a n → R a n) :
    Leads limits J x R := by
  intro m hm
  obtain ⟨a, n, hy, hn⟩ := hx m (hI m hm)
  exact ⟨a, n, hy, hQ a n hn⟩

theorem Leads.ite {c : Prop} [Decidable c] {x y : Transact α} (hx : Leads limits I x Q)
    (hy : Leads limits I y Q) : Leads limits I (if c then x else y) Q := by
  split
  · exact hx
  · exact hy

theorem Leads.mutate {edit : Edit α} (kind : Statistic)
    (h : ∀ d : Draft, d.limit = limits.simplify → I d.memory →
      ∃ a d', edit.run d = .ok a d' ∧ Q a d'.memory) :
    Leads limits I (Snapshot.mutate kind edit) Q := by
  intro m hm
  obtain ⟨a, d, hrun, hd⟩ := h { memory := m, limit := limits.simplify } rfl hm
  exact ⟨a, d.memory, Yields.mutate hrun, hd⟩

theorem Leads.forM {l : List α} {f : α → Transact Unit}
    (hf : ∀ a ∈ l, Leads limits I (f a) fun _ => I) : Leads limits I (l.forM f) fun _ => I := by
  induction l with
  | nil => exact Leads.pure fun _ h => h
  | cons a l ih =>
    change Leads limits I (f a >>= fun _ => l.forM f) _
    exact (hf a List.mem_cons_self).bind fun _ => ih fun b hb => hf b (List.mem_cons_of_mem a hb)

theorem Leads.foldlM {l : List α} {f : β → α → Transact β} {Q : β → Memory → Prop}
    (hf : ∀ b, ∀ a ∈ l, Leads limits (Q b) (f b a) Q) {b : β} :
    Leads limits (Q b) (l.foldlM f b) Q := by
  induction l generalizing b with
  | nil => exact Leads.pure fun _ h => h
  | cons a l ih =>
    rw [List.foldlM_cons]
    exact (hf b a List.mem_cons_self).bind fun c => ih fun b a ha =>
      hf b a (List.mem_cons_of_mem _ ha)

/-- What holds may tell of the part of the list that is done. -/
theorem Leads.foldlM_append {f : β → α → Transact β} {Q : List α → β → Memory → Prop}
    (hf : ∀ done b a, Leads limits (Q done b) (f b a) (Q (done ++ [a]))) (l : List α) {b : β} :
    Leads limits (Q [] b) (l.foldlM f b) (Q l) := by
  have hfrom (rest done : List α) (b : β) :
      Leads limits (Q done b) (rest.foldlM f b) (Q (done ++ rest)) := by
    induction rest generalizing done b with
    | nil =>
      rw [List.append_nil]
      exact Leads.pure fun _ h => h
    | cons a rest ih =>
      rw [List.foldlM_cons, List.append_cons]
      exact (hf done b a).bind fun c => ih (done ++ [a]) c
  exact hfrom l [] b

theorem Keeps.leads {x : Transact α} {Q : α → Prop} (h : Keeps I x Q) (limits : Limits) :
    Leads limits I x fun a n => I n ∧ Q a :=
  fun m hm => h limits m hm

theorem Keeps.leads_same {x : Transact α} {Q : α → Prop} (h : Keeps I x Q) (limits : Limits) :
    Leads limits I x fun _ => I := by
  intro m hm
  obtain ⟨a, n, hy, hn, -⟩ := h limits m hm
  exact ⟨a, n, hy, hn⟩

end Transact

namespace Memory
variable {m n : Memory} {i : Index}

/-- What a commit makes of the memory `m` over the memory `before`. -/
def committed (limits : Limits) (commits : Nat) (before m : Memory) : Memory :=
  if m ≠ before ∧ limits.widening.any (· < commits) then m.widen before else m

theorem committed_unlimited (commits : Nat) (before m : Memory) :
    committed {} commits before m = m :=
  if_neg fun h => Bool.false_ne_true h.2

/-- An entry is kept, or it is widened against an older one. -/
theorem widenEntry_cases (before : Memory) (i : Index) (e : Entry) :
    before.widenEntry i e = e ∨ ∃ old, before.widenEntry i e = e.widen old := by
  unfold widenEntry
  split
  · split
    · exact .inl rfl
    · exact .inr ⟨_, rfl⟩
  · exact .inl rfl

theorem widenEntry_widenEntry (m before : Memory) (i : Index) (e : Entry)
    (he : m.entry? i = some e) :
    (m.widen before).widenEntry i e = before.widenEntry i e := by
  have hw : Memory.entry? (m.widen before) i = some (before.widenEntry i e) := by
    rw [widen, entry?_mapEntries, he]
    rfl
  unfold widenEntry at hw ⊢
  rw [hw]
  -- only an entry that differs from the one before is widened
  cases before.entry? i with
  | none => simp
  | some old =>
    by_cases ho : old = e
    · simp [ho]
    · dsimp only
      simp only [if_neg ho]
      split
      · next heq => exact heq.symm
      · exact Entry.widen_widen e old

/-- Widening the same memory again, against the widened one, changes nothing. -/
theorem widen_widen (m before : Memory) : m.widen (m.widen before) = m.widen before := by
  have hcells : (m.widen (m.widen before)).cells = (m.widen before).cells := by
    apply ExtTreeMap.ext_getElem?
    intro i
    change (m.cells.map _)[i]? = (m.cells.map _)[i]?
    rw [ExtTreeMap.getElem?_map, ExtTreeMap.getElem?_map]
    cases hc : m.cells[i]? with
    | none => rfl
    | some c =>
      cases he : c.entry with
      | none => simp [he]
      | some e =>
        have hentry : m.entry? i = some e := by
          unfold entry? cell
          rw [hc]
          exact he
        simp only [Option.map_some, he, widenEntry_widenEntry m before i e hentry]
  exact congrArg (fun cells => ({ m with cells } : Memory)) hcells

/-- Committing the same memory once more, over what the last commit left, changes nothing. -/
theorem committed_committed (limits : Limits) (commits : Nat) (before m : Memory) :
    committed limits (commits + 1) (committed limits commits before m) m =
      committed limits commits before m := by
  by_cases hw : m ≠ before ∧ limits.widening.any (· < commits)
  · have hc : committed limits commits before m = m.widen before := if_pos hw
    -- the limit was passed, so it is passed the next time
    have hany : limits.widening.any (· < commits + 1) = true := by
      obtain ⟨l, hl, hlt⟩ := (Option.any_eq_true _ _).1 hw.2
      rw [hl]
      simp only [Option.any_some, decide_eq_true_eq] at hlt ⊢
      omega
    rw [hc]
    by_cases hm : m = m.widen before
    · have hsame : committed limits (commits + 1) (m.widen before) m = m := by
        unfold committed
        rw [if_neg]
        exact fun h => h.1 hm
      rw [hsame]
      exact hm
    · unfold committed
      rw [if_pos ⟨hm, hany⟩]
      exact widen_widen m before
  · have hc : committed limits commits before m = m := if_neg hw
    rw [hc]
    unfold committed
    rw [if_neg]
    exact fun h => h.1 rfl

theorem wellFormed_widen (h : m.WellFormed) (before : Memory) : (m.widen before).WellFormed where
  data := by
    intro i e he
    rw [widen, entry?_mapEntries] at he
    obtain ⟨f, hf, rfl⟩ := Option.map_eq_some_iff.1 he
    have hd := h.data i f hf
    rcases widenEntry_cases before i f with heq | ⟨old, heq⟩
    · rwa [heq]
    · rw [heq]
      exact hd.widen old
  symmetric := aliasesSymmetric_of_aliases_eq h.symmetric fun i => aliases_mapEntries ..
  ordinary := by
    intro i j s hs
    rw [widen, aliases_mapEntries] at hs
    exact h.ordinary i j s hs

theorem reports_widen {f : Finding} (h : m.Reports f) (before : Memory) :
    (m.widen before).Reports f := by
  obtain ⟨e, he, hf⟩ := h
  refine ⟨before.widenEntry .diagnostics e, by rw [widen, entry?_mapEntries, he]; rfl, ?_⟩
  rcases widenEntry_cases before .diagnostics e with heq | ⟨old, heq⟩
  · rwa [heq]
  · rw [heq]
    exact Entry.mem_widen_of_mem hf rfl

theorem frame_committed {level : Nat} {found : Finding → Prop} (h : Frame level found m)
    (limits : Limits) (commits : Nat) (before : Memory) :
    Frame level found (committed limits commits before m) := by
  unfold committed
  split
  · exact ⟨wellFormed_widen h.toWellFormed before, h.level_eq,
      fun f hf => reports_widen (h.reports f hf) before⟩
  · exact h

end Memory

namespace Snapshot

theorem start_run {s : Snapshot} (h : s.phase = .resting) :
    start.run s = .ok () { s with
      phase := .open s.memory, statistics := s.statistics.record .startTransaction } := by
  unfold start
  rw [EStateM.run_bind, EStateM.run_get]
  dsimp only
  rw [h]
  rfl

/-- A commit succeeds in every open transaction and tells whether the memory has changed. -/
theorem commit_run {s : Snapshot} {before : Memory} (h : s.phase = .open before) :
    ∃ t, commit.run s = .ok (decide (t.memory ≠ before)) t ∧ t.limits = s.limits ∧
      t.memory = Memory.committed s.limits (s.commits + 1) before s.memory ∧ t.phase = .resting ∧
      t.commits = s.commits + 1 ∧ t.changed = decide (t.memory ≠ before) := by
  -- a commit counts itself, widens if it has to, and closes the transaction
  let counted : Snapshot := { s with
    commits := s.commits + 1, statistics := s.statistics.record .commitTransaction }
  let widened : Snapshot := { counted with
    memory := s.memory.widen before
    statistics := counted.statistics.add .widening
      (s.memory.changedEntries (s.memory.widen before)) }
  let t : Snapshot := if s.memory ≠ before && s.limits.widening.any (· < s.commits + 1) then widened
    else counted
  have hrun : commit.run s = .ok (decide (t.memory ≠ before))
      { t with changed := decide (t.memory ≠ before), phase := .resting } := by
    unfold commit
    rw [EStateM.run_bind, Transact.checkpoint_run h]
    rfl
  refine ⟨{ t with changed := decide (t.memory ≠ before), phase := .resting }, hrun, ?_⟩
  unfold Memory.committed
  by_cases hw : s.memory ≠ before ∧ s.limits.widening.any (· < s.commits + 1)
  · have ht : t = widened := if_pos (by simpa using hw)
    rw [if_pos hw, ht]
    exact ⟨rfl, rfl, rfl, rfl, rfl⟩
  · have ht : t = counted := if_neg (by simpa using hw)
    rw [if_neg hw, ht]
    exact ⟨rfl, rfl, rfl, rfl, rfl⟩

/-- A whole transaction of a snapshot that rests commits what the changes in it yield. -/
theorem transaction_run {x : Transact Unit} {s : Snapshot} {n : Memory}
    (hphase : s.phase = .resting) (hx : Transact.Yields x s.limits s.memory () n) :
    ∃ t, (do start; x; commit : Transact Bool).run s = .ok (decide (t.memory ≠ s.memory)) t ∧
      t.limits = s.limits ∧ t.phase = .resting ∧ t.commits = s.commits + 1 ∧
      t.changed = decide (t.memory ≠ s.memory) ∧
      t.memory = Memory.committed s.limits t.commits s.memory n := by
  -- the changes are made in the transaction that is open on the memory
  obtain ⟨u, hu, hul, hum, hup, huc⟩ := hx { s with
    phase := .open s.memory
    statistics := s.statistics.record .startTransaction } rfl rfl ⟨_, rfl⟩
  have hopen : u.phase = .open s.memory := hup
  obtain ⟨t, ht, htl, htm, htp, htc, hchanged⟩ := commit_run hopen
  rw [hul, hum, huc] at htm
  refine ⟨t, ?_, htl.trans hul, htp, htc.trans (by rw [huc]), hchanged, ?_⟩
  · rw [EStateM.run_bind, start_run hphase]
    dsimp only
    rw [EStateM.run_bind, hu]
    exact ht
  · rw [htm, htc, huc]

end Snapshot
end ScriptMemory
