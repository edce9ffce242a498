import ScriptMemory.Proofs.Atomicity
import ScriptMemory.Proofs.Books.Posting
import ScriptMemory.Proofs.Reachability

/-! Snapshots as books. An account keeps the structure and the data of a snapshot apart, and its
state and what a failure brings back in fields of their own. Every operation on snapshots is
carried out on accounts, too, and reads nothing but accounts there; by induction on the operations
the account is what the snapshot tells. -/
namespace ScriptMemory
open Std

instance : DecidableEq Books := fun b c =>
  decidable_of_iff (b.shapes = c.shapes ∧ b.entries = c.entries ∧ b.objects = c.objects ∧
    b.level = c.level) (by cases b; cases c; simp)

/-- Widens the entries that have changed since earlier books. No definition is touched. -/
def Books.widen (b previous : Books) : Books :=
  b.mapEntries fun i e =>
    match previous.entry? i with
    | some old => if old = e then e else e.widen old
    | none => e

/-- What a commit makes of books over those that the transaction started from. -/
def Books.committed (b : Books) (limits : Limits) (commits : Nat) (before : Books) : Books :=
  if b ≠ before ∧ limits.widening.any (· < commits) then b.widen before else b

namespace Memory
variable {m before : Memory}

theorem widen_books (m before : Memory) :
    m.books.widen before.books = (m.widen before).books := by
  have hentry : (fun (i : Index) (e : Entry) => match before.books.entry? i with
      | some old => if old = e then e else e.widen old
      | none => e) = before.widenEntry := by
    ext1 i
    ext1 e
    rw [entry?_books]
    rfl
  unfold Books.widen widen
  rw [hentry, books_mapEntries m (coarsened_widenEntry before)]

/-- The books have changed where the memory has, since they tell it. -/
theorem Filed.committed_books (h : m.Filed) (hb : before.Filed) (limits : Limits)
    (commits : Nat) : m.books.committed limits commits before.books =
      (Memory.committed limits commits before m).books := by
  have hne : m.books ≠ before.books ↔ m ≠ before :=
    not_congr ⟨h.books_injective hb.toConsistent, congrArg books⟩
  unfold Books.committed Memory.committed
  simp only [hne]
  split
  · exact widen_books m before
  · rfl

end Memory

namespace Account

inductive State where
  | fresh
  | transactionOpen
  | committed
  | frozen
deriving DecidableEq

/-- The state between transactions. -/
def State.resting (commits : Nat) : State :=
  if commits = 0 then fresh else committed

def State.name : State → String
  | fresh => "Fresh"
  | transactionOpen => "TransactionOpen"
  | committed => "Committed"
  | frozen => "Frozen"

end Account

structure Account where
  limits : Limits := {}
  books : Books := .initial
  state : Account.State := .fresh
  /-- What a failure brings back: the books and the state that the transaction started from. -/
  saved : Option (Books × Account.State) := none
  commits : Nat := 0
  changed : Bool := false

abbrev Bookkeeping := EStateM ContractError Account

namespace Account

def ensureOpen : Bookkeeping Unit := do
  match (← get).state with
  | .transactionOpen => pure ()
  | .frozen => throw .frozen
  | .fresh | .committed => throw .transactionNotOpen

def start : Bookkeeping Unit := do
  match (← get).state with
  | .frozen => throw .frozen
  | .transactionOpen => throw .transactionAlreadyOpen
  | .fresh | .committed =>
    modify fun a => { a with saved := some (a.books, a.state), state := .transactionOpen }

def commit : Bookkeeping Unit := do
  ensureOpen
  match (← get).saved with
  | none => throw .transactionNotOpen
  | some (before, _) =>
    modify fun a => { a with saved := none, commits := a.commits + 1 }
    modify fun a => { a with books := a.books.committed a.limits a.commits before }
    modify fun a => { a with changed := a.books ≠ before, state := .committed }

def freeze : Bookkeeping Unit := do
  if (← get).state = .transactionOpen then throw .freezeDuringTransaction
  modify fun a => { a with state := .frozen }

/-- Brings back what was saved, and ends the transaction. -/
def abort (a : Account) : Account :=
  match a.saved with
  | some (books, state) => { a with books, state, saved := none }
  | none => a

def mutate (posting : Posting Unit) : Bookkeeping Unit := do
  ensureOpen
  let a ← get
  match posting.run { books := a.books, limit := a.limits.simplify } with
  | .ok _ l => set { a with books := l.books }
  | .error e _ =>
    modify abort
    throw e

end Account

/-- The edit as a posting at a call level; of its sources it reads the accounts. -/
def Mutation.post (level : Nat) (tell : Snapshot → Account) : Mutation → Posting Unit
  | assign p e force => Posting.assign p e force
  | assignIndex i e strong => Posting.assignIndex i e strong
  | assignReturn e => Posting.assignIndex (.returnSlot level) e true
  | assignAlias target source => Posting.assignAlias target source
  | bindReference target source => Posting.bindReference target source
  | createAlias i target => Posting.createAlias i target
  | createArray p => Posting.createArray p
  | createObject className site fields => discard (Posting.createObject className site fields)
  | unset p => Posting.unset p
  | report f => Posting.report f
  | extend sources => Posting.extend (sources.map fun t => (tell t).books)
  | extendAsCall caller => Posting.enterCall (tell caller).books
  | mergeWithCall result outputs => Posting.leaveCall result (outputs.map fun t => (tell t).books)
  | mergeInto output sources =>
    Posting.mergeInto output (sources.map fun (i, t) => (i, (tell t).books))

/-- The operation as it is carried out on the account of a snapshot. -/
def Operation.keep (tell : Snapshot → Account) : Operation → Bookkeeping Unit
  | start => Account.start
  | commit => Account.commit
  | freeze => Account.freeze
  | change m => do Account.mutate (m.post (← get).books.level tell)
  | create _ => pure ()

namespace Account

/-- The account that is left, be it by a failure. -/
def left : EStateM.Result ContractError Account Unit → Account
  | .ok _ a => a
  | .error _ a => a

def after (a : Account) (o : Operation) (tell : Snapshot → Account) : Account :=
  left ((o.keep tell).run a)

variable {a : Account}

theorem ensureOpen_run (h : a.state = .transactionOpen) : ensureOpen.run a = .ok () a := by
  unfold ensureOpen
  rw [EStateM.run_bind, EStateM.run_get]
  dsimp only
  rw [h]
  rfl

theorem mutate_run (h : a.state = .transactionOpen) (posting : Posting Unit) :
    (mutate posting).run a =
      match posting.run { books := a.books, limit := a.limits.simplify } with
      | .ok _ l => .ok () { a with books := l.books }
      | .error e _ => .error e a.abort := by
  unfold mutate
  rw [EStateM.run_bind, ensureOpen_run h]
  dsimp only
  rw [EStateM.run_bind, EStateM.run_get]
  dsimp only
  cases posting.run { books := a.books, limit := a.limits.simplify } <;> rfl

theorem commit_run {before : Books} {state : State}
    (hstate : a.state = .transactionOpen) (hsaved : a.saved = some (before, state)) :
    let b := a.books.committed a.limits (a.commits + 1) before
    commit.run a = .ok () { a with
      books := b, saved := none, commits := a.commits + 1, changed := b ≠ before
      state := .committed } := by
  unfold commit
  rw [EStateM.run_bind, ensureOpen_run hstate]
  dsimp only
  rw [EStateM.run_bind, EStateM.run_get]
  dsimp only
  rw [hsaved]
  rfl

end Account

/-- A change is posted as it is edited, if the accounts of its sources are what these tell. -/
theorem Mutation.tallies (m : Mutation) {tell : Snapshot → Account}
    (hs : ∀ t ∈ m.sources, t.memory.Filed ∧ (tell t).books = t.memory.books) (level : Nat) :
    Edit.TalliesUnit (m.edit level) (m.post level tell) := by
  have htold : ∀ {l : List Snapshot},
      (∀ t ∈ l, t.memory.Filed ∧ (tell t).books = t.memory.books) →
      (∀ n ∈ l.map (·.memory), n.Filed) ∧
        (l.map fun t => (tell t).books) = (l.map (·.memory)).map Memory.books := by
    intro l hl
    constructor
    · intro n hn
      obtain ⟨t, ht, rfl⟩ := List.mem_map.1 hn
      exact (hl t ht).1
    · rw [List.map_map]
      exact List.map_congr_left fun t ht => (hl t ht).2
  cases m with
  | assign p e force => exact .assign p e force
  | assignIndex i e strong => exact .assignIndex i e strong
  | assignReturn e => exact .assignIndex _ e true
  | assignAlias target source => exact .assignAlias target source
  | bindReference target source => exact .bindReference target source
  | createAlias i target => exact .createAlias i target
  | createArray p => exact .createArray p
  | createObject className site fields =>
    have h := (Edit.Tallies.createObject className site fields).bind (S := fun _ _ => True)
      (f := fun _ => pure PUnit.unit) (g := fun _ => pure PUnit.unit)
      fun _ _ _ => Edit.Tallies.pure trivial
    rwa [bind_pure_comp, bind_pure_comp] at h
  | unset p => exact .unset p
  | report f => exact .report f
  | extend sources =>
    obtain ⟨hfiled, hbooks⟩ := htold (l := sources) hs
    have h := Edit.Tallies.extend hfiled
    rwa [← hbooks] at h
  | extendAsCall caller =>
    obtain ⟨hfiled, hbooks⟩ := hs caller List.mem_cons_self
    have h := Edit.Tallies.enterCall hfiled
    rwa [← hbooks] at h
  | mergeWithCall result outputs =>
    obtain ⟨hfiled, hbooks⟩ := htold (l := outputs) hs
    have h := Edit.Tallies.leaveCall result hfiled
    rwa [← hbooks] at h
  | mergeInto output sources =>
    have hsource {x : Index × Snapshot} (hx : x ∈ sources) :
        x.2.memory.Filed ∧ (tell x.2).books = x.2.memory.books :=
      hs x.2 (List.mem_map.2 ⟨x, hx, rfl⟩)
    have hfiled : ∀ y ∈ sources.map fun x => (x.1, x.2.memory), y.2.Filed := by
      intro y hy
      obtain ⟨x, hx, rfl⟩ := List.mem_map.1 hy
      exact (hsource hx).1
    have hbooks : (sources.map fun x => (x.1, (tell x.2).books)) =
        (sources.map fun x => (x.1, x.2.memory)).map fun y => (y.1, y.2.books) := by
      rw [List.map_map]
      exact List.map_congr_left fun x hx => congrArg (Prod.mk x.1) (hsource hx).2
    have h := Edit.Tallies.mergeInto output hfiled
    rwa [← hbooks] at h

namespace Snapshot
variable {s t : Snapshot} {a : Account} {tell : Snapshot → Account}

/-- The account `a` has been kept along with the snapshot `s`, operation by operation, and so have
the accounts of all snapshots that an operation has read. -/
inductive Kept : Snapshot → Account → Prop
  | blank (limits : Limits) : Kept { limits } { limits }
  | after {s : Snapshot} {a : Account} (o : Operation) (tell : Snapshot → Account) (h : Kept s a)
      (ht : ∀ t ∈ o.sources, Kept t (tell t)) : Kept (s.after o) (a.after o tell)

/-- The account that a snapshot tells. Its phase is at once the state and what has been saved. -/
def account (s : Snapshot) : Account where
  limits := s.limits
  books := s.memory.books
  state := match s.phase with
    | .resting => .resting s.commits
    | .open _ => .transactionOpen
    | .frozen => .frozen
  saved := match s.phase with
    | .open b => some (b.books, .resting s.commits)
    | _ => none
  commits := s.commits
  changed := s.changed

/-- Two outcomes are alike: a failure has the same reason, and the account that is left is the one
that the snapshot tells. -/
def Alike (r : EStateM.Result ContractError Snapshot Unit)
    (q : EStateM.Result ContractError Account Unit) : Prop :=
  match r, q with
  | .ok _ t, .ok _ a => a = t.account
  | .error e t, .error e' a => e' = e ∧ a = t.account
  | _, _ => False

theorem alike_start (s : Snapshot) : Alike (start.run s) (Account.start.run s.account) := by
  obtain ⟨limits, memory, phase, commits, changed, statistics⟩ := s
  cases phase with
  | resting =>
    cases commits with
    | zero => exact Eq.refl (_ : Account)
    | succ commits => exact Eq.refl (_ : Account)
  | «open» b => exact ⟨rfl, rfl⟩
  | frozen => exact ⟨rfl, rfl⟩

theorem alike_freeze (s : Snapshot) : Alike (freeze.run s) (Account.freeze.run s.account) := by
  obtain ⟨limits, memory, phase, commits, changed, statistics⟩ := s
  cases phase with
  | resting =>
    cases commits with
    | zero => exact Eq.refl (_ : Account)
    | succ commits => exact Eq.refl (_ : Account)
  | «open» b => exact ⟨rfl, rfl⟩
  | frozen => exact Eq.refl (_ : Account)

theorem account_open {b : Memory} (hp : s.phase = .open b) :
    s.account.state = .transactionOpen ∧
      s.account.saved = some (b.books, .resting s.commits) := by
  unfold account
  rw [hp]
  exact ⟨rfl, rfl⟩

/-- Without an open transaction an account refuses to be changed for the reason that the snapshot
gives. -/
theorem ensureOpen_run_closed (h : ∀ b, s.phase ≠ .open b) :
    Account.ensureOpen.run s.account = .error s.refusal s.account := by
  obtain ⟨limits, memory, phase, commits, changed, statistics⟩ := s
  cases phase with
  | resting => cases commits <;> rfl
  | «open» b => exact absurd rfl (h b)
  | frozen => rfl

theorem alike_commit (hs : s.Upholds Memory.Filed) :
    Alike ((discard commit).run s) (Account.commit.run s.account) := by
  rw [run_discard]
  rcases exists_open_or_closed s with ⟨b, hp⟩ | hclosed
  · obtain ⟨t, ht, hlimits, hmemory, hphase, hcommits, hchanged⟩ := commit_run hp
    obtain ⟨hstate, hsaved⟩ := account_open hp
    have hb : b.Filed := hs.saved b hp
    have hcommitted : t.memory.Filed := hmemory ▸ hs.committed Memory.filed_durable b _
    have hbooks : s.account.books.committed s.account.limits (s.account.commits + 1) b.books =
        t.memory.books := (hs.memory.committed_books hb _ _).trans (congrArg _ hmemory.symm)
    have hne : t.memory.books ≠ b.books ↔ t.memory ≠ b :=
      not_congr ⟨hcommitted.books_injective hb.toConsistent, congrArg _⟩
    rw [ht, Account.commit_run hstate hsaved, hbooks]
    show _ = t.account
    unfold account
    rw [hphase, hlimits, hcommits, hchanged]
    simp only [hne]
    rfl
  · unfold Account.commit
    rw [commit_run_closed hclosed, EStateM.run_bind, ensureOpen_run_closed hclosed]
    exact ⟨rfl, rfl⟩

theorem alike_change (hs : s.Upholds Memory.Filed) (m : Mutation)
    (ht : ∀ t ∈ m.sources, t.memory.Filed ∧ tell t = t.account) :
    Alike (m.perform.run s) (((Operation.change m).keep tell).run s.account) := by
  have hkeep : ((Operation.change m).keep tell).run s.account =
      (Account.mutate (m.post s.memory.level tell)).run s.account := rfl
  rw [perform_run, hkeep]
  rcases exists_open_or_closed s with ⟨b, hp⟩ | hclosed
  · obtain ⟨hstate, hsaved⟩ := account_open hp
    have htold : ∀ t ∈ m.sources, t.memory.Filed ∧ (tell t).books = t.memory.books :=
      fun t hm => ⟨(ht t hm).1, congrArg Account.books (ht t hm).2⟩
    -- the books of the account are those of the memory, so both start from what tallies
    have h := m.tallies htold s.memory.level
      { memory := s.memory, limit := s.limits.simplify }
      { books := s.account.books, limit := s.account.limits.simplify } ⟨hs.memory, rfl⟩
    rw [Transact.mutate_run _ _ hp, Account.mutate_run hstate]
    cases hrun : (m.edit s.memory.level).run
        { memory := s.memory, limit := s.limits.simplify } with
    | ok u d =>
      rw [hrun] at h
      obtain ⟨_, l, hl, ⟨-, rfl⟩, -⟩ := h
      rw [hl]
      exact Eq.refl (_ : Account)
    | error e d =>
      rw [hrun] at h
      obtain ⟨l, hl⟩ := h
      rw [hl]
      refine ⟨rfl, ?_⟩
      unfold Account.abort
      rw [hsaved]
      rfl
  · rw [mutate_run_closed hclosed]
    unfold Account.mutate
    rw [EStateM.run_bind, ensureOpen_run_closed hclosed]
    exact ⟨rfl, rfl⟩

/-- Every operation is carried out on the account of a snapshot as on the snapshot. -/
theorem alike (hs : s.Upholds Memory.Filed) (o : Operation)
    (ht : ∀ t ∈ o.sources, t.memory.Filed ∧ tell t = t.account) :
    Alike (o.perform.run s) ((o.keep tell).run s.account) := by
  cases o with
  | start => exact alike_start s
  | commit => exact alike_commit hs
  | freeze => exact alike_freeze s
  | change m => exact alike_change hs m ht
  | create v => exact Eq.refl s.account

theorem Alike.left_eq {r : EStateM.Result ContractError Snapshot Unit}
    {q : EStateM.Result ContractError Account Unit} (h : Alike r q) :
    Account.left q = (left r).account := by
  cases r with
  | ok _ t =>
    cases q with
    | ok _ a => exact h
    | error e a => exact h.elim
  | error e t =>
    cases q with
    | ok _ a => exact h.elim
    | error e' a => exact h.2

theorem Kept.foldl (h : Kept s a) {ops : List Operation}
    (ho : ∀ o ∈ ops, ∀ t ∈ o.sources, Kept t (tell t)) :
    Kept (ops.foldl Snapshot.after s) (ops.foldl (fun a o => a.after o tell) a) := by
  induction ops generalizing s a with
  | nil => exact h
  | cons o ops ih =>
    have hstep : Kept (s.after o) (a.after o tell) := h.after o tell (ho o List.mem_cons_self)
    exact ih hstep fun o' ho' => ho o' (List.mem_cons_of_mem o ho')

theorem Kept.reachable (h : Kept s a) : Reachable s := by
  induction h with
  | blank limits => exact .blank limits
  | after o tell _ _ ih iht => exact ih.after o iht

/-- By induction on the operations, of the snapshot as of the sources they have read. -/
theorem Kept.eq_account (h : Kept s a) : a = s.account := by
  induction h with
  | blank limits =>
    show ({ limits } : Account) = account { limits }
    unfold account
    rw [Memory.books_initial]
    rfl
  | @after s a o tell h ht ih iht =>
    have hfiled {t : Snapshot} {a : Account} (h : Kept t a) : t.Upholds Memory.Filed :=
      h.reachable.upholds Memory.filed_durable
    have halike := alike (hfiled h) o fun t hm => ⟨(hfiled (ht t hm)).memory, iht t hm⟩
    subst ih
    exact halike.left_eq

/-- The state that is written down is the one that the snapshot can be told to be in. -/
theorem Kept.stateName_eq (h : Kept s a) : s.stateName = a.state.name := by
  rw [h.eq_account]
  unfold stateName account
  cases s.phase with
  | resting =>
    show (if s.commits = 0 then _ else _) = (Account.State.resting s.commits).name
    unfold Account.State.resting
    split <;> rfl
  | «open» b => rfl
  | frozen => rfl

/-- State and saved books are written down apart, and yet something is saved exactly while a
transaction is open. -/
theorem Kept.exists_saved_iff (h : Kept s a) :
    (∃ saved, a.saved = some saved) ↔ a.state = .transactionOpen := by
  have hname : a.state = .transactionOpen ↔ ∃ b, s.phase = .open b := by
    rw [← stateName_open, h.stateName_eq]
    cases a.state <;> simp [Account.State.name]
  rw [hname, h.eq_account]
  unfold account
  cases s.phase <;> simp

/-- Along with any reachable snapshot an account can be kept. -/
theorem Reachable.exists_kept (h : Reachable s) : ∃ a, Kept s a := by
  induction h with
  | blank limits => exact ⟨_, .blank limits⟩
  | after o _ hs ih ihs =>
    obtain ⟨a, ha⟩ := ih
    refine ⟨_, ha.after o account fun t ht => ?_⟩
    obtain ⟨b, hb⟩ := ihs t ht
    rwa [← hb.eq_account]

end Snapshot
end ScriptMemory
