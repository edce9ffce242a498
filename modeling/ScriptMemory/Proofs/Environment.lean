import ScriptMemory.Value

/-! Variables at run time. A variable is unbound, or it is bound to a slot, which other variables
may share. Assigning writes to the slot, so that all the variables bound to it change together. -/
namespace ScriptMemory

/-- Where a variable lives in the frame at a level. -/
def Path.indexAt (p : Path) (level : Nat) : Index :=
  .ofVariable p.name (match p.scope with
    | .global => .global
    | .current => Table.atLevel level)

/-- How memory records what a slot holds. -/
def Value.ofContent : Option Scalar → Value
  | none => .undefined
  | some s => .scalar s

/-- The slots that variables are bound to, and what the slots hold. A slot may hold nothing. -/
structure Environment where
  binding : Index → Option Nat
  content : Nat → Option Scalar
  /-- The first slot that is not in use. -/
  next : Nat
  lt_next : ∀ x c, binding x = some c → c < next

namespace Environment
variable {σ : Environment} {x y z : Index} {v : Option Scalar}

/-- No variable is bound. -/
def blank : Environment where
  binding := fun _ => none
  content := fun _ => none
  next := 0
  lt_next := by simp

def isBound (σ : Environment) (x : Index) : Bool :=
  (σ.binding x).isSome

/-- What a variable holds; an unbound one holds nothing. -/
def read (σ : Environment) (x : Index) : Option Scalar :=
  (σ.binding x).bind σ.content

/-- The two variables are bound to one slot. -/
def SameSlot (σ : Environment) (x y : Index) : Prop :=
  ∃ c, σ.binding x = some c ∧ σ.binding y = some c

/-- Writes to the slot of a variable; an unbound one gets a new slot first. -/
def write (σ : Environment) (x : Index) (v : Option Scalar) : Environment where
  binding := fun y => if y = x then some ((σ.binding x).getD σ.next) else σ.binding y
  content := fun c => if c = (σ.binding x).getD σ.next then v else σ.content c
  next := σ.next + 1
  lt_next := by
    intro y c hc
    split at hc
    · cases hc
      cases hx : σ.binding x with
      | none => simp
      | some c =>
        have hlt := σ.lt_next x c hx
        simp only [Option.getD_some]
        omega
    · have hlt := σ.lt_next y c hc
      omega

/-- Binds a variable to the slot of another one. -/
def rebind (σ : Environment) (x y : Index) : Environment where
  binding := fun z => if z = x then σ.binding y else σ.binding z
  content := σ.content
  next := σ.next
  lt_next := by
    intro z c hc
    split at hc
    · exact σ.lt_next y c hc
    · exact σ.lt_next z c hc

/-- Makes a variable share the slot of another one, which comes into being as null. -/
def share (σ : Environment) (x y : Index) : Environment :=
  (if σ.isBound y then σ else σ.write y (some .null)).rebind x y

/-- Unbinds some variables. The others keep their slots. -/
def unbind (σ : Environment) (gone : Index → Bool) : Environment where
  binding := fun x => if gone x then none else σ.binding x
  content := σ.content
  next := σ.next
  lt_next := by
    intro x c hc
    split at hc
    · cases hc
    · exact σ.lt_next x c hc

theorem SameSlot.symm (h : σ.SameSlot x y) : σ.SameSlot y x := by
  obtain ⟨c, hx, hy⟩ := h
  exact ⟨c, hy, hx⟩

theorem SameSlot.trans (h : σ.SameSlot x y) (h' : σ.SameSlot y z) : σ.SameSlot x z := by
  obtain ⟨c, hx, hy⟩ := h
  obtain ⟨d, hy', hz⟩ := h'
  rw [hy] at hy'
  cases hy'
  exact ⟨c, hx, hz⟩

theorem isBound_iff : σ.isBound x = true ↔ ∃ c, σ.binding x = some c :=
  Option.isSome_iff_exists

theorem SameSlot.isBound (h : σ.SameSlot x y) : σ.isBound x = true := by
  obtain ⟨c, hx, -⟩ := h
  exact isBound_iff.2 ⟨c, hx⟩

theorem sameSlot_self : σ.SameSlot x x ↔ σ.isBound x = true := by
  rw [isBound_iff]
  simp [SameSlot]

theorem SameSlot.read_eq (h : σ.SameSlot x y) : σ.read x = σ.read y := by
  obtain ⟨c, hx, hy⟩ := h
  unfold read
  rw [hx, hy]

theorem isBound_write : (σ.write x v).isBound y = true ↔ y = x ∨ σ.isBound y = true := by
  unfold isBound write
  dsimp only
  by_cases h : y = x <;> simp [h]

theorem read_write_self : (σ.write x v).read x = v := by
  simp [read, write]

/-- A write shares no slots and separates none. -/
theorem sameSlot_write :
    (σ.write x v).SameSlot y z ↔ σ.SameSlot y z ∨ y = x ∧ z = x := by
  have hnew (w : Index) (hw : σ.binding w = some ((σ.binding x).getD σ.next)) :
      σ.binding w = σ.binding x := by
    cases hx : σ.binding x with
    | some c => rw [hw, hx]; rfl
    | none =>
      rw [hx] at hw
      exact absurd (σ.lt_next w _ hw) (by simp)
  unfold SameSlot write
  dsimp only
  by_cases hy : y = x
  · by_cases hz : z = x
    · simp [hy, hz]
    · subst hy
      simp only [if_true, hz, and_false, or_false, Option.some.injEq, exists_eq_left']
      constructor
      · intro h
        have hzx := hnew z h
        cases hx : σ.binding y with
        | none =>
          rw [hzx, hx] at h
          cases h
        | some c => exact ⟨c, rfl, hzx.trans hx⟩
      · rintro ⟨c, hc, hzc⟩
        rw [hc, hzc]
        rfl
  · by_cases hz : z = x
    · subst hz
      simp only [if_true, hy, false_and, or_false, Option.some.injEq]
      constructor
      · rintro ⟨c, hc, rfl⟩
        have hyx := hnew y hc
        cases hx : σ.binding z with
        | none =>
          rw [hyx, hx] at hc
          cases hc
        | some c => exact ⟨c, hyx.trans hx, rfl⟩
      · rintro ⟨c, hyc, hc⟩
        exact ⟨c, hyc, by rw [hc]; rfl⟩
    · simp [hy, hz]

theorem read_write_of_sameSlot (h : σ.SameSlot x y) : (σ.write x v).read y = v := by
  have hslot : (σ.write x v).SameSlot x y := sameSlot_write.2 (.inl h)
  rw [← hslot.read_eq, read_write_self]

theorem read_write_of_not_sameSlot (hne : y ≠ x) (h : ¬σ.SameSlot x y) :
    (σ.write x v).read y = σ.read y := by
  unfold read write
  dsimp only
  rw [if_neg hne]
  cases hy : σ.binding y with
  | none => rfl
  | some c =>
    rw [Option.bind_some, Option.bind_some, if_neg]
    rintro rfl
    cases hx : σ.binding x with
    | none =>
      rw [hx] at hy
      exact absurd (σ.lt_next y _ hy) (by simp)
    | some d =>
      rw [hx] at hy
      exact h ⟨d, hx, hy⟩

/-- What a variable holds once it is shared. -/
def shared (σ : Environment) (y : Index) : Option Scalar :=
  if σ.isBound y then σ.read y else some .null

theorem read_create (y z : Index) :
    (if σ.isBound y then σ else σ.write y (some .null)).read z =
      if z = y then σ.shared y else σ.read z := by
  unfold shared
  by_cases hy : σ.isBound y = true
  · rw [if_pos hy, if_pos hy]
    split
    · next h => rw [h]
    · rfl
  · rw [if_neg hy, if_neg hy]
    split
    · next h => rw [h, read_write_self]
    · next h => exact read_write_of_not_sameSlot h fun hs => hy hs.isBound

theorem read_share : (σ.share x y).read z = if z = x ∨ z = y then σ.shared y else σ.read z := by
  have hrebind (τ : Environment) :
    (τ.rebind x y).read z = if z = x then τ.read y else τ.read z := by
    unfold read rebind
    dsimp only
    split <;> rfl
  unfold share
  rw [hrebind, read_create, read_create, if_pos rfl]
  by_cases hx : z = x <;> by_cases hy : z = y <;> simp [hx, hy]

theorem isBound_share :
    (σ.share x y).isBound z = true ↔ z = x ∨ z = y ∨ σ.isBound z = true := by
  have hcreated (w : Index) : (if σ.isBound y then σ else σ.write y (some .null)).isBound w = true ↔
      w = y ∨ σ.isBound w = true := by
    split
    · next h =>
      refine ⟨.inr, ?_⟩
      rintro (rfl | hw)
      · exact h
      · exact hw
    · exact isBound_write
  have hrebind (τ : Environment) : (τ.rebind x y).isBound z =
      if z = x then τ.isBound y else τ.isBound z := by
    unfold isBound rebind
    dsimp only
    split <;> rfl
  unfold share
  rw [hrebind]
  split
  · next h => simp [h, hcreated]
  · next h => simp [h, hcreated]

/-- The variable that is bound leaves its slot for that of the other one. -/
theorem sameSlot_share {w : Index} : (σ.share x y).SameSlot z w ↔
    (z = x ∨ z = y ∨ σ.SameSlot z y) ∧ (w = x ∨ w = y ∨ σ.SameSlot w y) ∨
      z ≠ x ∧ w ≠ x ∧ σ.SameSlot z w := by
  have hcreated (u v : Index) :
      (if σ.isBound y then σ else σ.write y (some .null)).SameSlot u v ↔
        σ.SameSlot u v ∨ u = y ∧ v = y := by
    split
    · next h =>
      refine ⟨.inl, ?_⟩
      rintro (hs | ⟨rfl, rfl⟩)
      · exact hs
      · exact sameSlot_self.2 h
    · exact sameSlot_write
  have hrebind (τ : Environment) : (τ.rebind x y).SameSlot z w ↔
      τ.SameSlot (if z = x then y else z) (if w = x then y else w) := by
    unfold SameSlot rebind
    dsimp only
    split <;> split <;> rfl
  have hsymm (u v : Index) : σ.SameSlot u v ↔ σ.SameSlot v u := ⟨.symm, .symm⟩
  have htrans : σ.SameSlot z y → σ.SameSlot w y → σ.SameSlot z w := fun hz hw => hz.trans hw.symm
  unfold share
  rw [hrebind, hcreated]
  by_cases hz : z = x <;> by_cases hw : w = x
  · simp [hz, hw]
  · rw [if_pos hz, if_neg hw, hsymm y w]
    simp [hz, hw, or_comm]
  · rw [if_neg hz, if_pos hw]
    simp [hz, hw, or_comm]
  · rw [if_neg hz, if_neg hw]
    constructor
    · rintro (hs | ⟨rfl, rfl⟩)
      · exact .inr ⟨hz, hw, hs⟩
      · exact .inl ⟨.inr (.inl rfl), .inr (.inl rfl)⟩
    · rintro (⟨h, h'⟩ | ⟨-, -, hs⟩)
      · rcases h.resolve_left hz with rfl | hzy
        · rcases h'.resolve_left hw with rfl | hwy
          · exact .inr ⟨rfl, rfl⟩
          · exact .inl hwy.symm
        · rcases h'.resolve_left hw with rfl | hwy
          · exact .inl hzy
          · exact .inl (htrans hzy hwy)
      · exact .inl hs

variable {gone : Index → Bool}

theorem read_unbind : (σ.unbind gone).read x = if gone x then none else σ.read x := by
  unfold read unbind
  dsimp only
  split <;> rfl

theorem isBound_unbind :
    (σ.unbind gone).isBound x = true ↔ gone x = false ∧ σ.isBound x = true := by
  unfold isBound unbind
  dsimp only
  by_cases h : gone x = true <;> simp [h]

theorem sameSlot_unbind : (σ.unbind gone).SameSlot x y ↔
    gone x = false ∧ gone y = false ∧ σ.SameSlot x y := by
  unfold SameSlot unbind
  dsimp only
  by_cases hx : gone x = true <;> by_cases hy : gone y = true <;> simp [hx, hy]

end Environment
end ScriptMemory
