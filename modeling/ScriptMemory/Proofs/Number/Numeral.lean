import Mathlib.Tactic.Ring
import ScriptMemory.Number.Numeral

/-! Digits read back: the digits of a natural give the natural, and the text of a 64-bit integer the
integer. -/
namespace ScriptMemory.Numeral

theorem natural_toDigits (n : Nat) : natural (Nat.toDigits 10 n) = n :=
  Nat.ofDigitChars_ten_toDigits

theorem isDigit_of_mem_toDigits {n : Nat} {c : Char} (hc : c ∈ Nat.toDigits 10 n) :
    isDigit c = true := by
  have h := Nat.isDigit_of_mem_toDigits (by decide) (le_refl 10) hc
  simpa [isDigit, Char.isDigit, Char.le_def] using h

/-- A minus sign, if there is one. -/
def sign (negative : Bool) : List Char :=
  if negative then ['-'] else []

/-- The text of an integer: its digits, with a minus sign in front if it is negative. -/
theorem toList_toString (n : Int) :
    (toString n).toList = sign (n < 0) ++ Nat.toDigits 10 n.natAbs := by
  rw [Int.toString_eq_repr, Int.repr_eq_if]
  unfold sign
  split
  · next h =>
    rw [Nat.toList_repr, if_neg (by simpa using h), show n.toNat = n.natAbs by omega]
    rfl
  · next h =>
    rw [String.toList_append, Nat.toList_repr, if_pos (by simpa using h),
      show (-n).toNat = n.natAbs by omega]
    rfl

theorem splitSign_sign (negative : Bool) {ds : List Char}
    (hds : ∀ c ∈ ds, isDigit c = true) : splitSign (sign negative ++ ds) = (negative, ds) := by
  cases negative with
  | true => rfl
  | false =>
    change splitSign ds = (false, ds)
    unfold splitSign
    split
    · exact absurd (hds '-' List.mem_cons_self) (by decide)
    · rfl

/-- Every 64-bit integer fits. -/
theorem fit?_toInt (n : Int64) : fit? n.toInt = some n := by
  unfold fit?
  rw [if_pos ⟨n.minValue_le_toInt, n.toInt_le⟩, Int64.ofInt_toInt]

theorem integer?_toString (n : Int64) : integer? (toString n.toInt).toList = some n := by
  rw [toList_toString]
  unfold integer?
  rw [splitSign_sign _ fun c => isDigit_of_mem_toDigits]
  dsimp only
  rw [natural_toDigits, ← fit?_toInt n]
  congr 1
  split
  · next h =>
    have : n.toInt < 0 := by simpa using h
    omega
  · next h =>
    have : ¬ n.toInt < 0 := by simpa using h
    omega

end ScriptMemory.Numeral
