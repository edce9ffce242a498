import Mathlib.Algebra.Order.Field.Power
import Mathlib.Algebra.Order.Field.Rat
import Mathlib.Data.Int.Log
import Mathlib.Data.Rat.Cast.Order
import Mathlib.Data.Rat.Floor
import Mathlib.Tactic.FieldSimp
import Mathlib.Tactic.Linarith
import Mathlib.Tactic.NormNum
import Mathlib.Tactic.Positivity
import Mathlib.Tactic.Ring
import ScriptMemory.Number.Shortest

/-! Rounding to binary64. A positive number with significand `m` and exponent `q` is the nearest one
to a rational exactly if the rational lies between the ends of its rounding interval; between them,
the powers and quotients that rounding computes with single the number out. -/
namespace ScriptMemory.Binary64

/-- The significand and the exponent of a finite positive number. -/
structure IsParts (m : Nat) (q : Int) : Prop where
  pos : 0 < m
  lt : m < 2 * hiddenBit
  least : -1074 ≤ q
  greatest : q ≤ 971
  normal : -1074 < q → hiddenBit ≤ m

/-- The rational lies in the rounding interval of a number. Its ends belong to it if the significand
is even. -/
structure Rounds (m : Nat) (q : Int) (r : ℚ) : Prop where
  lower : ((roundingEnds m q).1 : ℚ) ≤ 4 * (r / 2 ^ q)
  upper : 4 * (r / 2 ^ q) ≤ (roundingEnds m q).2
  odd : m % 2 = 1 → ((roundingEnds m q).1 : ℚ) < 4 * (r / 2 ^ q) ∧
    4 * (r / 2 ^ q) < (roundingEnds m q).2

namespace Rounds
variable {m : Nat} {q : Int} {r : ℚ}

/-- The rational is at most half a unit off. -/
theorem near (h : Rounds m q r) (hm : 0 < m) :
    (m : ℚ) - 1 / 2 ≤ r / 2 ^ q ∧ r / 2 ^ q ≤ m + 1 / 2 ∧
      (m % 2 = 1 → (m : ℚ) - 1 / 2 < r / 2 ^ q ∧ r / 2 ^ q < m + 1 / 2) := by
  have hlow : (4 * m - 2 : ℚ) ≤ (roundingEnds m q).1 := by
    have hle : 4 * m ≤ (roundingEnds m q).1 + 2 := by
      unfold roundingEnds
      dsimp only
      split <;> omega
    have hle' : (4 * m : ℚ) ≤ (roundingEnds m q).1 + 2 := by exact_mod_cast hle
    linarith
  have hup : ((roundingEnds m q).2 : ℚ) = 4 * m + 2 := by
    unfold roundingEnds
    push_cast
    rfl
  obtain ⟨hl, hu, ho⟩ := h
  refine ⟨by linarith, by linarith, fun hodd => ?_⟩
  obtain ⟨hl', hu'⟩ := ho hodd
  constructor <;> linarith

/-- Below a power of two it is at most a quarter of a unit off. -/
theorem near_hiddenBit (h : Rounds hiddenBit q r) (hq : -1074 < q) :
    (hiddenBit : ℚ) - 1 / 4 ≤ r / 2 ^ q := by
  have hlow : ((roundingEnds hiddenBit q).1 : ℚ) = 4 * hiddenBit - 1 := by
    unfold roundingEnds
    rw [if_pos ⟨rfl, hq⟩]
    norm_num [hiddenBit]
  have hl := h.lower
  rw [hlow] at hl
  linarith

theorem pos (h : Rounds m q r) (hm : 0 < m) : 0 < r := by
  have hm' : (1 : ℚ) ≤ m := by exact_mod_cast hm
  have hy : 0 < r / 2 ^ q := by linarith [(h.near hm).1]
  have hp : (0 : ℚ) < 2 ^ q := by positivity
  exact (div_pos_iff_of_pos_right hp).1 hy

end Rounds

section Nearest
variable {m num den : Nat} {q : Int}

end Nearest

end ScriptMemory.Binary64
