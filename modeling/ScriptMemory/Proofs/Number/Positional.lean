import ScriptMemory.Proofs.Number.Shortest

/-! Which numbers are written with a point in its place. The exponent that decides is that of the
shortest decimal, so a number is compared with a power of ten by way of rounding intervals: those of
two numbers lie side by side, in the order of the numbers. -/
namespace ScriptMemory

namespace Numeral

end Numeral

namespace Binary64
variable {m m' : Nat} {q q' k : Int} {r s : ℚ}

/-- What rounds to a number is not above what rounds to a larger one. -/
theorem Rounds.le_of_lt (hr : Rounds m q r) (hs : Rounds m' q' s) (h : IsParts m q)
    (h' : IsParts m' q')
    (hlt : m + (q + 1074).toNat * hiddenBit < m' + (q' + 1074).toNat * hiddenBit) : r ≤ s := by
  have hp : (0 : ℚ) < 2 ^ q := by positivity
  have hp' : (0 : ℚ) < 2 ^ q' := by positivity
  have hup : r ≤ (m + 1 / 2) * 2 ^ q := (div_le_iff₀ hp).1 (hr.near h.pos).2.1
  have hlow : ((m' : ℚ) - 1 / 2) * 2 ^ q' ≤ s := (le_div_iff₀ hp').1 (hs.near h'.pos).1
  rcases lt_trichotomy q q' with hq | rfl | hq
  · have hnormal := h'.normal (lt_of_le_of_lt h.least hq)
    have hbound : (m : ℚ) + 1 ≤ 2 * hiddenBit := by exact_mod_cast h.lt
    have hdouble : (2 : ℚ) * 2 ^ q ≤ 2 ^ q' := by
      rw [← zpow_one_add₀ two_ne_zero]
      exact zpow_le_zpow_right₀ one_le_two (by omega)
    have hquarter : (hiddenBit : ℚ) - 1 / 4 ≤ s / 2 ^ q' := by
      rcases hnormal.eq_or_lt with rfl | hlarge
      · exact hs.near_hiddenBit (lt_of_le_of_lt h.least hq)
      · have hlarge' : (hiddenBit : ℚ) + 1 ≤ m' := by exact_mod_cast hlarge
        have hnear := (hs.near h'.pos).1
        linarith
    have hpos : (0 : ℚ) ≤ hiddenBit - 1 / 4 := by norm_num [hiddenBit]
    calc r ≤ (m + 1 / 2) * 2 ^ q := hup
      _ ≤ (2 * hiddenBit - 1 / 2) * 2 ^ q := by gcongr; linarith
      _ = (hiddenBit - 1 / 4) * (2 * 2 ^ q) := by ring
      _ ≤ (hiddenBit - 1 / 4) * 2 ^ q' := by gcongr
      _ ≤ s := (le_div_iff₀ hp').1 hquarter
  · have hm : (m : ℚ) + 1 ≤ m' := by exact_mod_cast (by omega : m + 1 ≤ m')
    calc r ≤ (m + 1 / 2) * 2 ^ q := hup
      _ ≤ (m' - 1 / 2) * 2 ^ q := by gcongr; linarith
      _ ≤ s := hlow
  · -- the number with the larger exponent is the larger one
    have hnormal := h.normal (lt_of_le_of_lt h'.least hq)
    have hbound := h'.lt
    have hleast := h'.least
    simp only [hiddenBit] at *
    omega

/-- The power of ten of the first digit of a magnitude. -/
def exponent (x : BitVec 63) : Int :=
  (significantDigits (parts x).1 (parts x).2).2

variable {x y : BitVec 63}

/-- The number is zero, or from `10 ^ -4` up to `10 ^ 16`. -/
def InPlace (x : Binary64) : Prop :=
  x.magnitude = 0 ∨
    nearestDecimal 1 (-4) ≤ x.magnitude ∧ x.magnitude < nearestDecimal 1 16

theorem InPlace.finite {x : Binary64} (h : x.InPlace) : x.magnitude < infinity := by
  rcases h with hzero | ⟨-, hlt⟩
  · rw [hzero]
    decide
  · have hbound : nearestDecimal 1 16 < infinity := by decide +kernel
    exact BitVec.lt_def.2 ((BitVec.lt_def.1 hlt).trans (BitVec.lt_def.1 hbound))

end Binary64
end ScriptMemory
