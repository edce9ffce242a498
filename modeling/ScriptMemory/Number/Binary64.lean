import ScriptMemory.Ordered

/-! Binary64 numbers as sign and magnitude bits, in their total order, and the nearest such number
to a ratio of naturals. The magnitude bits of a finite number count upwards with its absolute
value, so rounding is arithmetic on naturals. -/
namespace ScriptMemory
open Std

/-- A binary64 number: its sign and the other 63 bits. -/
structure Binary64 where
  negative : Bool
  magnitude : BitVec 63
deriving DecidableEq

namespace Binary64

/-- The place in the total order: NaNs of either sign lie outside the infinities, and `-0.0` comes
right before `0.0`. -/
def place (x : Binary64) : Int :=
  if x.negative then -1 - (x.magnitude.toNat : Int) else x.magnitude.toNat

theorem place_injective (x y : Binary64) (h : x.place = y.place) : x = y := by
  obtain ⟨nx, mx⟩ := x
  obtain ⟨ny, my⟩ := y
  unfold place at h
  cases nx <;> cases ny <;> simp only [Bool.false_eq_true, if_false, if_true] at h
  · simp [BitVec.toNat_eq]; omega
  · omega
  · omega
  · simp [BitVec.toNat_eq]; omega

instance : Ord Binary64 := ⟨compareOn place⟩
instance : TransOrd Binary64 := inferInstanceAs (TransCmp (compareOn place))
instance : LawfulEqOrd Binary64 := compareOn_lawfulEqCmp place_injective

/-- The bits of infinity, just above the largest finite magnitude. -/
def infinity : BitVec 63 := 0x7ff0000000000000

/-- The quiet NaN without payload. -/
def nan : Binary64 := ⟨false, 0x7ff8000000000000⟩

/-- The place value of the bit before the 52 stored bits of a significand. Normal numbers have it
set, and their exponents count in steps of it. -/
def hiddenBit : Nat := 0x10000000000000

/-- A finite magnitude as `significand * 2 ^ exponent`; subnormal numbers share the least
exponent. -/
def parts (magnitude : BitVec 63) : Nat × Int :=
  let biased := magnitude.toNat / hiddenBit
  let fraction := magnitude.toNat % hiddenBit
  if biased = 0 then (fraction, -1074) else (fraction + hiddenBit, (biased : Int) - 1075)

/-- `n` times the power of `base` with exponent `e`, where a negative `e` counts as zero. -/
def raise (base : Nat) (e : Int) (n : Nat) : Nat :=
  n * Nat.pow base e.toNat

/-- The quotient rounded to the nearest natural, a half to the even one. -/
def roundHalfEven (num den : Nat) : Nat :=
  let q := num / den
  let r := num % den
  if 2 * r < den then q else if den < 2 * r then q + 1 else q + q % 2

/-- The exponent `e` with `2 ^ e ≤ num / den < 2 ^ (e + 1)`. -/
def floorLog2 (num den : Nat) : Int :=
  let e : Int := (num.log2 : Int) - den.log2
  if raise 2 e den ≤ raise 2 (-e) num then e else e - 1

/-- The magnitude nearest to `num / den`, a tie to the even significand. -/
def nearest (num den : Nat) : BitVec 63 :=
  if num = 0 then 0
  else
    let e := max (-1074) (floorLog2 num den - 52)
    let m := roundHalfEven (raise 2 (-e) num) (raise 2 e den)
    -- a significand rounded up to the next power of two carries into the exponent
    .ofNat 63 (min (m + (e + 1074).toNat * hiddenBit) infinity.toNat)

/-- The magnitude nearest to `coefficient * 10 ^ exponent`. Far outside the finite range the answer
is known without computing the power. -/
def nearestDecimal (coefficient : Nat) (exponent : Int) : BitVec 63 :=
  if coefficient = 0 then 0
  else if 400 < exponent then infinity
  else if exponent + (coefficient.log2 : Int) < -1100 then 0
  else nearest (raise 10 exponent coefficient) (raise 10 (-exponent) 1)

end Binary64
end ScriptMemory
