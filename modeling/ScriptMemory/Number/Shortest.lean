import ScriptMemory.Number.Binary64

/-! The shortest decimal text of a binary64 number. The decimals that round to a finite number
form an interval; on the grids of one, two, … seventeen significant digits the first one with a
point in the interval gives the digits, the point nearer to the number if there are two. -/
namespace ScriptMemory.Binary64

/-- The ends of the interval of reals that round to `m * 2 ^ q`, in units of `2 ^ (q - 2)`. The
gap below a power of two is half as wide. -/
def roundingEnds (m : Nat) (q : Int) : Nat × Nat :=
  (if m = hiddenBit ∧ -1074 < q then 4 * m - 1 else 4 * m - 2, 4 * m + 2)

/-- Whether `d * 10 ^ k` rounds to `m * 2 ^ q`. The ends belong to the interval of an even `m`. -/
def roundsTo (m : Nat) (q : Int) (d : Nat) (k : Int) : Bool :=
  let decimal := raise 10 k (raise 2 (2 - q) d)
  let lower := raise 2 (q - 2) (raise 10 (-k) (roundingEnds m q).1)
  let upper := raise 2 (q - 2) (raise 10 (-k) (roundingEnds m q).2)
  if m % 2 = 0 then lower ≤ decimal && decimal ≤ upper else lower < decimal && decimal < upper

/-- The point of the grid `10 ^ k` that rounds to `m * 2 ^ q` and lies nearest to it; of two equally
near points the upper one. -/
def gridPoint? (m : Nat) (q : Int) (k : Int) : Option Nat :=
  let num := raise 2 q (raise 10 (-k) m)
  let den := raise 2 (-q) (raise 10 k 1)
  let down := num / den
  match roundsTo m q down k, roundsTo m q (down + 1) k with
  | true, true => some (if 2 * (num % den) < den then down else down + 1)
  | true, false => some down
  | false, true => some (down + 1)
  | false, false => none

/-- The exponent `e` with `10 ^ e ≤ m * 2 ^ q < 10 ^ (e + 1)`. The scaling makes every finite
positive number at least one. -/
def decade (m : Nat) (q : Int) : Int :=
  -- no finite positive number is below 10 ^ -400
  let scaled := raise 2 q (raise 10 400 m) / raise 2 (-q) 1
  ((Nat.toDigits 10 scaled).length : Int) - 401

/-- The shortest decimal `d * 10 ^ k` that rounds to `m * 2 ^ q`. -/
def shortest (m : Nat) (q : Int) : Nat × Int :=
  let e := decade m q
  ((List.range 17).findSome? fun (n : Nat) => (gridPoint? m q (e - n)).map (·, e - n)).getD (m, q)

/-- The digits without trailing zeros, and the power of ten of the first one. -/
def significantDigits (m : Nat) (q : Int) : List Char × Int :=
  let (d, k) := shortest m q
  let digits := Nat.toDigits 10 d
  ((digits.reverse.dropWhile (· = '0')).reverse, k + digits.length - 1)

/-- Digits with the point after the first one and the exponent written out. -/
def scientific (digits : List Char) (e : Int) : List Char :=
  let fraction := digits.drop 1
  digits.take 1 ++ (if fraction.isEmpty then [] else '.' :: fraction) ++ 'e' :: (toString e).toList

/-- Digits with the point in its place; there is at least one digit on either side of it. -/
def positional (digits : List Char) (e : Int) : List Char :=
  if e < 0 then
    ['0', '.'] ++ List.replicate (-e - 1).toNat '0' ++ digits
  else
    let n := e.toNat + 1
    let fraction := digits.drop n
    digits.take n ++ List.replicate (n - digits.length) '0' ++
      '.' :: (if fraction.isEmpty then ['0'] else fraction)

/-- The point is written in its place from `10 ^ -4` up to `10 ^ 16`. -/
def finiteText (magnitude : BitVec 63) : List Char :=
  if magnitude = 0 then ['0', '.', '0']
  else
    let (m, q) := parts magnitude
    let (digits, e) := significantDigits m q
    if -4 ≤ e ∧ e < 16 then positional digits e else scientific digits e

/-- The text of a number; the sign of zero is kept, that of a NaN is not. -/
def text (x : Binary64) : String :=
  if infinity < x.magnitude then "NaN"
  else
    let digits := if x.magnitude = infinity then ['i', 'n', 'f'] else finiteText x.magnitude
    String.ofList (if x.negative then '-' :: digits else digits)

end ScriptMemory.Binary64
