import ScriptMemory.Number.Binary64

/-! Numbers read from their decimal digits: 64-bit integers, which refuse what does not fit, and
binary64 numbers, which round. -/
namespace ScriptMemory.Numeral

def isDigit (c : Char) : Bool :=
  '0' ≤ c && c ≤ '9'

/-- The number written by decimal digits. -/
def natural (digits : List Char) : Nat :=
  digits.foldl (fun n c => 10 * n + (c.toNat - '0'.toNat)) 0

/-- A minus sign, if there is one, apart from the rest. -/
def splitSign : List Char → Bool × List Char
  | '-' :: rest => (true, rest)
  | cs => (false, cs)

/-- The signed 64-bit integer equal to `n`, if there is one. -/
def fit? (n : Int) : Option Int64 :=
  if Int64.minValue.toInt ≤ n ∧ n ≤ Int64.maxValue.toInt then some (Int64.ofInt n) else none

/-- A signed 64-bit integer from an optional minus sign and digits. -/
def integer? (cs : List Char) : Option Int64 :=
  let (negative, digits) := splitSign cs
  fit? (if negative then -(natural digits : Int) else natural digits)

/-- An unsigned 64-bit number from digits. -/
def unsigned? (digits : List Char) : Option UInt64 :=
  let n := natural digits
  if n < UInt64.size then some (UInt64.ofNat n) else none

/-- A plus or minus sign and at least one digit, or digits alone. -/
def exponent? (cs : List Char) : Option Int :=
  let (negative, digits) := match cs with
    | '+' :: rest => (false, rest)
    | cs => splitSign cs
  if digits.isEmpty || !digits.all isDigit then none
  else some (if negative then -(natural digits : Int) else natural digits)

/-- The number nearest to a decimal numeral: an optional minus sign, digits, and possibly a point
with more digits and an exponent. The words `inf` and `NaN` are numbers too. -/
def binary64? (cs : List Char) : Option Binary64 :=
  let (negative, cs) := splitSign cs
  if cs = ['i', 'n', 'f'] then some ⟨negative, Binary64.infinity⟩
  else if cs = ['N', 'a', 'N'] then some ⟨negative, Binary64.nan.magnitude⟩
  else
    let whole := cs.takeWhile isDigit
    let cs := cs.drop whole.length
    let (fraction, cs) := match cs with
      | '.' :: rest => (rest.takeWhile isDigit, rest.dropWhile isDigit)
      | cs => ([], cs)
    let exponent := match cs with
      | [] => some 0
      | c :: rest => if c = 'e' || c = 'E' then exponent? rest else none
    if whole.isEmpty && fraction.isEmpty then none
    else exponent.map fun e =>
      ⟨negative, Binary64.nearestDecimal (natural (whole ++ fraction)) (e - fraction.length)⟩

end ScriptMemory.Numeral
