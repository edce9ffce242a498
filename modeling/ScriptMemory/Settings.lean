import ScriptMemory.Analysis
import ScriptMemory.Number.Numeral

/-! Remembered limits of the analysis: the text of the file they are stored in, and the text they
are shown as. A stored number is a signed 64-bit integer. -/
namespace ScriptMemory.Settings

/-- A number as it is stored, if it can be. -/
def number? (n : Nat) : Option String :=
  (Numeral.fit? n).map fun i => toString i.toInt

/-- The line of one key; a limit that is missing has none. -/
def limitLine? (key : String) : Option Nat → Option String
  | none => some ""
  | some n => (number? n).map fun digits => key ++ " = " ++ digits ++ "\n"

/-- The text that a configuration is stored as, if every number of it can be stored. -/
def storedText? (c : AnalysisConfig) : Option String := do
  return "[analysis]\n" ++ (← limitLine? "max_steps" (some c.maxSteps)) ++
    (← limitLine? "max_call_depth" (some c.maxCallDepth)) ++ "\n[analysis.snapshot]\n" ++
    (← limitLine? "widening_limit" c.limits.widening) ++
    (← limitLine? "simplify_limit" c.limits.simplify)

/-- The meaning of one stored line: a blank one, a section or a comment says nothing. -/
def readLine? (c : AnalysisConfig) (line : String) : Option AnalysisConfig :=
  let cs := line.toList.filter fun ch => !ch.isWhitespace
  if cs.isEmpty || cs.head? = some '[' || cs.head? = some '#' then some c
  else
    let key := String.ofList (cs.takeWhile (· ≠ '='))
    let digits := (cs.dropWhile (· ≠ '=')).drop 1
    if digits.isEmpty || !digits.all Numeral.isDigit then none
    else
      let n := Numeral.natural digits
      match key with
      | "max_steps" => some { c with maxSteps := n }
      | "max_call_depth" => some { c with maxCallDepth := n }
      | "widening_limit" => some { c with limits := { c.limits with widening := some n } }
      | "simplify_limit" => some { c with limits := { c.limits with simplify := some n } }
      | _ => none

/-- Reads a stored configuration. A limit that is not stored is unbounded. -/
def read? (text : String) : Option AnalysisConfig :=
  (text.splitOn "\n").foldlM readLine? { limits := {} }

def limitText : Option Nat → String
  | none => "None"
  | some n => "Some(\n            " ++ toString n ++ ",\n        )"

/-- The text that a configuration is shown as. -/
def text (c : AnalysisConfig) : String :=
  "AnalysisConfig \x7b\n" ++
  "    snapshot: SnapshotConfig \x7b\n" ++
  "        widening_limit: " ++ limitText c.limits.widening ++ ",\n" ++
  "        simplify_limit: " ++ limitText c.limits.simplify ++ ",\n" ++
  "    \x7d,\n" ++
  "    max_steps: " ++ toString c.maxSteps ++ ",\n" ++
  "    max_call_depth: " ++ toString c.maxCallDepth ++ ",\n" ++
  "\x7d"

end ScriptMemory.Settings
