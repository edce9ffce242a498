import ScriptMemory.Listing.Declaration
import ScriptMemory.Settings

/-! The command line: analyse a listing, check one, or show the remembered limits. -/
namespace ScriptMemory.CommandLine

/-- The options of an analysis. -/
structure Options where
  widening : Option Nat := none
  simplify : Option Nat := none
  maxSteps : Option Nat := none
  maxCallDepth : Option Nat := none
  /-- Remember the limits. -/
  save : Bool := false
  /-- Print the memory at the end of the script. -/
  dump : Bool := false
  /-- Print the counters. -/
  stats : Bool := false
deriving DecidableEq

inductive Command where
  | analyze (file : String) (options : Options)
  | check (file : String)
  | config
deriving DecidableEq

/-- An unsigned 64-bit number, possibly after a plus sign. -/
def count? (text : String) : Option Nat :=
  let digits := match text.toList with
    | '+' :: rest => rest
    | cs => cs
  if digits.isEmpty || !digits.all Numeral.isDigit then none
  else (Numeral.unsigned? digits).map UInt64.toNat

/-- Sets an option that takes a number; it can be given once. -/
def Options.set? (o : Options) (name : String) (n : Nat) : Option Options :=
  match name with
  | "--widening-limit" => if o.widening.isSome then none else some { o with widening := some n }
  | "--simplify-limit" => if o.simplify.isSome then none else some { o with simplify := some n }
  | "--max-steps" => if o.maxSteps.isSome then none else some { o with maxSteps := some n }
  | "--max-call-depth" =>
    if o.maxCallDepth.isSome then none else some { o with maxCallDepth := some n }
  | _ => none

/-- Sets a flag; it can be given once. -/
def Options.flag? (o : Options) : String → Option Options
  | "--save" => if o.save then none else some { o with save := true }
  | "--dump" => if o.dump then none else some { o with dump := true }
  | "--stats" => if o.stats then none else some { o with stats := true }
  | _ => none

/-- The option and the value in an argument that has both. -/
def splitValue? (arg : String) : Option (String × String) :=
  let cs := arg.toList
  if cs.contains '=' then
    some (String.ofList (cs.takeWhile (· ≠ '=')), String.ofList ((cs.dropWhile (· ≠ '=')).drop 1))
  else none

/-- Arguments read so far. -/
structure Arguments where
  options : Options := {}
  file : Option String := none
  /-- The option whose value comes next. -/
  awaiting : Option String := none
  /-- Two dashes have passed: no further argument is an option. -/
  closed : Bool := false
deriving DecidableEq

namespace Arguments

def set? (a : Arguments) (name value : String) : Option Arguments := do
  some { a with options := ← a.options.set? name (← count? value), awaiting := none }

/-- The file to read has to be named, and only once. -/
def file? (a : Arguments) (name : String) : Option Arguments :=
  if a.file.isSome || name.isEmpty then none else some { a with file := some name }

def read? (a : Arguments) (arg : String) : Option Arguments :=
  match a.awaiting with
  | some name => a.set? name arg
  | none =>
    if a.closed || arg = "-" || !arg.startsWith "-" then a.file? arg
    else if arg = "--" then some { a with closed := true }
    else
      match a.options.flag? arg, splitValue? arg with
      | some options, _ => some { a with options }
      | none, some (name, value) => a.set? name value
      | none, none => some { a with awaiting := some arg }

def ofList? (args : List String) : Option Arguments := do
  let a ← args.foldlM read? {}
  if a.awaiting.isSome then none else some a

end Arguments

/-- The command that some arguments ask for. -/
def parse? : List String → Option Command
  | "analyze" :: args => do
    let a ← Arguments.ofList? args
    some (.analyze (← a.file) a.options)
  | "check" :: args => do
    let a ← Arguments.ofList? args
    if a.options = {} then some (.check (← a.file)) else none
  | "config" :: args => do
    let a ← Arguments.ofList? args
    if a.options = {} ∧ a.file = none then some .config else none
  | _ => none

/-- What a run prints, and what it remembers. -/
structure Outcome where
  exitCode : Nat := 0
  output : String := ""
  error : Option String := none
  remembered : Option AnalysisConfig := none

/-- The outcome of arguments that ask for no command. -/
def usage : Outcome :=
  { exitCode := 2, error := some "usage: analyze FILE [OPTIONS] | check FILE | config" }

def failure (message : String) : Outcome :=
  { exitCode := 1, error := some ("Error: " ++ message) }

/-- The remembered limits with those of the options in their place. -/
def override (stored : AnalysisConfig) (o : Options) : AnalysisConfig where
  limits := {
    widening := o.widening <|> stored.limits.widening
    simplify := o.simplify <|> stored.limits.simplify }
  maxSteps := o.maxSteps.getD stored.maxSteps
  maxCallDepth := o.maxCallDepth.getD stored.maxCallDepth

/-- What is printed of a finished analysis. -/
def reportText (r : Report) (o : Options) : String :=
  String.join (r.warnings.map fun f => f.text ++ "\n") ++
  (if o.dump then
    match r.exit? with
    | some s => s.memory.dump ++ "\n"
    | none => "end of script is unreachable\n"
  else "") ++
  (if o.stats then
    String.join (r.statistics.toList.map fun (s, n) => s.name ++ ": " ++ toString n ++ "\n") ++
      "steps: " ++ toString r.steps ++ "\n"
  else "")

/-- Analyses a program. -/
def analysisOf (config : AnalysisConfig) (o : Options) (p : Program) : Outcome :=
  match Analysis.run { program := p, config } .empty with
  | .error e => failure e.message
  | .ok r => { output := reportText r o }

/-- The graph of a function, a line for each node. -/
def graphText (f : Function) : String :=
  "function " ++ f.name ++ ":\n" ++
    String.join (f.graph.nodes.zipIdx.map fun (node, i) =>
      let targets := (f.graph.successors i).filterMap fun j =>
        (f.graph.label? j).map fun l => toString l.toNat
      "  " ++ toString node.label.toNat ++ ": " ++ node.statement.text ++ " -> [" ++
        ", ".intercalate targets ++ "]\n")

/-- Shows the graphs of a program. -/
def graphsOf (p : Program) : Outcome :=
  { output := String.join (p.functions.toList.map fun (_, f) => graphText f) }

/-- Reads the listing in a file, which holds `text` if it can be read, and goes on with it. -/
def withListing (file : String) (text : Option String) (go : Program → Outcome) : Outcome :=
  match text with
  | none => failure ("reading " ++ file)
  | some text =>
    match Listing.read text with
    | .error _ => failure ("parsing " ++ file)
    | .ok p => go p

/-- Runs a command with the limits remembered before. `contents` is what files hold. Limits
are remembered even if the listing then turns out to be bad. -/
def Command.run (stored : AnalysisConfig) (contents : String → Option String) :
    Command → Outcome
  | .config => { output := Settings.text stored ++ "\n" }
  | .check file => withListing file (contents file) graphsOf
  | .analyze file o =>
    let config := override stored o
    if o.save && (Settings.storedText? config).isNone then
      failure "Failed to serialize configuration data into TOML"
    else
      { withListing file (contents file) (analysisOf config o) with
        remembered := if o.save then some config else none }

/-- The file a command reads. -/
def Command.file? : Command → Option String
  | .analyze file _ | .check file => some file
  | .config => none

end ScriptMemory.CommandLine
