import ScriptMemory.CommandLine

/-! The program: it reads the remembered limits and the listing, runs the command, prints what
came of it and stores the limits to remember. -/
namespace ScriptMemory.Main

/-- The text of a file, if it can be read. -/
def readText (path : String) : IO (Option String) :=
  try return some (← IO.FS.readFile path) catch _ => return none

/-- The directory that remembered limits are stored in. -/
def settingsDirectory : IO String := do
  match ← IO.getEnv "XDG_CONFIG_HOME" with
  | some home => return home ++ "/script-memory"
  | none => return (← IO.getEnv "HOME").getD "." ++ "/.config/script-memory"

/-- The limits remembered before, if they are stored in good form. -/
def remembered : IO (Option AnalysisConfig) := do
  match ← readText ((← settingsDirectory) ++ "/settings.toml") with
  | some text => return Settings.read? text
  | none => return some {}

def remember (c : AnalysisConfig) : IO Unit := do
  let directory ← settingsDirectory
  IO.FS.createDirAll directory
  IO.FS.writeFile (directory ++ "/settings.toml") ((Settings.storedText? c).getD "")

/-- Prints an outcome and returns the exit code. -/
def finish (o : CommandLine.Outcome) : IO UInt32 := do
  IO.print o.output
  if let some message := o.error then IO.eprintln message
  if let some c := o.remembered then remember c
  return o.exitCode.toUInt32

def run (args : List String) : IO UInt32 := do
  match CommandLine.parse? args with
  | none => finish CommandLine.usage
  | some command =>
    match ← remembered with
    | none => finish (CommandLine.failure "Bad TOML data")
    | some stored =>
      let text ← match command.file? with
        | some file => readText file
        | none => pure none
      finish (command.run stored fun _ => text)

end ScriptMemory.Main

def main (args : List String) : IO UInt32 :=
  ScriptMemory.Main.run args
