import ScriptMemory.Listing.Phrase
import ScriptMemory.Program

/-! Nodes, functions, classes and whole listings. A node without a list of successors flows into the
next node of its function; an exit flows nowhere and a return flows to the exit. -/
namespace ScriptMemory.Listing

/-- A node as listed: its successors are given only where the listing has a list of them. -/
structure ListedNode where
  label : Label
  statement : Statement
  successors? : Option (List Label)
deriving DecidableEq

def successors : Reader (Checked (List Label)) := fun cs => do
  let (labels, cs) ← separated label (blank (← strip "->" cs))
  pure (labels.mapM id, cs)

/-- A label, a colon and a statement. -/
def labelled : Reader (Checked Label × Checked Statement) := fun cs => do
  let (l, cs) ← label cs
  let (s, cs) ← statement (blank (← strip ":" (blank cs)))
  pure ((l, s), cs)

def node : Reader (Checked ListedNode) := fun cs => do
  let ((l, s), cs) ← labelled cs
  let (targets, cs) := optional successors (blank cs)
  let meaning := do
    let l ← l
    let s ← s
    match targets with
    | some targets => pure ⟨l, s, some (← targets)⟩
    | none => pure ⟨l, s, none⟩
  pure (meaning, ← strip ";" (blank cs))

def byReference (cs : List Char) : Option (List Char) :=
  strip "&" cs

def param : Reader Parameter := fun cs => do
  let (mark, cs) := match byReference cs with
    | some rest => (true, rest)
    | none => (false, cs)
  let ((_, name), cs) ← variableName (blank cs)
  pure (⟨name, mark⟩, cs)

/-- Where a listed node goes. `next` is the label of the node listed after it and `exit` that of
the first exit. -/
def ListedNode.targets (n : ListedNode) (next exit : Option Label) : List Label :=
  match n.successors? with
  | some targets => targets
  | none =>
    match n.statement with
    | .exit => []
    | .returnValue _ => exit.toList
    | _ => next.toList

/-- The builder of the graph of some listed nodes. -/
def builderOf (nodes : List ListedNode) : Graph.Builder :=
  let exit := (nodes.find? (·.statement.isExit)).map (·.label)
  let nexts := (nodes.drop 1).map (some ·.label) ++ [none]
  { nodes := nodes.map fun n => ⟨n.label, n.statement⟩
    edges := (nodes.zip nexts).flatMap fun (n, next) => (n.targets next exit).map (n.label, ·) }

def function : Reader (Checked Function) := fun cs => do
  let (name, cs) ← ident (blank (← strip "function" cs))
  let (params, cs) := optional (separated param) (blank (← strip "(" (blank cs)))
  let cs ← strip ")" (blank cs)
  let (nodes, cs) := zeroOrMore node (blank (← strip "\x7b" (blank cs)))
  let meaning := do
    let graph ← (builderOf (← nodes.mapM id)).build
    pure ⟨name, params.getD [], graph⟩
  pure (meaning, ← strip "\x7d" (blank cs))

/-- A constant declaration; a later one of the same name replaces it. -/
def constant : Reader (Checked (ClassDeclaration → ClassDeclaration)) := fun cs => do
  let (name, cs) ← ident (blank (← strip "const" cs))
  let (value, cs) ← literal (blank (← strip "=" (blank cs)))
  pure (value.map fun v c => { c with constants := c.constants.insert name v },
    ← strip ";" (blank cs))

/-- A field declaration; the default value is null unless one is given. -/
def field : Reader (Checked (ClassDeclaration → ClassDeclaration)) := fun cs => do
  let (name, cs) ← ident (blank (← strip "field" cs))
  let (value, cs) := optional (fun cs => do literal (blank (← strip "=" cs))) (blank cs)
  pure ((value.getD (pure Scalar.null)).map fun v c => { c with fields := c.fields ++ [(name, v)] },
    ← strip ";" (blank cs))

def classDeclaration : Reader (Checked ClassDeclaration) := fun cs => do
  let (name, cs) ← ident (blank (← strip "class" cs))
  let (members, cs) := zeroOrMore (fun cs => constant cs <|> field cs)
    (blank (← strip "\x7b" (blank cs)))
  let meaning := members.foldlM (fun c member => member.map (· c)) { name }
  pure (meaning, ← strip "\x7d" (blank cs))

/-- A class or function of a listing, as the change it makes to the program read so far. -/
def declaration : Reader (Program → Checked Program) := fun cs =>
  ((classDeclaration cs).map fun (c, rest) => (fun p => do p.addClass (← c), rest)) <|>
    ((function cs).map fun (f, rest) => (fun p => do p.addFunction (← f), rest))

def declarations : Reader (List (Program → Checked Program)) := fun cs =>
  match zeroOrMore declaration (blank cs) with
  | (changes, rest) => if (blank rest).isEmpty then some (changes, []) else none

/-- Reads a whole listing. A text off the grammar is malformed whatever else is wrong with it; of
the errors in a well-formed one the first in the order of the text is reported. -/
def read (text : String) : Checked Program :=
  match declarations text.toList with
  | none => throw .malformedListing
  | some (changes, _) => changes.foldlM (fun p change => change p) {}

end ScriptMemory.Listing
