import ScriptMemory.Listing.Lexeme
import ScriptMemory.Statement

/-! Paths, expressions and statements of a listing. Where several forms are possible the first one
that matches is taken, in the order written here. -/
namespace ScriptMemory.Listing

def globalMark (cs : List Char) : Option (List Char) :=
  strip "::" cs

/-- A dollar sign, the global mark if there is one, and a name, without blanks. -/
def variableName : Reader (Scope × String) := fun cs => do
  let cs ← strip "$" cs
  let (scope, cs) := match globalMark cs with
    | some rest => (Scope.global, rest)
    | none => (Scope.current, cs)
  let (name, cs) ← ident cs
  pure ((scope, name), cs)

def key : Reader (Checked Key) := fun cs =>
  ((integer cs).map fun (n, rest) => (n.map Key.integer, rest)) <|>
    ((Text.decode cs).map fun (s, rest) => (pure (Key.string s), rest))

def keySegment : Reader (Checked Segment) := fun cs => do
  let (k, cs) ← key (blank (← strip "[" cs))
  pure (k.map Segment.key, ← strip "]" (blank cs))

def unknownKey (cs : List Char) : Option (List Char) := do
  strip "]" (blank (← strip "?" (blank (← strip "[" cs))))

def fieldSegment : Reader String := fun cs => do
  ident (blank (← strip "->" cs))

def unknownField (cs : List Char) : Option (List Char) := do
  strip "?" (blank (← strip "->" cs))

def segment : Reader (Checked Segment) := fun cs =>
  keySegment cs <|>
    ((unknownKey cs).map (pure Segment.unknownKey, ·)) <|>
    ((fieldSegment cs).map fun (name, rest) => (pure (Segment.field name), rest)) <|>
    ((unknownField cs).map (pure Segment.unknownField, ·))

def path : Reader (Checked Path) := fun cs => do
  let ((scope, name), cs) ← variableName cs
  let (segments, cs) := zeroOrMore segment (blank cs)
  pure ((segments.mapM id).map fun segments => ⟨scope, name, segments⟩, cs)

def boolean : Reader Bool := fun cs =>
  ((stripWord "true" cs).map (true, ·)) <|> ((stripWord "false" cs).map (false, ·))

def null (cs : List Char) : Option (List Char) :=
  stripWord "null" cs

def literal : Reader (Checked Scalar) := fun cs =>
  ((float cs).map fun (x, rest) => (pure (Scalar.float x), rest)) <|>
    ((integer cs).map fun (n, rest) => (n.map Scalar.integer, rest)) <|>
    ((Text.decode cs).map fun (s, rest) => (pure (Scalar.string s), rest)) <|>
    ((boolean cs).map fun (b, rest) => (pure (Scalar.boolean b), rest)) <|>
    ((null cs).map (pure Scalar.null, ·))

/-- The name of a kind. -/
def kind : Reader Kind := fun cs =>
  Kind.all.findSome? fun k => (stripWord k.name cs).map (k, ·)

def anyOf : Reader Kind := fun cs => do
  let (k, cs) ← kind (blank (← strip "<" (blank (← strip "any" cs))))
  pure (k, ← strip ">" (blank cs))

def any (cs : List Char) : Option (List Char) :=
  stripWord "any" cs

/-- Two integers between brackets; the first may not exceed the second. -/
def interval : Reader (Checked (Int64 × Int64)) := fun cs => do
  let (first, cs) ← integer (blank (← strip "[" cs))
  let (last, cs) ← integer (blank (← strip ".." (blank cs)))
  let meaning := do
    let a ← first
    let b ← last
    if b < a then throw (ProgramError.emptyInterval a b)
    pure (a, b)
  pure (meaning, ← strip "]" (blank cs))

def newArray (cs : List Char) : Option (List Char) := do
  strip ")" (blank (← strip "(" (blank (← strip "array" cs))))

def newObject : Reader String := fun cs => do
  ident (blank (← strip "new" cs))

def classConstant : Reader (Checked (Path × String)) := fun cs => do
  let (target, cs) ← path cs
  let (name, cs) ← ident (blank (← strip "::" (blank cs)))
  pure (target.map (·, name), cs)

def expression : Reader (Checked Expression) := fun cs =>
  ((anyOf cs).map fun (k, rest) => (pure (Expression.anyOf k), rest)) <|>
    ((any cs).map (pure Expression.any, ·)) <|>
    ((interval cs).map fun (i, rest) => (i.map fun (a, b) => Expression.interval a b, rest)) <|>
    ((newArray cs).map (pure Expression.newArray, ·)) <|>
    ((newObject cs).map fun (name, rest) => (pure (Expression.newObject name), rest)) <|>
    ((classConstant cs).map fun (c, rest) =>
      (c.map fun (target, name) => Expression.classConstant target name, rest)) <|>
    ((path cs).map fun (p, rest) => (p.map Expression.read, rest)) <|>
    ((literal cs).map fun (s, rest) => (s.map Expression.literal, rest))

def enter : Reader (Checked Statement) := fun cs =>
  (stripWord "enter" cs).map (pure Statement.enter, ·)

def exit : Reader (Checked Statement) := fun cs =>
  (stripWord "exit" cs).map (pure Statement.exit, ·)

def nop : Reader (Checked Statement) := fun cs =>
  (stripWord "nop" cs).map (pure Statement.nop, ·)

def unset : Reader (Checked Statement) := fun cs => do
  let (p, cs) ← path (blank (← strip "unset" cs))
  pure (p.map Statement.unset, cs)

def echo : Reader (Checked Statement) := fun cs => do
  let (e, cs) ← expression (blank (← strip "echo" cs))
  pure (e.map Statement.echo, cs)

def branch : Reader (Checked Statement) := fun cs => do
  let (e, cs) ← expression (blank (← strip "branch" cs))
  pure (e.map Statement.branch, cs)

def callReturn : Reader (Checked Statement) := fun cs => do
  let (result, cs) := optional path (blank (← strip "after_call" cs))
  pure (match result with
    | some p => p.map fun p => Statement.callReturn (some p)
    | none => pure (Statement.callReturn none), cs)

def call : Reader (Checked Statement) := fun cs => do
  let (function, cs) ← ident (blank (← strip "call" cs))
  let (args, cs) := optional (separated expression) (blank (← strip "(" (blank cs)))
  pure (((args.getD []).mapM id).map (Statement.call function), ← strip ")" (blank cs))

def returnValue : Reader (Checked Statement) := fun cs => do
  let (value, cs) := optional expression (blank (← strip "return" cs))
  pure (match value with
    | some e => e.map fun e => Statement.returnValue (some e)
    | none => pure (Statement.returnValue none), cs)

def aliasAssign : Reader (Checked Statement) := fun cs => do
  let (target, cs) ← path cs
  let (source, cs) ← path (blank (← strip "&" (blank (← strip "=" (blank cs)))))
  pure (do pure (Statement.assignAlias (← target) (← source)), cs)

def assign : Reader (Checked Statement) := fun cs => do
  let (target, cs) ← path cs
  let (value, cs) ← expression (blank (← strip "=" (blank cs)))
  pure (do pure (Statement.assign (← target) (← value)), cs)

def statement : Reader (Checked Statement) := fun cs =>
  enter cs <|> exit cs <|> nop cs <|> unset cs <|> echo cs <|> branch cs <|> callReturn cs <|>
    call cs <|> returnValue cs <|> aliasAssign cs <|> assign cs

end ScriptMemory.Listing
