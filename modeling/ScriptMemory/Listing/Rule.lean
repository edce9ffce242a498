import ScriptMemory.Listing.Declaration

/-! The rules of the grammar by name, and reading a statement with any one of them. A rule is
matched against the front of a text. -/
namespace ScriptMemory.Listing

/-- Forgets what a reader read. -/
def rest {α : Type} (reader : Reader α) (cs : List Char) : Option (List Char) :=
  (reader cs).map (·.2)

/-- The text up to a quote or a last backslash. -/
def quotedBody : List Char → List Char
  | '"' :: cs => '"' :: cs
  | '\\' :: _ :: cs => quotedBody cs
  | ['\\'] => ['\\']
  | _ :: cs => quotedBody cs
  | [] => []

/-- The rules that read a statement. -/
def statementRules : List (String × Reader (Checked Statement)) := [
  ("enter", enter), ("exit", exit), ("nop", nop), ("unset", unset), ("echo", echo),
  ("branch", branch), ("call_return", callReturn), ("call", call), ("return_stmt", returnValue),
  ("alias_assign", aliasAssign), ("assign", assign), ("statement", statement)]

/-- The other rules; each returns the text after its match. -/
def otherRules : List (String × (List Char → Option (List Char))) := [
  ("program", rest declarations), ("ident", rest ident), ("label", rest label),
  ("class_decl", rest classDeclaration), ("const_decl", rest constant),
  ("field_decl", rest field), ("function_decl", rest function), ("param", rest param),
  ("by_ref", byReference), ("successors", rest successors), ("path", rest path),
  ("variable", rest variableName), ("global", globalMark), ("key_segment", rest keySegment),
  ("unknown_key", unknownKey), ("field_segment", rest fieldSegment),
  ("unknown_field", unknownField), ("expr", rest expression), ("any_of", rest anyOf),
  ("any", any), ("kind", rest kind), ("interval", rest interval), ("new_array", newArray),
  ("new_object", rest newObject), ("class_constant", rest classConstant), ("read", rest path),
  ("literal", rest literal), ("float", rest float), ("integer", rest integer),
  ("string", rest Text.decode), ("string_inner", fun cs => some (quotedBody cs)),
  ("boolean", rest boolean), ("null", null),
  ("EOI", fun cs => if cs.isEmpty then some [] else none)]

/-- The statement that `rule` reads at the front of `text`. A node is read as the statement in it,
and a rule for anything but statements has none to offer. -/
def readStatement (rule text : String) : Checked Statement :=
  let cs := text.toList
  if rule = "node" then
    match rest node cs, labelled cs with
    | some _, some ((_, s), _) => s
    | _, _ => throw .malformedListing
  else match statementRules.lookup rule with
    | some reader =>
      match reader cs with
      | some (s, _) => s
      | none => throw .malformedListing
    | none =>
      match (otherRules.lookup rule).bind (· cs) with
      | some rest =>
        throw (.noStatement rule (String.ofList (cs.take (cs.length - rest.length))))
      | none => throw .malformedListing

end ScriptMemory.Listing
