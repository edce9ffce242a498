import ScriptMemory.Number.Numeral
import ScriptMemory.Statement

/-! The interchange form of paths and statements: trees of records, lists and plain values. A form
without content is written as its name, and a form with content as a record of one field, the
name; what has named parts is a record of them. Reading ignores fields it does not know. -/
namespace ScriptMemory

inductive Document where
  | null
  | boolean (value : Bool)
  | integer (value : Int)
  | real (value : Binary64)
  | text (value : String)
  | list (items : List Document)
  | record (fields : List (String × Document))

namespace Document

def text? : Document → Option String
  | text s => some s
  | _ => none

def boolean? : Document → Option Bool
  | boolean b => some b
  | _ => none

/-- An integer that fits into 64 bits. -/
def integer? : Document → Option Int64
  | integer n => Numeral.fit? n
  | _ => none

/-- A number; an integer counts as the nearest one. -/
def real? : Document → Option Binary64
  | real x => some x
  | integer n => some ⟨n < 0, Binary64.nearest n.natAbs 1⟩
  | _ => none

/-- A list all of whose items read. -/
def list? {α : Type} (item : Document → Option α) : Document → Option (List α)
  | list items => items.mapM item
  | _ => none

/-- Null, or something that reads. -/
def optional? {α : Type} (item : Document → Option α) : Document → Option (Option α)
  | null => some none
  | d => (item d).map some

/-- The name of a form and its content, if it has one. -/
def form? : Document → Option (String × Option Document)
  | text name => some (name, none)
  | record [(name, content)] => some (name, some content)
  | _ => none

/-- The content of a form that has none of its own: missing or null. -/
def noContent? : Option Document → Option Unit
  | none | some null => some ()
  | _ => none

/-- A named part of the content of a form. -/
def part? (content : Option Document) (name : String) : Option Document :=
  match content with
  | some (record fields) => fields.lookup name
  | _ => none

def ofForm (name : String) (content : Document) : Document :=
  record [(name, content)]

def ofKey : Key → Document
  | .integer n => ofForm "Integer" (integer n.toInt)
  | .string s => ofForm "String" (text s)

def ofSegment : Segment → Document
  | .key k => ofForm "Key" (ofKey k)
  | .unknownKey => text "UnknownKey"
  | .field name => ofForm "Field" (text name)
  | .unknownField => text "UnknownField"

def ofScope : Scope → Document
  | .global => text "Global"
  | .current => text "Local"

def ofPath (p : Path) : Document :=
  record [("name", text p.name), ("scope", ofScope p.scope),
    ("segments", list (p.segments.map ofSegment))]

def ofKind : Kind → Document
  | .integer => text "Integer"
  | .float => text "Float"
  | .string => text "String"
  | .boolean => text "Boolean"
  | .null => text "Null"
  | .object => text "Object"
  | .array => text "Array"
  | .resource => text "Resource"

def ofScalar : Scalar → Document
  | .integer n => ofForm "Integer" (integer n.toInt)
  | .float x => ofForm "Float" (real x)
  | .string s => ofForm "String" (text s)
  | .boolean b => ofForm "Boolean" (boolean b)
  | .null => text "Null"

def ofExpression : Expression → Document
  | .literal s => ofForm "Literal" (ofScalar s)
  | .any => text "Any"
  | .anyOf k => ofForm "AnyOf" (ofKind k)
  | .interval first last =>
    ofForm "Interval" (record [("end", integer last.toInt), ("start", integer first.toInt)])
  | .read p => ofForm "Read" (ofPath p)
  | .newArray => text "NewArray"
  | .newObject className => ofForm "NewObject" (record [("class", text className)])
  | .classConstant target name =>
    ofForm "ClassConstant" (record [("name", text name), ("target", ofPath target)])

def ofOption {α : Type} (item : α → Document) : Option α → Document
  | some a => item a
  | none => null

def ofStatement : Statement → Document
  | .nop => text "Nop"
  | .enter => text "Enter"
  | .exit => text "Exit"
  | .assign target value =>
    ofForm "Assign" (record [("target", ofPath target), ("value", ofExpression value)])
  | .assignAlias target source =>
    ofForm "AssignAlias" (record [("source", ofPath source), ("target", ofPath target)])
  | .unset p => ofForm "Unset" (ofPath p)
  | .echo e => ofForm "Echo" (ofExpression e)
  | .branch e => ofForm "Branch" (ofExpression e)
  | .call function args =>
    ofForm "Call" (record [("args", list (args.map ofExpression)), ("function", text function)])
  | .callReturn result => ofForm "CallReturn" (record [("result", ofOption ofPath result)])
  | .returnValue value => ofForm "Return" (ofOption ofExpression value)

def key? (d : Document) : Option Key := do
  match ← d.form? with
  | ("Integer", some content) => content.integer?.map .integer
  | ("String", some content) => content.text?.map .string
  | _ => none

def segment? (d : Document) : Option Segment := do
  match ← d.form? with
  | ("Key", some content) => content.key?.map .key
  | ("UnknownKey", content) => (noContent? content).map fun _ => .unknownKey
  | ("Field", some content) => content.text?.map .field
  | ("UnknownField", content) => (noContent? content).map fun _ => .unknownField
  | _ => none

def scope? (d : Document) : Option Scope := do
  match ← d.form? with
  | ("Global", content) => (noContent? content).map fun _ => .global
  | ("Local", content) => (noContent? content).map fun _ => .current
  | _ => none

/-- A path from its parts by name, or from all of them in order. -/
def path? (d : Document) : Option Path := do
  let (scope, name, segments) ← match d with
    | list [scope, name, segments] => some (scope, name, segments)
    | record fields =>
      some (← fields.lookup "scope", ← fields.lookup "name", ← fields.lookup "segments")
    | _ => none
  some ⟨← scope.scope?, ← name.text?, ← segments.list? segment?⟩

def kind? (d : Document) : Option Kind := do
  let (name, content) ← d.form?
  noContent? content
  Kind.all.find? fun k => (ofKind k).text? == some name

def scalar? (d : Document) : Option Scalar := do
  match ← d.form? with
  | ("Integer", some content) => content.integer?.map .integer
  | ("Float", some content) => content.real?.map .float
  | ("String", some content) => content.text?.map .string
  | ("Boolean", some content) => content.boolean?.map .boolean
  | ("Null", content) => (noContent? content).map fun _ => .null
  | _ => none

def expression? (d : Document) : Option Expression := do
  match ← d.form? with
  | ("Literal", some content) => content.scalar?.map .literal
  | ("Any", content) => (noContent? content).map fun _ => .any
  | ("AnyOf", some content) => content.kind?.map .anyOf
  | ("Interval", content) =>
    some (.interval (← (← part? content "start").integer?) (← (← part? content "end").integer?))
  | ("Read", some content) => content.path?.map .read
  | ("NewArray", content) => (noContent? content).map fun _ => .newArray
  | ("NewObject", content) => some (.newObject (← (← part? content "class").text?))
  | ("ClassConstant", content) =>
    some (.classConstant (← (← part? content "target").path?) (← (← part? content "name").text?))
  | _ => none

/-- Reads a statement. Only the result of a call-return may be left out. -/
def statement? (d : Document) : Option Statement := do
  match ← d.form? with
  | ("Nop", content) => (noContent? content).map fun _ => .nop
  | ("Enter", content) => (noContent? content).map fun _ => .enter
  | ("Exit", content) => (noContent? content).map fun _ => .exit
  | ("Assign", content) =>
    some (.assign (← (← part? content "target").path?) (← (← part? content "value").expression?))
  | ("AssignAlias", content) =>
    some (.assignAlias (← (← part? content "target").path?) (← (← part? content "source").path?))
  | ("Unset", some content) => content.path?.map .unset
  | ("Echo", some content) => content.expression?.map .echo
  | ("Branch", some content) => content.expression?.map .branch
  | ("Call", content) =>
    some (.call (← (← part? content "function").text?)
      (← (← part? content "args").list? expression?))
  | ("CallReturn", some (record fields)) =>
    match fields.lookup "result" with
    | some result => (result.optional? path?).map .callReturn
    | none => some (.callReturn none)
  | ("Return", some content) => (content.optional? expression?).map .returnValue
  | _ => none

end Document
end ScriptMemory
