import ScriptMemory.Path

/-! The expressions and statements of a listing, with their listing text. Operators are resolved
before a listing is made: whatever could not be computed is `any` or `any` of a kind. -/
namespace ScriptMemory

inductive Expression where
  | literal (value : Scalar)
  | any
  | anyOf (kind : Kind)
  /-- Some integer from `first` to `last`. -/
  | interval (first last : Int64)
  | read (path : Path)
  | newArray
  | newObject (className : String)
  /-- A constant of the class of the object that `target` holds. -/
  | classConstant (target : Path) (name : String)
deriving DecidableEq

namespace Expression

/-- The path the expression reads from. -/
def readPath? : Expression → Option Path
  | read path | classConstant path _ => some path
  | _ => none

def text : Expression → String
  | literal s => s.text
  | any => "any"
  | anyOf k => "any<" ++ k.name ++ ">"
  | interval first last => "[" ++ toString first.toInt ++ ".." ++ toString last.toInt ++ "]"
  | read path => path.text
  | newArray => "array()"
  | newObject className => "new " ++ className
  | classConstant target name => target.text ++ "::" ++ name

end Expression

inductive Statement where
  | nop
  | enter
  | exit
  | assign (target : Path) (value : Expression)
  /-- `target` becomes a reference to `source`. -/
  | assignAlias (target source : Path)
  | unset (path : Path)
  | echo (value : Expression)
  | branch (condition : Expression)
  | call (function : String) (args : List Expression)
  /-- Where the effects of a call reach the caller. -/
  | callReturn (result : Option Path)
  | returnValue (value : Option Expression)
deriving DecidableEq

/-- What a node of a control-flow graph does, coarsely. -/
inductive NodeKind where
  | assignment | branch | call | callReturnMerge | scopeEnter | scopeExit | plain
deriving DecidableEq

namespace Statement

def kind : Statement → NodeKind
  | assign .. | assignAlias .. | unset _ => .assignment
  | branch _ => .branch
  | call .. => .call
  | callReturn _ => .callReturnMerge
  | enter => .scopeEnter
  | exit => .scopeExit
  | nop | echo _ | returnValue _ => .plain

def isExit : Statement → Bool
  | exit => true
  | _ => false

def isCall : Statement → Bool
  | call .. => true
  | _ => false

def isCallReturn : Statement → Bool
  | callReturn _ => true
  | _ => false

/-- The expressions the statement evaluates, in order. -/
def expressions : Statement → List Expression
  | assign _ value | echo value | branch value | returnValue (some value) => [value]
  | call _ args => args
  | _ => []

def text : Statement → String
  | nop => "nop"
  | enter => "enter"
  | exit => "exit"
  | assign target value => target.text ++ " = " ++ value.text
  | assignAlias target source => target.text ++ " = &" ++ source.text
  | unset path => "unset " ++ path.text
  | echo value => "echo " ++ value.text
  | branch condition => "branch " ++ condition.text
  | call function args =>
    "call " ++ function ++ "(" ++ ", ".intercalate (args.map Expression.text) ++ ")"
  | callReturn (some result) => "after_call " ++ result.text
  | callReturn none => "after_call"
  | returnValue (some value) => "return " ++ value.text
  | returnValue none => "return"

end Statement
end ScriptMemory
