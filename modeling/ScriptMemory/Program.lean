import ScriptMemory.Graph

/-! Programs: functions and class declarations by name. The top level of a script is the function
named `main`. -/
namespace ScriptMemory

structure Parameter where
  name : String
  /-- The argument is bound by reference. -/
  byReference : Bool
deriving DecidableEq

structure Function where
  name : String
  params : List Parameter
  graph : Graph
deriving DecidableEq

/-- Constants by name, and fields with their default values in order. -/
structure ClassDeclaration where
  name : String
  constants : OrdMap String Scalar := ∅
  fields : List (String × Scalar) := []
deriving DecidableEq

structure Program where
  functions : OrdMap String Function := ∅
  classes : OrdMap String ClassDeclaration := ∅
deriving DecidableEq

namespace Program

def mainName : String := "main"

/-- A program whose only function is the given top level. -/
def ofMain (graph : Graph) : Program :=
  { functions := (∅ : OrdMap String Function).insert mainName ⟨mainName, [], graph⟩ }

def function? (p : Program) (name : String) : Option Function :=
  p.functions[name]?

def class? (p : Program) (name : String) : Option ClassDeclaration :=
  p.classes[name]?

def addFunction (p : Program) (f : Function) : Except ProgramError Program :=
  if p.functions.contains f.name then .error (.duplicateFunction f.name)
  else .ok { p with functions := p.functions.insert f.name f }

def addClass (p : Program) (c : ClassDeclaration) : Except ProgramError Program :=
  if p.classes.contains c.name then .error (.duplicateClass c.name)
  else .ok { p with classes := p.classes.insert c.name c }

def main (p : Program) : Except ProgramError Function :=
  match p.function? mainName with
  | some f => .ok f
  | none => .error .missingMain

/-- The constant `name` of the class `className`, if both are declared. -/
def constant? (p : Program) (className name : String) : Option Scalar :=
  (p.class? className).bind (·.constants[name]?)

end Program
end ScriptMemory
