import ScriptMemory.Path

/-! What can be wrong with a program: its listing does not read, or its graphs break a rule. -/
namespace ScriptMemory

/-- The number a listing gives a node. -/
abbrev Label := UInt64

inductive ProgramError where
  /-- The listing does not follow the grammar. -/
  | malformedListing
  | labelTooLarge (digits : String)
  | integerTooLarge (digits : String)
  | emptyInterval (first last : Int64)
  /-- A well-formed piece of a listing that is no statement. -/
  | noStatement (rule text : String)
  /-- A position at which `function` has no node. -/
  | noNode (position : Nat) (function : String)
  | duplicateLabel (label : Label)
  | unknownLabel (label : Label)
  | emptyGraph
  | exitCount (count : Nat)
  | danglingCall (label : Label)
  | danglingCallReturn (label : Label)
  | duplicateFunction (name : String)
  | duplicateClass (name : String)
  | missingMain
deriving DecidableEq

namespace ProgramError

/-- The detail of an error in a listing that does follow the grammar. -/
def detail? : ProgramError → Option String
  | labelTooLarge digits => some ("invalid label: " ++ digits)
  | integerTooLarge digits => some ("invalid integer literal: " ++ digits)
  | emptyInterval first last =>
    some ("empty interval [" ++ toString first.toInt ++ ".." ++ toString last.toInt ++ "]")
  | noStatement rule text => some ("unexpected " ++ rule ++ " at `" ++ text ++ "`")
  | noNode position function =>
    some ("NodeIndex(" ++ toString position ++ ") is not a node of " ++ function)
  | _ => none

def message : ProgramError → String
  | malformedListing => "failed to parse program listing"
  | duplicateLabel label => "label " ++ toString label.toNat ++ " is used by more than one node"
  | unknownLabel label =>
    "an edge references label " ++ toString label.toNat ++ ", which has no node"
  | emptyGraph => "tried to build a control-flow graph with no nodes"
  | exitCount count =>
    "a control-flow graph needs exactly one exit node, found " ++ toString count
  | danglingCall label => "call node " ++ toString label.toNat ++
    " must have exactly one successor, and it must be a call-return node"
  | danglingCallReturn label => "call-return node " ++ toString label.toNat ++
    " must have exactly one predecessor, and it must be a call node"
  | duplicateFunction name => "function " ++ name ++ " is defined more than once"
  | duplicateClass name => "class " ++ name ++ " is declared more than once"
  | missingMain => "the program has no main function"
  | e => "invalid program listing: " ++ e.detail?.getD ""

end ProgramError
end ScriptMemory
