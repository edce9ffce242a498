import ScriptMemory.Listing.Rule
import ScriptMemory.Proofs.Listing.Phrase

/-! The text of a statement, put into a node, is read as that statement. Each keyword sends the
reader to its own form; a text that begins with a path is an assignment, and what follows the equals
sign tells whether it makes a reference. -/
namespace ScriptMemory

namespace Statement
variable (p : Path) (e : Expression) (rest : List Char)

end Statement

namespace Listing
variable {rest : List Char}

section
variable {e : Expression} (h : e.IsListable) (hrest : Closes rest)
include h hrest

end

variable {target : Path} {value : Expression}

end Listing
end ScriptMemory
