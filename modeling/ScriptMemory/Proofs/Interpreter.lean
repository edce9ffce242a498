import ScriptMemory.Program
import ScriptMemory.Proofs.Environment

/-! An interpreter of straight-line programs. A function runs its statements one after the other, in
a frame of variables of its own; parameters copy their arguments or share the variables of the
caller, and when the function has ended its variables are unbound. -/
namespace ScriptMemory

namespace Expression

/-- A literal or a plain variable. -/
def isPlain : Expression → Bool
  | literal _ => true
  | read p => p.isVariable
  | _ => false

/-- What a plain expression is in the frame at a level. -/
def value (σ : Environment) (level : Nat) : Expression → Option Scalar
  | literal s => some s
  | read p => σ.read (p.indexAt level)
  | _ => none

/-- What a return returns, null if it has no expression. -/
def returned (σ : Environment) (level : Nat) : Option Expression → Option Scalar
  | some e => e.value σ level
  | none => some .null

end Expression

namespace Environment

/-- Binds a parameter of the frame above `level` to an argument from the frame at `level`. Only a
variable can be shared; a literal is passed by value. -/
def pass (level : Nat) (σ : Environment) (x : Parameter × Expression) : Environment :=
  let target := (Path.ofVariable x.1.name).indexAt (level + 1)
  match x.1.byReference, x.2 with
  | true, .read p => σ.share target (p.indexAt level)
  | _, arg => σ.write target (arg.value σ level)

/-- Opens the frame above `level`. -/
def enter (level : Nat) (params : List Parameter) (args : List Expression) (σ : Environment) :
    Environment :=
  (params.zip args).foldl (pass level) σ

/-- Closes the frame above `level` and stores what the function returned, null if nothing. -/
def leave (level : Nat) (result : Option Path) (returned : Option Scalar) (σ : Environment) :
    Environment :=
  let closed := σ.unbind (·.isRootedAtLevel (level + 1))
  match result with
  | some p => closed.write (p.indexAt level) (some (returned.getD .null))
  | none => closed

end Environment

/-- What a call makes of the environment, if it comes to an end: the function, its arguments, and
where its result is stored. -/
abbrev CallMeaning := String → List Expression → Option Path → Environment → Option Environment

/-- Runs statements of the frame at `level` until an exit or a return, and tells what is returned. A
call and the call-return behind it are run together. -/
def Statement.interpret (call : CallMeaning) (level : Nat) :
    List Statement → Environment → Option (Environment × Option Scalar)
  | .exit :: _, σ => some (σ, none)
  | .returnValue value :: _, σ => some (σ, Expression.returned σ level value)
  | .nop :: rest, σ => interpret call level rest σ
  | .enter :: rest, σ => interpret call level rest σ
  | .assign p e :: rest, σ =>
    interpret call level rest (σ.write (p.indexAt level) (e.value σ level))
  | .call name args :: .callReturn result :: rest, σ =>
    match call name args result σ with
    | some τ => interpret call level rest τ
    | none => none
  | _, _ => none

/-- The statements of a function, in order. -/
def Function.statements (f : Function) : List Statement :=
  f.graph.nodes.map (·.statement)

namespace Program

/-- Calls a function from the frame at `level`. Calls nested deeper than `depth` do not end. -/
def call (P : Program) : (depth level : Nat) → CallMeaning
  | 0, _, _, _, _, _ => none
  | depth + 1, level, name, args, result, σ => do
    let f ← P.function? name
    let (τ, returned) ← Statement.interpret (P.call depth (level + 1)) (level + 1) f.statements
      (σ.enter level f.params args)
    return τ.leave level result returned

/-- The variables when the script has ended. -/
def interpret (P : Program) (depth : Nat) : Option Environment := do
  let f ← P.function? mainName
  let (τ, _) ← Statement.interpret (P.call depth 0) 0 f.statements .blank
  return τ

end Program
end ScriptMemory
