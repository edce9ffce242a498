import ScriptMemory.Index

/-! Ways to break the contract of a snapshot. None of them is a property of the analysed program;
each ends the open transaction. -/
namespace ScriptMemory

inductive ContractError where
  | transactionAlreadyOpen
  | transactionNotOpen
  | frozen
  | freezeDuringTransaction
  /-- The operation needs an index that is not defined. -/
  | missingIndex (index : Index)
  /-- A reference was to be stored as a value. -/
  | referenceAsData
  | callLevelMismatch (expected found : Nat)
  /-- The top level has no frame to close and no caller. -/
  | noCallFrame
  /-- The index would be aliased both always and sometimes. -/
  | conflictingAlias (index : Index)
  | noSources
deriving DecidableEq

def ContractError.message : ContractError → String
  | transactionAlreadyOpen => "a transaction is already open on this snapshot"
  | transactionNotOpen => "snapshot mutation attempted without an open transaction"
  | frozen => "snapshot is frozen and can no longer be modified"
  | freezeDuringTransaction => "cannot freeze a snapshot while a transaction is open"
  | missingIndex i => "required index " ++ i.text ++ " does not exist in this snapshot"
  | referenceAsData => "alias values describe references and cannot be stored as data"
  | callLevelMismatch expected found =>
    "snapshots from different call levels cannot be merged: expected " ++ toString expected ++
      ", found " ++ toString found
  | noCallFrame => "no call frame to close"
  | conflictingAlias i => "index " ++ i.text ++ " cannot be both a must-alias and a may-alias"
  | noSources => "extend needs at least one source snapshot"

end ScriptMemory
