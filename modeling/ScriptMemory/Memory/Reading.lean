import ScriptMemory.Memory.Resolution

/-! Reading memory. -/
namespace ScriptMemory
namespace Memory

/-- The container of `i` may be anything that has members like `i`. -/
def isBelowOpaque (m : Memory) (i : Index) : Bool :=
  match i with
  | .root _ => false
  | .member parent s =>
    (m.entry? parent).any fun e =>
      e.contains .any || e.contains (.anyOf (if s.isField then .object else .array))

/-- What an absent location reads as: what the unknown member of its container holds, if there is
one, and anything if the container may be anything. -/
def readAbsent (m : Memory) (i : Index) : Entry :=
  -- an unknown member that was never written has nothing to fall back on
  let fallback := match i with
    | .member parent s =>
      if s.isUnknown then .undefined else m.entryOrUndefined (parent.member s.unknownLike)
    | .root _ => .undefined
  if m.isBelowOpaque i then fallback.insert .any else fallback

/-- The values at a location, whether it is defined or not. -/
def readIndex (m : Memory) (i : Index) : Entry :=
  (m.entry? i).getD (m.readAbsent i)

/-- A summary by kind of what may be at one of several places: the kind if there is one, anything
if there are several. It may be undefined where one of the places may be. -/
def summarize (entries : List Entry) : Entry :=
  let values := (entries.flatMap Entry.toList).filter fun v => v.finding?.isNone
  let defined := values.filter fun v => v ≠ .undefined
  let summary := match defined.mapM Value.kind? with
    | none => Entry.ofValue .any
    | some [] => ∅
    | some (k :: rest) => if rest.all (· = k) then .ofValue (.anyOf k) else .ofValue .any
  if values.contains .undefined || summary.isEmpty then summary.insert .undefined else summary

/-- The values at some locations. When an unknown member was crossed the values are summarized,
and an unknown member that nobody has written stands for no key at all. -/
def readLocations (m : Memory) (l : Locations) : Entry :=
  if l.isEmpty then .undefined
  else if l.unknown then
    summarize ((l.toList.filter fun i => m.isDefined i || !i.isUnknownMember).map m.readIndex)
  else (l.toList.map m.readIndex).foldl Entry.join ∅

/-- The values a path may have in the frame at a level. -/
def readAt (m : Memory) (p : Path) (level : Nat) : Entry :=
  m.readLocations (m.resolve p level)

/-- The values a path may have in the running function. -/
def read (m : Memory) (p : Path) : Entry :=
  m.readAt p m.level

/-- The values of one member of a container; fields are looked up in every object that the
container may hold. -/
def readMember (m : Memory) (container : Index) (s : Segment) : Entry :=
  m.readLocations { may := .ofList (m.membersNamed container s), unknown := s.isUnknown }

/-- The findings reported so far, in order. -/
def findings (m : Memory) : List Finding :=
  ((m.entry? .diagnostics).map Entry.findings).getD []

end Memory
end ScriptMemory
