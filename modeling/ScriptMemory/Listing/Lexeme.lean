import ScriptMemory.Number.Numeral
import ScriptMemory.ProgramError

/-! The smallest pieces of a listing: blanks, words, names, numbers, and the ways pieces repeat. A
reader takes one piece off the front of the text or has no answer. Numbers that do not fit are
well-formed all the same, so what a piece means may be an error; the shape of the whole text is
settled before any meaning is looked at. -/
namespace ScriptMemory.Listing

/-- Takes a piece off the front of the text and returns the rest with it. -/
abbrev Reader (α : Type) := List Char → Option (α × List Char)

/-- The meaning of a well-formed piece. -/
abbrev Checked := Except ProgramError

def isLetter (c : Char) : Bool :=
  ('a' ≤ c && c ≤ 'z') || ('A' ≤ c && c ≤ 'Z')

def isNameChar (c : Char) : Bool :=
  isLetter c || Numeral.isDigit c || c = '_'

/-- Drops blanks and comments. A comment runs from `//` to the end of its line; the flag tells
whether the text starts inside one. -/
def skipBlank (inComment : Bool) : List Char → List Char
  | [] => []
  | c :: rest =>
    if inComment then skipBlank (c != '\n' && c != '\r') rest
    else if c = ' ' || c = '\t' || c = '\n' || c = '\r' then skipBlank false rest
    else if c = '/' && rest.head? = some '/' then skipBlank true rest
    else c :: rest

/-- The text after any blanks and comments. -/
def blank (cs : List Char) : List Char :=
  skipBlank false cs

/-- The text after `word`, which it has to start with. -/
def strip (word : String) (cs : List Char) : Option (List Char) :=
  if word.toList.isPrefixOf cs then some (cs.drop word.length) else none

/-- The text after `word`, which may not run on into a longer name. -/
def stripWord (word : String) (cs : List Char) : Option (List Char) :=
  (strip word cs).filter fun rest => !rest.head?.any isNameChar

/-- As many items as there are, each after blanks; `fuel` bounds their number. -/
def following {α : Type} (item : Reader α) : Nat → List Char → List α × List Char
  | 0, cs => ([], cs)
  | fuel + 1, cs =>
    match item (blank cs) with
    | none => ([], cs)
    | some (a, rest) =>
      let (as, rest) := following item fuel rest
      (a :: as, rest)

/-- As many items as there are, with blanks between them. Every item takes at least one character,
so the text left is long enough to count them. -/
def zeroOrMore {α : Type} (item : Reader α) (cs : List Char) : List α × List Char :=
  match item cs with
  | none => ([], cs)
  | some (a, rest) =>
    let (as, rest) := following item rest.length rest
    (a :: as, rest)

/-- At least one item, with commas between them. -/
def separated {α : Type} (item : Reader α) : Reader (List α) := fun cs => do
  let (a, cs) ← item cs
  let (as, cs) := zeroOrMore (fun cs => do item (blank (← strip "," cs))) (blank cs)
  pure (a :: as, cs)

/-- An item if there is one. -/
def optional {α : Type} (item : Reader α) (cs : List Char) : Option α × List Char :=
  match item cs with
  | some (a, rest) => (some a, rest)
  | none => (none, cs)

/-- At least one digit. -/
def digits : Reader (List Char) := fun cs =>
  let found := cs.takeWhile Numeral.isDigit
  if found.isEmpty then none else some (found, cs.dropWhile Numeral.isDigit)

/-- A minus sign, if there is one, and digits. -/
def signedDigits : Reader (List Char) := fun cs =>
  match cs with
  | '-' :: rest => (digits rest).map fun (ds, rest) => ('-' :: ds, rest)
  | cs => digits cs

def label : Reader (Checked Label) := fun cs =>
  (digits cs).map fun (ds, rest) =>
    (match Numeral.unsigned? ds with
      | some n => .ok n
      | none => .error (.labelTooLarge (String.ofList ds)), rest)

def integer : Reader (Checked Int64) := fun cs =>
  (signedDigits cs).map fun (ds, rest) =>
    (match Numeral.integer? ds with
      | some n => .ok n
      | none => .error (.integerTooLarge (String.ofList ds)), rest)

/-- Digits on both sides of a point, rounded to the nearest number. -/
def float : Reader Binary64 := fun cs => do
  let (whole, cs) ← signedDigits cs
  let (fraction, cs) ← digits (← strip "." cs)
  let (negative, whole) := Numeral.splitSign whole
  pure (⟨negative, Binary64.nearestDecimal (Numeral.natural (whole ++ fraction))
    (-fraction.length)⟩, cs)

/-- A letter or underscore, then letters, digits and underscores. -/
def ident : Reader String := fun cs =>
  match cs with
  | c :: _ =>
    if isLetter c || c = '_' then
      some (String.ofList (cs.takeWhile isNameChar), cs.dropWhile isNameChar)
    else none
  | [] => none

end ScriptMemory.Listing
