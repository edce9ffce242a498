import ScriptMemory.Text.Invisible

/-! Quoted text. Writing escapes the quote, the backslash, the usual control characters and every
invisible character; reading takes a backslash together with the character after it. -/
namespace ScriptMemory.Text

/-- The written form of one character inside quotes. -/
def escape (c : Char) : List Char :=
  match c with
  | '\x00' => ['\\', '0']
  | '\t' => ['\\', 't']
  | '\n' => ['\\', 'n']
  | '\r' => ['\\', 'r']
  | '"' => ['\\', '"']
  | '\\' => ['\\', '\\']
  | c =>
    if isInvisible c then ['\\', 'u', '\x7b'] ++ Nat.toDigits 16 c.toNat ++ ['\x7d'] else [c]

def encode (cs : List Char) : List Char :=
  '"' :: cs.flatMap escape ++ ['"']

/-- The text between double quotes, escaped. -/
def quote (s : String) : String :=
  String.ofList (encode s.toList)

/-- What a backslash followed by `c` stands for: only `n` and `t` name another character. -/
def unescape (c : Char) : Char :=
  if c = 'n' then '\n' else if c = 't' then '\t' else c

/-- Reads up to the closing quote. The rest of the text comes back with the contents; there is no
answer when the quote is missing. -/
def decodeBody : List Char → Option (List Char × List Char)
  | [] => none
  | '"' :: rest => some ([], rest)
  | '\\' :: c :: rest => (decodeBody rest).map fun (cs, rest) => (unescape c :: cs, rest)
  | c :: rest => (decodeBody rest).map fun (cs, rest) => (c :: cs, rest)

/-- Reads a quoted text at the front. -/
def decode : List Char → Option (String × List Char)
  | '"' :: rest => (decodeBody rest).map fun (cs, rest) => (String.ofList cs, rest)
  | _ => none

end ScriptMemory.Text
