/-!
Text as it stands in a log line: between quotes, with the quote, the backslash and every character
that does not show on its own written as an escape.
-/

namespace SafeForms.Text.Quoted

/-- Ranges of characters that do not show on their own: controls, blanks other than the space,
combining marks and format characters. -/
def unshown : List (Nat × Nat) :=
  [(0x00, 0x1f), (0x7f, 0xa0), (0xad, 0xad), (0x300, 0x36f), (0x483, 0x489), (0x61c, 0x61c),
    (0x1680, 0x1680), (0x180e, 0x180e), (0x2000, 0x200f), (0x2028, 0x202f), (0x205f, 0x206f),
    (0x20d0, 0x20f0), (0x3000, 0x3000), (0xd800, 0xf8ff), (0xfe00, 0xfe0f), (0xfe20, 0xfe2f),
    (0xfeff, 0xfeff), (0xfff0, 0xfffb), (0xfffe, 0xffff)]

def isUnshown (c : Char) : Bool :=
  unshown.any fun (low, high) => low ≤ c.toNat && c.toNat ≤ high

def codeEscape (c : Char) : List Char :=
  ['\\', 'u', '\x7b'] ++ Nat.toDigits 16 c.toNat ++ ['\x7d']

def escape (c : Char) : List Char :=
  if c = '"' then ['\\', '"']
  else if c = '\\' then ['\\', '\\']
  else if c = '\n' then ['\\', 'n']
  else if c = '\t' then ['\\', 't']
  else if c = '\r' then ['\\', 'r']
  else if c = '\x00' then ['\\', '0']
  else if isUnshown c then codeEscape c
  else [c]

def quote (s : String) : String :=
  String.ofList ('"' :: s.toList.flatMap escape ++ ['"'])

def quoteOption : Option String → String
  | none => "None"
  | some s => "Some(" ++ quote s ++ ")"

end SafeForms.Text.Quoted
