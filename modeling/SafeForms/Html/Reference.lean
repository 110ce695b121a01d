import SafeForms.Text.Utf8

/-!
Character references, given by name or by number. What looks like a reference but is none stands
for itself. Of the names that HTML has only nine are known, those with which text is escaped and
their forms in capitals; all others are left out, so `&copy;` stands for its six characters.
-/

namespace SafeForms.Html.Reference

open Text.Utf8 (replacement)

/-- The references by name. Each may lack its semicolon. -/
def named : List (String × Char) :=
  [("amp", '&'), ("lt", '<'), ("gt", '>'), ("quot", '"'), ("nbsp", '\u00a0'), ("AMP", '&'),
    ("LT", '<'), ("GT", '>'), ("QUOT", '"')]

/-- The characters meant by the numbers from 0x80 on; zero stands where the number is right. -/
def windows : List Nat :=
  [0x20ac, 0, 0x201a, 0x0192, 0x201e, 0x2026, 0x2020, 0x2021, 0x02c6, 0x2030, 0x0160, 0x2039,
    0x0152, 0, 0x017d, 0, 0, 0x2018, 0x2019, 0x201c, 0x201d, 0x2022, 0x2013, 0x2014, 0x02dc,
    0x2122, 0x0161, 0x203a, 0x0153, 0, 0x017e, 0x0178]

def ofNumber (n : Nat) : Char :=
  if n = 0 then replacement
  else if 0x80 ≤ n ∧ n < 0xa0 then
    match windows[n - 0x80]? with
    | some 0 | none => Char.ofNat n
    | some m => Char.ofNat m
  else if n.isValidChar then Char.ofNat n
  else replacement

def isHexDigit (c : Char) : Bool :=
  c.isDigit || ('a' ≤ c && c ≤ 'f') || ('A' ≤ c && c ≤ 'F')

def digitValue (c : Char) : Nat :=
  if c.isDigit then c.toNat - '0'.toNat else c.toLower.toNat - 'a'.toNat + 10

def numberValue (base : Nat) (digits : List Char) : Nat :=
  digits.foldl (fun n c => n * base + digitValue c) 0

def semicolon (cs : List Char) : Nat := if cs.head? = some ';' then 1 else 0

def ofDigits (mark base : Nat) (isDigit : Char → Bool) (cs : List Char) : Option (Char × Nat) :=
  let digits := cs.takeWhile isDigit
  if digits.isEmpty then none
  else
    some (ofNumber (numberValue base digits),
      mark + digits.length + semicolon (cs.drop digits.length))

def scanNumber (cs : List Char) : Option (Char × Nat) :=
  match cs with
  | 'x' :: rest | 'X' :: rest => ofDigits 2 16 isHexDigit rest
  | rest => ofDigits 1 10 Char.isDigit rest

/-- Whether an attribute value goes on in a way that takes a name without semicolon as plain text. -/
def continuesWord (cs : List Char) : Bool := cs.head?.any fun c => c = '=' || c.isAlphanum

def scanName (inValue : Bool) (cs : List Char) : Option (Char × Nat) :=
  match named.find? fun entry => entry.1.toList.isPrefixOf cs with
  | none => none
  | some (name, c) =>
    let rest := cs.drop name.length
    if semicolon rest = 1 then some (c, name.length + 1)
    else if inValue && continuesWord rest then none
    else some (c, name.length)

/-- Reads a reference whose ampersand has been read: its character and how many characters it takes
up. -/
def scan (inValue : Bool) (cs : List Char) : Option (Char × Nat) :=
  match cs with
  | '#' :: rest => scanNumber rest
  | rest => scanName inValue rest

/-- Replaces the references in an attribute value, where the first characters may be skipped. -/
def resolveFrom : Nat → List Char → List Char
  | _, [] => []
  | skipped + 1, _ :: cs => resolveFrom skipped cs
  | 0, c :: cs =>
    if c = '&' then
      match scan true cs with
      | some (d, n) => d :: resolveFrom n cs
      | none => c :: resolveFrom 0 cs
    else c :: resolveFrom 0 cs

def resolve (cs : List Char) : List Char := resolveFrom 0 cs

end SafeForms.Html.Reference
