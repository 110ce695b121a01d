import SafeForms.Html.Reference
import SafeForms.Html.Token
import SafeForms.Text.Ascii

/-!
Reading tokens. One step takes at least one character and gives the tokens that are complete with
it, the way of reading from there on, and the characters that remain, which are an end of those that
followed the first one (`rest_step_suffix`). A tag that the input does not finish gives no token.
-/

namespace SafeForms.Html.Lexer

open Text
open Text.Utf8 (replacement)

/-- NUL has no place in names, values and raw text. -/
def clean (c : Char) : Char := if c = '\x00' then replacement else c

def cleanText (cs : List Char) : String := String.ofList (cs.map clean)

def cleanName (cs : List Char) : String := String.ofList ((lowerChars cs).map clean)

/-! ### Tags -/

def endsTagName (c : Char) : Bool := isBlank c || c = '/' || c = '>'

def endsAttributeName (c : Char) : Bool := endsTagName c || c = '='

def endsBareValue (c : Char) : Bool := isBlank c || c = '>'

/-- The value of an attribute up to its closing quote, which must come. -/
def scanQuoted (mark : Char) (cs : List Char) : Option (List Char × List Char) :=
  match cs.dropWhile (· ≠ mark) with
  | [] => none
  | _ :: rest => some (cs.takeWhile (· ≠ mark), rest)

def scanValue (cs : List Char) : Option (List Char × List Char) :=
  match cs.dropWhile isBlank with
  | '=' :: rest =>
    match rest.dropWhile isBlank with
    | '"' :: inner => scanQuoted '"' inner
    | '\'' :: inner => scanQuoted '\'' inner
    | bare =>
      some (bare.takeWhile (!endsBareValue ·), bare.dropWhile (!endsBareValue ·))
  | rest => some ([], rest)

theorem length_dropWhile_le (p : Char → Bool) (cs : List Char) :
    (cs.dropWhile p).length ≤ cs.length :=
  (List.dropWhile_suffix p).length_le

theorem suffix_of_dropWhile {p : Char → Bool} {cs rest : List Char} {c : Char}
    (h : cs.dropWhile p = c :: rest) : rest <:+ cs :=
  ((List.suffix_cons c rest).trans (h ▸ List.suffix_rfl)).trans (List.dropWhile_suffix p)

theorem rest_scanQuoted_suffix {mark : Char} {cs value rest : List Char}
    (h : scanQuoted mark cs = some (value, rest)) : rest <:+ cs := by
  unfold scanQuoted at h
  split at h
  · contradiction
  · next e =>
    cases h
    exact suffix_of_dropWhile e

theorem rest_scanValue_suffix {cs value rest : List Char}
    (h : scanValue cs = some (value, rest)) : rest <:+ cs := by
  unfold scanValue at h
  split at h
  · next inner e =>
    refine List.IsSuffix.trans ?_ (suffix_of_dropWhile e)
    split at h
    · next quoted =>
      exact (rest_scanQuoted_suffix h).trans (suffix_of_dropWhile quoted)
    · next quoted =>
      exact (rest_scanQuoted_suffix h).trans (suffix_of_dropWhile quoted)
    · cases h
      exact (List.dropWhile_suffix _).trans (List.dropWhile_suffix _)
  · cases h
    exact List.dropWhile_suffix _

def addAttribute (attrs : List (String × String)) (name value : List Char) :
    List (String × String) :=
  let name := cleanName name
  if attrs.any (·.1 = name) then attrs
  else attrs ++ [(name, cleanText (Reference.resolve value))]

def scanAttributes (attrs : List (String × String)) (cs : List Char) :
    Option (List (String × String) × Bool × List Char) :=
  match _head : cs.dropWhile isBlank with
  | [] => none
  | c :: rest =>
    if c = '>' then some (attrs, false, rest)
    else if c = '/' then
      if rest.head? = some '>' then some (attrs, true, rest.tail)
      else scanAttributes attrs rest
    else
      match _value : scanValue (rest.dropWhile (!endsAttributeName ·)) with
      | none => none
      | some (value, after) =>
        scanAttributes
          (addAttribute attrs (c :: rest.takeWhile (!endsAttributeName ·)) value) after
termination_by cs.length
decreasing_by
  · have := length_dropWhile_le isBlank cs
    rw [_head, List.length_cons] at this
    omega
  · have first := length_dropWhile_le isBlank cs
    have second := length_dropWhile_le (!endsAttributeName ·) rest
    have third := (rest_scanValue_suffix _value).length_le
    rw [_head, List.length_cons] at first
    omega

theorem rest_scanAttributes_suffix {attrs read : List (String × String)} {closing : Bool}
    {cs rest : List Char} (h : scanAttributes attrs cs = some (read, closing, rest)) :
    rest <:+ cs := by
  fun_induction scanAttributes attrs cs with
  | case1 => contradiction
  | case2 attrs cs after e =>
      cases h
      exact suffix_of_dropWhile e
  | case3 attrs cs after _ e =>
      cases h
      exact (List.tail_suffix _).trans (suffix_of_dropWhile e)
  | case4 attrs cs after _ e _ ih => exact (ih h).trans (suffix_of_dropWhile e)
  | case5 => contradiction
  | case6 attrs cs c after e _ _ value remaining g ih =>
      exact ((ih h).trans (rest_scanValue_suffix g)).trans
        ((List.dropWhile_suffix _).trans (suffix_of_dropWhile e))

/-! ### Comments and declarations -/

def scanComment : List Char → List Char × List Char
  | [] | ['-'] | ['-', '-'] | ['-', '-', '!'] => ([], [])
  | '-' :: '-' :: '>' :: rest => ([], rest)
  | '-' :: '-' :: '!' :: '>' :: rest => ([], rest)
  | c :: cs =>
    let (content, rest) := scanComment cs
    (c :: content, rest)

theorem rest_scanComment_suffix (cs : List Char) : (scanComment cs).2 <:+ cs := by
  fun_induction scanComment cs with
  | case1 => exact List.nil_suffix
  | case2 => exact List.nil_suffix
  | case3 => exact List.nil_suffix
  | case4 => exact List.nil_suffix
  | case5 rest => exact List.suffix_append ['-', '-', '>'] rest
  | case6 rest => exact List.suffix_append ['-', '-', '!', '>'] rest
  | case7 c cs _ _ _ _ _ content rest e ih =>
      rw [e] at ih
      exact ih.trans (List.suffix_cons c cs)

def afterBracket (cs : List Char) : List Char := (cs.dropWhile (· ≠ '>')).tail

theorem afterBracket_suffix (cs : List Char) : afterBracket cs <:+ cs :=
  (List.tail_suffix _).trans (List.dropWhile_suffix _)

/-- Markup that is nothing else is a comment up to the next closing bracket. -/
def bogusComment (cs : List Char) : Token := .comment (cleanText (cs.takeWhile (· ≠ '>')))

def isQuote (c : Char) : Bool := c = '"' || c = '\''

def scanSystem (d : DocumentType) (required : Bool) (cs : List Char) : DocumentType :=
  match cs.dropWhile isBlank with
  | [] => { d with broken := required }
  | mark :: rest =>
    if isQuote mark then
      { d with
        systemId := some (cleanText (rest.takeWhile (· ≠ mark)))
        broken := !rest.contains mark }
    else { d with broken := true }

def scanPublic (d : DocumentType) (cs : List Char) : DocumentType :=
  match cs.dropWhile isBlank with
  | [] => { d with broken := true }
  | mark :: rest =>
    if isQuote mark then
      let d := { d with publicId := some (cleanText (rest.takeWhile (· ≠ mark))) }
      if rest.contains mark then scanSystem d false (rest.dropWhile (· ≠ mark)).tail
      else { d with broken := true }
    else { d with broken := true }

def scanExternal (d : DocumentType) (cs : List Char) : DocumentType :=
  let cs := cs.dropWhile isBlank
  if cs.isEmpty then d
  else if startsWithFolded "public".toList cs then scanPublic d (cs.drop 6)
  else if startsWithFolded "system".toList cs then scanSystem d true (cs.drop 6)
  else { d with broken := true }

def scanDoctype (cs : List Char) : DocumentType :=
  let cs := cs.dropWhile isBlank
  if cs.isEmpty then { broken := true }
  else
    scanExternal { name := some (cleanName (cs.takeWhile (!isBlank ·))) }
      (cs.dropWhile (!isBlank ·))

/-- A document type declaration after its keyword; without a closing bracket it is broken. -/
def doctype (cs : List Char) : Token :=
  let d := scanDoctype (cs.takeWhile (· ≠ '>'))
  .doctype { d with broken := d.broken || !cs.contains '>' }

def scanSection : List Char → List Char × List Char
  | [] => ([], [])
  | ']' :: ']' :: '>' :: rest => ([], rest)
  | c :: cs =>
    let (content, rest) := scanSection cs
    (c :: content, rest)

theorem rest_scanSection_suffix (cs : List Char) : (scanSection cs).2 <:+ cs := by
  fun_induction scanSection cs with
  | case1 => exact List.nil_suffix
  | case2 rest => exact List.suffix_append [']', ']', '>'] rest
  | case3 c cs _ content rest e ih =>
      rw [e] at ih
      exact ih.trans (List.suffix_cons c cs)

/-! ### Steps -/

structure Step where
  tokens : List Token
  lexing : Lexing
  rest : List Char
  deriving Repr

def stepTag (closing : Bool) (cs : List Char) : Step :=
  let name := cleanName (cs.takeWhile (!endsTagName ·))
  match scanAttributes [] (cs.dropWhile (!endsTagName ·)) with
  | none => ⟨[], .data, []⟩
  | some (attrs, selfClosing, rest) =>
    let token := if closing then .endTag name else .startTag ⟨name, attrs, selfClosing⟩
    ⟨[token], .data, rest⟩

def stepComment (cs : List Char) : Step :=
  match cs with
  | '>' :: rest | '-' :: '>' :: rest => ⟨[.comment ""], .data, rest⟩
  | cs =>
    let (content, rest) := scanComment cs
    ⟨[.comment (cleanText content)], .data, rest⟩

/-- What follows an opening bracket and an exclamation mark. A section of plain characters occurs
only in foreign elements. -/
def stepDeclaration (foreign : Bool) (cs : List Char) : Step :=
  if "--".toList.isPrefixOf cs then stepComment (cs.drop 2)
  else if startsWithFolded "doctype".toList cs then
    ⟨[doctype (cs.drop 7)], .data, afterBracket (cs.drop 7)⟩
  else if foreign && "[CDATA[".toList.isPrefixOf cs then
    let (content, rest) := scanSection (cs.drop 7)
    ⟨content.map .character, .data, rest⟩
  else ⟨[bogusComment cs], .data, afterBracket cs⟩

def stepMarkup (foreign : Bool) (cs : List Char) : Step :=
  match cs with
  | '!' :: rest => stepDeclaration foreign rest
  | '?' :: _ => ⟨[bogusComment cs], .data, afterBracket cs⟩
  | '/' :: rest =>
    match rest with
    | [] => ⟨[.character '<', .character '/'], .data, []⟩
    | c :: after =>
      if c.isAlpha then stepTag true rest
      else if c = '>' then ⟨[.fault], .data, after⟩
      else ⟨[bogusComment rest], .data, afterBracket rest⟩
  | c :: _ => if c.isAlpha then stepTag false cs else ⟨[.character '<'], .data, cs⟩
  | [] => ⟨[.character '<'], .data, []⟩

/-- What follows an ampersand in text that has references. A reference without its semicolon is a
fault. -/
def stepReference (lexing : Lexing) (cs : List Char) : Step :=
  match Reference.scan false cs with
  | some (c, n) =>
    let closed := (cs.take n).getLast? = some ';'
    ⟨if closed then [.character c] else [.fault, .character c], lexing, cs.drop n⟩
  | none => ⟨[.character '&'], lexing, cs⟩

def afterEndName? (name : List Char) (cs : List Char) : Option (List Char) :=
  match cs with
  | '/' :: rest =>
    if startsWithFolded name rest && (rest.drop name.length).head?.any endsTagName then
      some (rest.drop name.length)
    else none
  | _ => none

def stepEndTag? (name : String) (cs : List Char) : Option Step :=
  (afterEndName? name.toList cs).map fun after =>
    match scanAttributes [] after with
    | none => ⟨[], .data, []⟩
    | some (_, _, rest) => ⟨[.endTag name], .data, rest⟩

def stepText (name : String) (lexing : Lexing) (c : Char) (cs : List Char) : Step :=
  let plain : Step := ⟨[.character (clean c)], lexing, cs⟩
  if c = '<' then (stepEndTag? name cs).getD plain else plain

def namesScript (cs : List Char) : Bool :=
  startsWithFolded "script".toList cs && (cs.drop 6).head?.any endsTagName

def ScriptPart.next (part : ScriptPart) (c : Char) (cs : List Char) : ScriptPart :=
  match part with
  | .plain => .plain
  | .comment dashes =>
    if c = '-' then .comment (min 2 (dashes + 1))
    else if c = '>' && dashes = 2 then .plain
    else if c = '<' && namesScript cs then .nested 0
    else .comment 0
  | .nested dashes =>
    if c = '-' then .nested (min 2 (dashes + 1))
    else if c = '>' && dashes = 2 then .plain
    else if c = '<' && cs.head? = some '/' && namesScript cs.tail then .comment 0
    else .nested 0

/-- A character of a script. Where another script is open in a comment, no end tag ends it. -/
def stepScript (part : ScriptPart) (c : Char) (cs : List Char) : Step :=
  let plain : Step := ⟨[.character (clean c)], .script (ScriptPart.next part c cs), cs⟩
  match part with
  | .nested _ => plain
  | .comment _ => if c = '<' then (stepEndTag? "script" cs).getD plain else plain
  | .plain =>
    if c = '<' then
      if "!--".toList.isPrefixOf cs then
        ⟨['<', '!', '-', '-'].map .character, .script (.comment 2), cs.drop 3⟩
      else (stepEndTag? "script" cs).getD plain
    else plain

def step (lexing : Lexing) (foreign : Bool) (c : Char) (cs : List Char) : Step :=
  match lexing with
  | .data =>
    if c = '<' then stepMarkup foreign cs
    else if c = '&' then stepReference .data cs
    else ⟨[.character c], .data, cs⟩
  | .escapableText name =>
    if c = '&' then stepReference lexing cs else stepText name lexing c cs
  | .rawText name => stepText name lexing c cs
  | .script part => stepScript part c cs
  | .plainText => ⟨[.character (clean c)], .plainText, cs⟩

def Step.endsScript (s : Step) (lexing : Lexing) : Bool :=
  match lexing, s.tokens with
  | .script _, [.endTag _] => true
  | _, _ => false

/-! ### Progress -/

theorem rest_stepTag_suffix (closing : Bool) (cs : List Char) : (stepTag closing cs).rest <:+ cs := by
  unfold stepTag
  split
  · exact List.nil_suffix
  · next e => exact (rest_scanAttributes_suffix e).trans (List.dropWhile_suffix _)

theorem rest_stepComment_suffix (cs : List Char) : (stepComment cs).rest <:+ cs := by
  unfold stepComment
  split
  · exact List.suffix_cons _ _
  · exact List.suffix_append ['-', '>'] _
  · exact rest_scanComment_suffix cs

theorem rest_stepDeclaration_suffix (foreign : Bool) (cs : List Char) :
    (stepDeclaration foreign cs).rest <:+ cs := by
  unfold stepDeclaration
  split
  · exact (rest_stepComment_suffix _).trans (List.drop_suffix 2 cs)
  · split
    · exact (afterBracket_suffix _).trans (List.drop_suffix 7 cs)
    · split
      · exact (rest_scanSection_suffix _).trans (List.drop_suffix 7 cs)
      · exact afterBracket_suffix cs

theorem rest_stepMarkup_suffix (foreign : Bool) (cs : List Char) :
    (stepMarkup foreign cs).rest <:+ cs := by
  unfold stepMarkup
  split
  · exact (rest_stepDeclaration_suffix foreign _).trans (List.suffix_cons _ _)
  · exact afterBracket_suffix _
  · next rest =>
    refine List.IsSuffix.trans ?_ (List.suffix_cons '/' rest)
    split
    · exact List.nil_suffix
    · split
      · exact rest_stepTag_suffix true _
      · split
        · exact List.suffix_cons _ _
        · exact afterBracket_suffix _
  · split
    · exact rest_stepTag_suffix false _
    · exact List.suffix_rfl
  · exact List.nil_suffix

theorem rest_stepReference_suffix (lexing : Lexing) (cs : List Char) :
    (stepReference lexing cs).rest <:+ cs := by
  unfold stepReference
  split
  · exact List.drop_suffix _ cs
  · exact List.suffix_rfl

theorem afterEndName_suffix {name cs after : List Char} (h : afterEndName? name cs = some after) :
    after <:+ cs := by
  unfold afterEndName? at h
  split at h
  · split at h
    · cases h
      exact (List.drop_suffix _ _).trans (List.suffix_cons _ _)
    · contradiction
  · contradiction

theorem rest_getD_stepEndTag_suffix {name : String} {cs : List Char} {s : Step}
    (h : s.rest <:+ cs) : ((stepEndTag? name cs).getD s).rest <:+ cs := by
  cases e : stepEndTag? name cs with
  | none => exact h
  | some ended =>
      obtain ⟨after, ha, rfl⟩ := Option.map_eq_some_iff.mp e
      simp only [Option.getD_some]
      split
      · exact List.nil_suffix
      · next scanned =>
        exact (rest_scanAttributes_suffix scanned).trans (afterEndName_suffix ha)

theorem rest_stepText_suffix (name : String) (lexing : Lexing) (c : Char) (cs : List Char) :
    (stepText name lexing c cs).rest <:+ cs := by
  unfold stepText
  split
  · exact rest_getD_stepEndTag_suffix List.suffix_rfl
  · exact List.suffix_rfl

theorem rest_stepScript_suffix (part : ScriptPart) (c : Char) (cs : List Char) :
    (stepScript part c cs).rest <:+ cs := by
  unfold stepScript
  split
  · exact List.suffix_rfl
  · split
    · exact rest_getD_stepEndTag_suffix List.suffix_rfl
    · exact List.suffix_rfl
  · split
    · split
      · exact List.drop_suffix 3 cs
      · exact rest_getD_stepEndTag_suffix List.suffix_rfl
    · exact List.suffix_rfl

/-- A step leaves an end of what followed its first character. -/
theorem rest_step_suffix (lexing : Lexing) (foreign : Bool) (c : Char) (cs : List Char) :
    (step lexing foreign c cs).rest <:+ cs := by
  unfold step
  split
  · split
    · exact rest_stepMarkup_suffix foreign cs
    · split
      · exact rest_stepReference_suffix _ cs
      · exact List.suffix_rfl
  · split
    · exact rest_stepReference_suffix _ cs
    · exact rest_stepText_suffix _ _ c cs
  · exact rest_stepText_suffix _ _ c cs
  · exact rest_stepScript_suffix _ c cs
  · exact List.suffix_rfl

theorem rest_step_le (lexing : Lexing) (foreign : Bool) (c : Char) (cs : List Char) :
    (step lexing foreign c cs).rest.length ≤ cs.length :=
  (rest_step_suffix lexing foreign c cs).length_le

end SafeForms.Html.Lexer
