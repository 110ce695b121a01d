import SafeForms.Dom.Markup

/-!
Markup as text. Text and attribute values are escaped, but text stands raw directly inside the
elements whose content is not parsed. A void element has no end tag, and below it the tags of
elements are left out, while text and comments are still written. The contents of templates are not
written.
-/

namespace SafeForms.Html

def voidNames : List String :=
  ["area", "base", "basefont", "bgsound", "br", "col", "embed", "frame", "hr", "img", "input",
    "keygen", "link", "meta", "param", "source", "track", "wbr"]

/-- Elements whose text is written as it is. -/
def rawTextNames : List String :=
  ["style", "script", "xmp", "iframe", "noembed", "noframes", "plaintext", "noscript"]

def isVoid (e : Element) : Bool := e.ns = .html && e.name ∈ voidNames

def isRawText (e : Element) : Bool := e.ns = .html && e.name ∈ rawTextNames

def escapeTextChar (c : Char) : List Char :=
  if c = '&' then "&amp;".toList
  else if c = '\u00a0' then "&nbsp;".toList
  else if c = '<' then "&lt;".toList
  else if c = '>' then "&gt;".toList
  else [c]

def escapeValueChar (c : Char) : List Char :=
  if c = '&' then "&amp;".toList
  else if c = '\u00a0' then "&nbsp;".toList
  else if c = '"' then "&quot;".toList
  else [c]

def escapeText (s : String) : String := String.ofList (s.toList.flatMap escapeTextChar)

def escapeValue (s : String) : String := String.ofList (s.toList.flatMap escapeValueChar)

def qualifier (a : Attribute) : String :=
  match a.ns with
  | .null => ""
  | .xml => "xml:"
  | .xmlns => if a.name = "xmlns" then "" else "xmlns:"
  | .xlink => "xlink:"
  | .html | .svg | .mathml | .other _ => "unknown_namespace:"

def writeAttribute (a : Attribute) : String :=
  " " ++ qualifier a ++ a.name ++ "=\"" ++ escapeValue a.value ++ "\""

def writeAttributes (attrs : Attributes) : String :=
  String.join (attrs.map writeAttribute)

def startTag (e : Element) : String := "<" ++ e.name ++ writeAttributes e.attrs ++ ">"

def endTag (e : Element) : String := "</" ++ e.name ++ ">"

/-- What the elements around a node mean for it. -/
structure Surround where
  rawText : Bool := false
  /-- A void element stands above, so tags are left out. -/
  untagged : Bool := false
  deriving Repr, DecidableEq

def Surround.within (s : Surround) (e : Element) : Surround where
  rawText := isRawText e
  untagged := s.untagged || isVoid e

def writeStart (s : Surround) : Node → String
  | .document => ""
  | .doctype name _ _ => "<!DOCTYPE " ++ name ++ ">"
  | .text content => if s.rawText then content else escapeText content
  | .comment content => "<!--" ++ content ++ "-->"
  | .instruction target data => "<?" ++ target ++ " " ++ data ++ ">"
  | .element e => if s.untagged then "" else startTag e

def writeEnd (s : Surround) (e : Element) : String :=
  if (s.within e).untagged then "" else endTag e

/-- Only the children of elements are written. -/
def write (s : Surround) : Markup → String
  | .nil => ""
  | .node n _ children siblings =>
    let inner :=
      match n with
      | .element e => write (s.within e) children ++ writeEnd s e
      | _ => ""
    writeStart s n ++ inner ++ write s siblings

def serialize (m : Markup) : String := write {} m

end SafeForms.Html
