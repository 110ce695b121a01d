/-!
The tokens of markup, and the ways of reading characters that turn them into tokens.
-/

namespace SafeForms.Html

/-- A start tag. Names are in lower case and no attribute name occurs twice. -/
structure Tag where
  name : String
  attrs : List (String × String) := []
  selfClosing : Bool := false
  deriving Repr, DecidableEq, Inhabited

/-- A document type declaration; `broken` tells that it does not have the regular form. -/
structure DocumentType where
  name : Option String := none
  publicId : Option String := none
  systemId : Option String := none
  broken : Bool := false
  deriving Repr, DecidableEq, Inhabited

inductive Token where
  | character (c : Char)
  | startTag (tag : Tag)
  | endTag (name : String)
  | comment (content : String)
  | doctype (d : DocumentType)
  /-- An end tag without a name, or the missing semicolon of the reference that comes next. Nothing
  comes of it but that what follows it does not follow directly what stands before it. -/
  | fault
  | endOfInput
  deriving Repr, DecidableEq, Inhabited

/-- Where in a script the reading stands: outside of comments, in a comment, or in a comment after
another script was opened there. In a comment the dashes read last are counted, up to two. -/
inductive ScriptPart where
  | plain
  | comment (dashes : Nat)
  | nested (dashes : Nat)
  deriving Repr, DecidableEq, Inhabited

inductive Lexing where
  | data
  /-- Text with references, up to the end tag of this name. -/
  | escapableText (name : String)
  /-- Text as it is, up to the end tag of this name. -/
  | rawText (name : String)
  /-- Text of a script, in which a comment may hide the end tag. -/
  | script (part : ScriptPart)
  /-- Text as it is, up to the end of the input. -/
  | plainText
  deriving Repr, DecidableEq, Inhabited

end SafeForms.Html
