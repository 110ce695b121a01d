import SafeForms.Html.Cursor
import SafeForms.Html.Foreign

/-!
The state of tree construction and the acts that its rules are made of. The tree below the root
stands at a cursor; a document type and comments may stand before the root, comments behind it. The
rules for a token depend on the mode.

This is not all of HTML. Left out are

* the list of active formatting elements and the adoption agency, which open such an element again
  behind a block that ended it and take misnested ones apart: of `<p><b>x</p>y` the `y` is not bold;
* foster parenting, which puts before a table what has no place in it: `<table>x</table>` keeps its
  text inside;
* the modes of framesets, whose tags are passed over.
-/

namespace SafeForms.Html

inductive Mode where
  | initial
  | beforeHtml
  | beforeHead
  | inHead
  | inHeadNoscript
  | afterHead
  | inBody
  | inText
  | inTable
  | inCaption
  | inColumnGroup
  | inTableBody
  | inRow
  | inCell
  | inSelect
  | inSelectInTable
  | inTemplate
  | afterBody
  | afterAfterBody
  deriving Repr, DecidableEq, Inhabited

structure Settings where
  /-- The input is the content of a body, not a page of its own. -/
  fragment : Bool := false
  /-- Scripts run, so that what stands in for them is read as text. -/
  scripting : Bool := true
  dropDoctype : Bool := false
  deriving Repr, DecidableEq, Inhabited

structure Builder where
  settings : Settings
  mode : Mode
  prolog : Markup := .nil
  epilog : Markup := .nil
  cursor : Cursor := {}
  /-- The mode to return to after a text. -/
  resume : Mode := .inBody
  /-- The modes of the open templates, innermost first. -/
  templates : List Mode := []
  /-- The number of the form that is open as far as its tags tell. -/
  form : Option Nat := none
  skipsNewline : Bool := false
  /-- No regular document type was given, so a table may stand in a paragraph. -/
  lenient : Bool := false
  /-- How the characters after the token are read, where that is not settled by the token. -/
  lexing : Option Lexing := none
  deriving Repr, DecidableEq, Inhabited

/-- What comes of a token: it is dealt with, or it is looked at again in the new state. -/
inductive Reply where
  | done (b : Builder)
  | again (b : Builder)
  deriving Repr, DecidableEq, Inhabited

namespace Builder

/-- A page, or a fragment whose root element stands for the body it belongs to. -/
def start (settings : Settings) : Builder where
  settings := settings
  mode := if settings.fragment then .inBody else .initial

def current (b : Builder) : Element := b.cursor.current

def elements (b : Builder) : List Element := b.cursor.elements

def currentIs (b : Builder) (names : List String) : Bool := isOneOf names b.current

def inTemplate (b : Builder) : Bool := b.elements.any (isOneOf ["template"])

def hasInScope (b : Builder) (boundary : Element → Bool) (names : List String) : Bool :=
  inScope boundary (isOneOf names) b.elements

def switch (b : Builder) (mode : Mode) : Builder := { b with mode }

def move (b : Builder) (f : Cursor → Cursor) : Builder := { b with cursor := f b.cursor }

/-! ### Nodes -/

def character (b : Builder) (c : Char) : Builder := b.move (·.addCharacter c)

def comment (b : Builder) (content : String) : Builder := b.move (·.add (.comment content))

def commentBefore (b : Builder) (content : String) : Builder :=
  { b with prolog := b.prolog ++ .leaf (.comment content) }

def commentBehind (b : Builder) (content : String) : Builder :=
  { b with epilog := b.epilog ++ .leaf (.comment content) }

def attributes (tag : Tag) : Attributes := tag.attrs.map fun (name, value) => ⟨.null, name, value⟩

def element (tag : Tag) : Element := ⟨.html, tag.name, attributes tag⟩

def insert (b : Builder) (tag : Tag) : Builder := b.move (·.enter (element tag))

def insertNamed (b : Builder) (name : String) : Builder := b.insert { name }

def insertVoid (b : Builder) (tag : Tag) : Builder := b.move (·.add (.element (element tag)))

def insertText (b : Builder) (tag : Tag) (lexing : Lexing) : Builder :=
  { b.insert tag with mode := .inText, resume := b.mode, lexing := some lexing }

/-- A math or drawing element; one that closes itself holds nothing. -/
def insertForeign (b : Builder) (ns : Namespace) (tag : Tag) : Builder :=
  let e := Foreign.element ns tag
  if tag.selfClosing then b.move (·.add (.element e)) else b.move (·.enter e)

/-! ### Ends -/

def pop (b : Builder) : Builder := b.move (·.pop)

def popWhile (b : Builder) (test : Element → Bool) : Builder := b.move (·.popWhile test)

def popThrough (b : Builder) (names : List String) : Builder :=
  b.move (·.popThrough (isOneOf names))

/-- Ends elements until the innermost one has one of these names. -/
def popDownTo (b : Builder) (names : List String) : Builder :=
  b.popWhile fun e => !isOneOf names e

/-- Ends the elements whose end tags may be left out, but for one name. -/
def endImplied (b : Builder) (kept : List String) : Builder :=
  b.popWhile fun e => isOneOf impliedEndNames e && !isOneOf kept e

def endElement (b : Builder) (names : List String) : Builder :=
  (b.endImplied []).popThrough names

/-- Ends an element that may be left unclosed itself. -/
def endOptional (b : Builder) (name : String) : Builder :=
  (b.endImplied [name]).popThrough [name]

def endParagraph (b : Builder) : Builder :=
  if b.hasInScope isButtonBoundary ["p"] then b.endOptional "p" else b

/-! ### Modes -/

def selectMode : List Element → Mode
  | [] => .inSelect
  | e :: es =>
    if isOneOf ["template"] e then .inSelect
    else if isOneOf ["table"] e then .inSelectInTable
    else selectMode es

/-- The mode in which an open element is read that has a mode of its own. -/
def ownMode (b : Builder) (e : Element) (around : List Element) : Option Mode :=
  if isOneOf ["select"] e then some (selectMode around)
  else if isOneOf cellNames e then some .inCell
  else if isOneOf ["tr"] e then some .inRow
  else if isOneOf rowGroupNames e then some .inTableBody
  else if isOneOf ["caption"] e then some .inCaption
  else if isOneOf ["colgroup"] e then some .inColumnGroup
  else if isOneOf ["table"] e then some .inTable
  else if isOneOf ["template"] e then some (b.templates.head?.getD .inBody)
  else if isOneOf ["head"] e then some .inHead
  else if isOneOf ["body"] e then some .inBody
  else none

/-- The mode that the open elements stand for. The root of a fragment stands for a body. -/
def modeOf (b : Builder) : List Element → Mode
  | [] => .inBody
  | [_] => if b.settings.fragment then .inBody else .afterHead
  | e :: es => (b.ownMode e es).getD (b.modeOf es)

def reset (b : Builder) : Builder := b.switch (b.modeOf b.elements)

def endTemplate (b : Builder) : Builder :=
  if b.inTemplate then
    let b := (b.popWhile (isOneOf templateEndNames)).popThrough ["template"]
    reset { b with templates := b.templates.tail }
  else b

def beginTemplate (b : Builder) (tag : Tag) : Builder :=
  { b.insert tag with mode := .inTemplate, templates := .inTemplate :: b.templates }

def switchTemplate (b : Builder) (mode : Mode) : Builder :=
  { b with mode, templates := mode :: b.templates.tail }

/-! ### Attributes of the page -/

/-- A further start tag of the root element adds its attributes. -/
def extendRoot (b : Builder) (tag : Tag) : Builder :=
  if b.inTemplate then b else b.move (·.extendRoot (attributes tag))

def extendBody (b : Builder) (tag : Tag) : Builder :=
  if b.cursor.outermost?.any (isOneOf ["body"]) && !b.inTemplate then
    b.move (·.extendOutermost (attributes tag))
  else b

/-! ### Forms -/

/-- Whether the form that is open by its tags is still open on the path and in scope. -/
def formInScope (b : Builder) (serial : Nat) : Bool :=
  go (b.cursor.frames.filter (·.isOpen))
where
  go : List Frame → Bool
    | [] => false
    | f :: fs => f.serial = serial || (!isBoundary f.element && go fs)

/-- A form is not opened in another one, unless in a template. -/
def beginForm (b : Builder) (tag : Tag) : Builder :=
  if b.form.isSome && !b.inTemplate then b
  else
    let b := b.endParagraph
    let serial := b.cursor.serial
    let inside := b.insert tag
    if b.inTemplate then inside else { inside with form := some serial }

/-- The end tag of a form closes it even if elements in it are still open. -/
def endForm (b : Builder) : Builder :=
  if b.inTemplate then
    if b.hasInScope isBoundary ["form"] then b.endElement ["form"] else b
  else
    match b.form with
    | none => b
    | some serial =>
      let b := { b with form := none }
      if b.formInScope serial then (b.endImplied []).move (·.closeFrame serial) else b

/-- A form directly in a table holds nothing, but counts as open. -/
def placeForm (b : Builder) (tag : Tag) : Builder :=
  if b.form.isSome || b.inTemplate then b
  else
    let serial := b.cursor.serial
    { b.insert tag with form := some serial }.pop

/-! ### The end -/

def markup (b : Builder) : Markup := b.prolog ++ (b.cursor.tree ++ b.epilog)

end Builder
end SafeForms.Html
