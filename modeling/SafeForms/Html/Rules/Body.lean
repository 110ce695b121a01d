import SafeForms.Html.Rules.Head

/-!
The rules for the body and for the texts in it. The list of active formatting elements and the
adoption agency are left out: `b`, `i`, `a`, `nobr` and their like are opened and ended like any
other element, so `<p><b>x</p>y` reads as `<p><b>x</b></p>y`, `<a>x<a>y` has one link in the other,
and an end tag also ends what is open in its element. Frames and framesets are passed over.
-/

namespace SafeForms.Html.Builder

def tableModes : List Mode := [.inTable, .inCaption, .inTableBody, .inRow, .inCell]

/-- The item of a list that a further item ends. Blocks other than these hide the items around
them. -/
def itemToEnd (names : List String) : List Element → Option String
  | [] => none
  | e :: es =>
    if isOneOf names e then some e.name
    else if isOneOf specialNames e && !isOneOf ["address", "div", "p"] e then none
    else itemToEnd names es

def beginItem (b : Builder) (names : List String) (tag : Tag) : Builder :=
  let b :=
    match itemToEnd names b.elements with
    | some name => b.endOptional name
    | none => b
  b.endParagraph.insert tag

def beginHeading (b : Builder) (tag : Tag) : Builder :=
  let b := b.endParagraph
  (if b.currentIs headingNames then b.pop else b).insert tag

def beginButton (b : Builder) (tag : Tag) : Builder :=
  (if b.hasInScope isBoundary ["button"] then b.endElement ["button"] else b).insert tag

def beginTable (b : Builder) (tag : Tag) : Builder :=
  ((if b.lenient then b else b.endParagraph).insert tag).switch .inTable

def beginSelect (b : Builder) (tag : Tag) : Builder :=
  (b.insert tag).switch (if b.mode ∈ tableModes then .inSelectInTable else .inSelect)

def beginOption (b : Builder) (tag : Tag) : Builder :=
  (if b.currentIs ["option"] then b.pop else b).insert tag

/-- A part of an annotated text, where the part before it ends but for one kind. -/
def beginAnnotation (b : Builder) (kept : List String) (tag : Tag) : Builder :=
  (if b.hasInScope isBoundary ["ruby"] then b.endImplied kept else b).insert tag

def startInBody (b : Builder) (tag : Tag) : Reply :=
  let name := tag.name
  if name = "html" then .done (b.extendRoot tag)
  else if name ∈ headNames then b.inHead (.startTag tag)
  else if name = "body" then .done (b.extendBody tag)
  else if name ∈ blockNames || name = "p" then .done (b.endParagraph.insert tag)
  else if name ∈ headingNames then .done (b.beginHeading tag)
  else if name ∈ ["pre", "listing"] then
    .done { b.endParagraph.insert tag with skipsNewline := true }
  else if name = "form" then .done (b.beginForm tag)
  else if name = "li" then .done (b.beginItem ["li"] tag)
  else if name ∈ ["dd", "dt"] then .done (b.beginItem ["dd", "dt"] tag)
  else if name = "plaintext" then
    .done { b.endParagraph.insert tag with lexing := some .plainText }
  else if name = "button" then .done (b.beginButton tag)
  else if name = "table" then .done (b.beginTable tag)
  else if name ∈ inlineVoidNames || name ∈ partVoidNames then .done (b.insertVoid tag)
  else if name = "hr" then .done (b.endParagraph.insertVoid tag)
  else if name = "image" then .done (b.insertVoid { tag with name := "img" })
  else if name = "textarea" then
    .done { b.insertText tag (.escapableText name) with skipsNewline := true }
  else if name = "xmp" then .done (b.endParagraph.insertText tag (.rawText name))
  else if name ∈ ["iframe", "noembed"] || (name = "noscript" && b.settings.scripting) then
    .done (b.insertText tag (.rawText name))
  else if name = "select" then .done (b.beginSelect tag)
  else if name ∈ ["optgroup", "option"] then .done (b.beginOption tag)
  else if name ∈ ["rb", "rtc"] then .done (b.beginAnnotation [] tag)
  else if name ∈ ["rp", "rt"] then .done (b.beginAnnotation ["rtc"] tag)
  else if name = "math" then .done (b.insertForeign .mathml tag)
  else if name = "svg" then .done (b.insertForeign .svg tag)
  else if name ∈ tablePartNames || name ∈ ["frame", "frameset", "head"] then .done b
  else .done (b.insert tag)

/-- Whether an end tag finds its element before a special one hides it. -/
def findsEnd (name : String) : List Element → Bool
  | [] => false
  | e :: es => isOneOf [name] e || (!isOneOf specialNames e && findsEnd name es)

/-- The end tag of a paragraph makes an empty one if none is open. -/
def endOrMakeParagraph (b : Builder) : Builder :=
  if b.hasInScope isButtonBoundary ["p"] then b.endOptional "p"
  else (b.insertNamed "p").endOptional "p"

def endInBody (b : Builder) (name : String) : Reply :=
  let within (boundary : Element → Bool) (names : List String) (ended : Builder) : Reply :=
    if b.hasInScope boundary names then .done ended else .done b
  if name = "template" then b.inHead (.endTag name)
  else if name = "body" then within isBoundary ["body"] (b.switch .afterBody)
  else if name = "html" then
    if b.hasInScope isBoundary ["body"] then .again (b.switch .afterBody) else .done b
  else if name ∈ blockNames || name ∈ ["button", "listing", "pre"] || name ∈ objectNames then
    within isBoundary [name] (b.endElement [name])
  else if name = "form" then .done b.endForm
  else if name = "p" then .done b.endOrMakeParagraph
  else if name = "li" then within isListBoundary [name] (b.endOptional name)
  else if name ∈ ["dd", "dt"] then within isBoundary [name] (b.endOptional name)
  else if name ∈ headingNames then within isBoundary headingNames (b.endElement headingNames)
  else if name = "br" then .done (b.insertVoid { name })
  else if findsEnd name b.elements then .done (b.endOptional name)
  else .done b

def inBody (b : Builder) (t : Token) : Reply :=
  match t with
  | .character c => if c = '\x00' then .done b else .done (b.character c)
  | .comment content => .done (b.comment content)
  | .doctype _ | .fault => .done b
  | .startTag tag => b.startInBody tag
  | .endTag name => b.endInBody name
  | .endOfInput =>
    if b.templates.isEmpty || !b.inTemplate then .done b else .again b.endTemplate

def inText (b : Builder) (t : Token) : Reply :=
  match t with
  | .character c => .done (b.character c)
  | .endTag _ => .done (b.pop.switch b.resume)
  | .endOfInput => .again (b.pop.switch b.resume)
  | .comment _ | .doctype _ | .fault | .startTag _ => .done b

end SafeForms.Html.Builder
