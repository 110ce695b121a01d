import SafeForms.Html.Builder
import SafeForms.Text.Ascii

/-!
The rules for what stands before the body: the document type, the root element and the head. The
modes of framesets are left out, so a frameset opens a body like any other element. Left out are also
the identifiers of old document types: a page is lenient if its document type is missing, broken or
of another name than `html`.
-/

namespace SafeForms.Html.Builder

open Text (isBlank)

/-- End tags that open the parts of a page which are still missing, like a start tag would. -/
def openingEndNames : List String := ["head", "body", "html", "br"]

def initial (b : Builder) (t : Token) : Reply :=
  let next : Reply := .again { b with lenient := true, mode := .beforeHtml }
  match t with
  | .character c => if isBlank c then .done b else next
  | .comment content => .done (b.commentBefore content)
  | .doctype d =>
    let node : Node := .doctype (d.name.getD "") (d.publicId.getD "") (d.systemId.getD "")
    .done { b with
      prolog := if b.settings.dropDoctype then b.prolog else b.prolog ++ .leaf node
      lenient := d.broken || d.name ≠ some "html"
      mode := .beforeHtml }
  | .fault => .done b
  | .startTag _ | .endTag _ | .endOfInput => next

def beforeHtml (b : Builder) (t : Token) : Reply :=
  let next : Reply := .again (b.switch .beforeHead)
  match t with
  | .character c => if isBlank c then .done b else next
  | .comment content => .done (b.commentBefore content)
  | .doctype _ | .fault => .done b
  | .startTag tag =>
    if tag.name = "html" then .done ((b.extendRoot tag).switch .beforeHead) else next
  | .endTag name => if name ∈ openingEndNames then next else .done b
  | .endOfInput => next

def beforeHead (b : Builder) (t : Token) : Reply :=
  let next : Reply := .again ((b.insertNamed "head").switch .inHead)
  match t with
  | .character c => if isBlank c then .done b else next
  | .comment content => .done (b.comment content)
  | .doctype _ | .fault => .done b
  | .startTag tag =>
    if tag.name = "html" then .done (b.extendRoot tag)
    else if tag.name = "head" then .done ((b.insert tag).switch .inHead)
    else next
  | .endTag name => if name ∈ openingEndNames then next else .done b
  | .endOfInput => next

def startInHead (b : Builder) (tag : Tag) : Option Builder :=
  if tag.name = "html" then some (b.extendRoot tag)
  else if tag.name ∈ headVoidNames then some (b.insertVoid tag)
  else if tag.name = "title" then some (b.insertText tag (.escapableText "title"))
  else if tag.name = "noscript" && !b.settings.scripting then
    some ((b.insert tag).switch .inHeadNoscript)
  else if tag.name ∈ ["noframes", "style", "noscript"] then
    some (b.insertText tag (.rawText tag.name))
  else if tag.name = "script" then some (b.insertText tag (.script .plain))
  else if tag.name = "template" then some (b.beginTemplate tag)
  else if tag.name = "head" then some b
  else none

def inHead (b : Builder) (t : Token) : Reply :=
  let next : Reply := .again (b.pop.switch .afterHead)
  match t with
  | .character c => if isBlank c then .done (b.character c) else next
  | .comment content => .done (b.comment content)
  | .doctype _ | .fault => .done b
  | .startTag tag =>
    match b.startInHead tag with
    | some b => .done b
    | none => next
  | .endTag name =>
    if name = "head" then .done (b.pop.switch .afterHead)
    else if name = "template" then .done b.endTemplate
    else if name ∈ openingEndNames then next
    else .done b
  | .endOfInput => next

def inHeadNoscript (b : Builder) (t : Token) : Reply :=
  let next : Reply := .again (b.pop.switch .inHead)
  match t with
  | .character c => if isBlank c then b.inHead t else next
  | .comment _ | .doctype _ | .fault => b.inHead t
  | .startTag tag =>
    if tag.name ∈ ["html", "basefont", "bgsound", "link", "meta", "noframes", "style"] then
      b.inHead t
    else if tag.name ∈ ["head", "noscript"] then .done b
    else next
  | .endTag name =>
    if name = "noscript" then .done (b.pop.switch .inHead)
    else if name = "br" then next
    else .done b
  | .endOfInput => next

/-- An element of the head that comes when the head has ended already. -/
def lateInHead (b : Builder) (t : Token) : Reply :=
  let serial := b.cursor.serial
  match (b.move (·.reenterHead)).inHead t with
  | .done b => .done (b.move (·.closeFrame serial))
  | .again b => .again (b.move (·.closeFrame serial))

def afterHead (b : Builder) (t : Token) : Reply :=
  let next : Reply := .again ((b.insertNamed "body").switch .inBody)
  match t with
  | .character c => if isBlank c then .done (b.character c) else next
  | .comment content => .done (b.comment content)
  | .doctype _ | .fault => .done b
  | .startTag tag =>
    if tag.name = "html" then .done (b.extendRoot tag)
    else if tag.name = "body" then .done ((b.insert tag).switch .inBody)
    else if tag.name ∈ headNames then b.lateInHead t
    else if tag.name = "head" then .done b
    else next
  | .endTag name =>
    if name = "template" then .done b.endTemplate
    else if name ∈ openingEndNames && name ≠ "head" then next
    else .done b
  | .endOfInput => next

end SafeForms.Html.Builder
