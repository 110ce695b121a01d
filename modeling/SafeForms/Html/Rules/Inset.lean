import SafeForms.Html.Rules.Table

/-!
The rules for select elements, for templates, and for what comes behind the body. The modes behind
a frameset are left out.
-/

namespace SafeForms.Html.Builder

open Text (isBlank)

def popOption (b : Builder) : Builder := if b.currentIs ["option"] then b.pop else b

def popGroup (b : Builder) : Builder := if b.currentIs ["optgroup"] then b.pop else b

/-- The end tag of a group also ends an option that is the last in it. -/
def endGroup (b : Builder) : Builder :=
  match b.elements with
  | e :: f :: _ => (if isOneOf ["option"] e && isOneOf ["optgroup"] f then b.pop else b).popGroup
  | _ => b.popGroup

def inSelect (b : Builder) (t : Token) : Reply :=
  let open? := b.hasInScope isSelectBoundary ["select"]
  let ended := (b.popThrough ["select"]).reset
  match t with
  | .character c => if c = '\x00' then .done b else .done (b.character c)
  | .comment content => .done (b.comment content)
  | .doctype _ | .fault => .done b
  | .startTag tag =>
    let name := tag.name
    if name = "html" then .done (b.extendRoot tag)
    else if name = "option" then .done (b.popOption.insert tag)
    else if name = "optgroup" then .done (b.popOption.popGroup.insert tag)
    else if name = "hr" then .done (b.popOption.popGroup.insertVoid tag)
    else if name = "select" then if open? then .done ended else .done b
    else if name ∈ ["input", "keygen", "textarea"] then if open? then .again ended else .done b
    else if name ∈ ["script", "template"] then b.inHead t
    else .done b
  | .endTag name =>
    if name = "optgroup" then .done b.endGroup
    else if name = "option" then .done b.popOption
    else if name = "select" then if open? then .done ended else .done b
    else if name = "template" then b.inHead t
    else .done b
  | .endOfInput => b.inBody t

def tableTagNames : List String :=
  ["caption", "table", "tbody", "tfoot", "thead", "tr", "td", "th"]

def inSelectInTable (b : Builder) (t : Token) : Reply :=
  let next : Reply := .again (b.popThrough ["select"]).reset
  match t with
  | .startTag tag => if tag.name ∈ tableTagNames then next else b.inSelect t
  | .endTag name =>
    if name ∈ tableTagNames then
      if b.hasInScope isTableBoundary [name] then next else .done b
    else b.inSelect t
  | _ => b.inSelect t

def inTemplateContents (b : Builder) (t : Token) : Reply :=
  match t with
  | .character _ | .comment _ | .doctype _ | .fault => b.inBody t
  | .startTag tag =>
    let name := tag.name
    if name ∈ headNames then b.inHead t
    else if name ∈ rowGroupNames || name ∈ ["caption", "colgroup"] then
      .again (b.switchTemplate .inTable)
    else if name = "col" then .again (b.switchTemplate .inColumnGroup)
    else if name = "tr" then .again (b.switchTemplate .inTableBody)
    else if name ∈ cellNames then .again (b.switchTemplate .inRow)
    else .again (b.switchTemplate .inBody)
  | .endTag name => if name = "template" then b.inHead t else .done b
  | .endOfInput => if b.inTemplate then .again b.endTemplate else .done b

/-- Behind the body. A comment goes to the end of the root element, anything else into the body. -/
def afterBody (b : Builder) (t : Token) : Reply :=
  let next : Reply := .again (b.switch .inBody)
  match t with
  | .character c => if isBlank c then b.inBody t else next
  | .comment content => .done (b.move (·.addToRoot (.comment content)))
  | .doctype _ | .fault | .endOfInput => .done b
  | .startTag tag => if tag.name = "html" then b.inBody t else next
  | .endTag name =>
    if name = "html" then
      if b.settings.fragment then .done b else .done (b.switch .afterAfterBody)
    else next

def afterAfterBody (b : Builder) (t : Token) : Reply :=
  let next : Reply := .again (b.switch .inBody)
  match t with
  | .character c => if isBlank c then b.inBody t else next
  | .comment content => .done (b.commentBehind content)
  | .doctype _ | .fault | .endOfInput => .done b
  | .startTag tag => if tag.name = "html" then b.inBody t else next
  | .endTag _ => next

end SafeForms.Html.Builder
