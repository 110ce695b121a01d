import SafeForms.Html.Rules.Body

/-!
The rules for tables and their parts. Foster parenting is left out: text and elements that have no
place in a table are not put before it but stay where they stand, by the rules for the body. So
`<table>x</table>` is read as it is written.
-/

namespace SafeForms.Html.Builder

open Text (isBlank)

/-- What is open when a part of a table begins. -/
def tableHolders : List String := ["html", "table", "template"]

def rowHolders : List String := ["tbody", "tfoot", "thead", "template", "html"]

def cellHolders : List String := ["tr", "template", "html"]

/-- Ends what stands in the way of a part and begins the part. -/
def beginPart (b : Builder) (holders : List String) (tag : Tag) (mode : Mode) : Builder :=
  ((b.popDownTo holders).insert tag).switch mode

/-- Begins a part that has no tag of its own, so that the token can stand in it. -/
def againInPart (b : Builder) (holders : List String) (name : String) (mode : Mode) : Reply :=
  .again (b.beginPart holders { name } mode)

def inTable (b : Builder) (t : Token) : Reply :=
  let open? := b.hasInScope isTableBoundary ["table"]
  match t with
  | .comment content => .done (b.comment content)
  | .startTag tag =>
    let name := tag.name
    if name = "caption" then .done (b.beginPart tableHolders tag .inCaption)
    else if name = "colgroup" then .done (b.beginPart tableHolders tag .inColumnGroup)
    else if name = "col" then b.againInPart tableHolders "colgroup" .inColumnGroup
    else if name ∈ rowGroupNames then .done (b.beginPart tableHolders tag .inTableBody)
    else if name = "tr" || name ∈ cellNames then b.againInPart tableHolders "tbody" .inTableBody
    else if name = "table" then
      if open? then .again (b.popThrough ["table"]).reset else .done b
    else if name ∈ ["style", "script", "template"] then b.inHead t
    else if name = "form" then .done (b.placeForm tag)
    else b.inBody t
  | .endTag name =>
    if name = "table" then
      if open? then .done (b.popThrough ["table"]).reset else .done b
    else if name ∈ tablePartNames || name ∈ ["body", "html"] then .done b
    else b.inBody t
  | .character _ | .doctype _ | .fault | .endOfInput => b.inBody t

def inCaption (b : Builder) (t : Token) : Reply :=
  let ended := (b.endElement ["caption"]).switch .inTable
  let open? := b.hasInScope isTableBoundary ["caption"]
  match t with
  | .startTag tag =>
    if tag.name ∈ tablePartNames then if open? then .again ended else .done b
    else b.inBody t
  | .endTag name =>
    if name = "caption" then if open? then .done ended else .done b
    else if name = "table" then if open? then .again ended else .done b
    else if name ∈ tablePartNames || name ∈ ["body", "html"] then .done b
    else b.inBody t
  | _ => b.inBody t

def inColumnGroup (b : Builder) (t : Token) : Reply :=
  let next : Reply :=
    if b.currentIs ["colgroup"] then .again (b.pop.switch .inTable) else .done b
  match t with
  | .character c => if isBlank c then .done (b.character c) else next
  | .comment content => .done (b.comment content)
  | .doctype _ | .fault => .done b
  | .startTag tag =>
    if tag.name = "html" then .done (b.extendRoot tag)
    else if tag.name = "col" then .done (b.insertVoid tag)
    else if tag.name = "template" then b.inHead t
    else next
  | .endTag name =>
    if name = "colgroup" then
      if b.currentIs ["colgroup"] then .done (b.pop.switch .inTable) else .done b
    else if name = "col" then .done b
    else if name = "template" then b.inHead t
    else next
  | .endOfInput => b.inBody t

def inTableBody (b : Builder) (t : Token) : Reply :=
  let ended := (b.popDownTo rowHolders).pop.switch .inTable
  let next : Reply :=
    if b.hasInScope isTableBoundary ["table", "tbody", "tfoot"] then .again ended else .done b
  match t with
  | .startTag tag =>
    if tag.name = "tr" then .done (b.beginPart rowHolders tag .inRow)
    else if tag.name ∈ cellNames then b.againInPart rowHolders "tr" .inRow
    else if tag.name ∈ tablePartNames then next
    else b.inTable t
  | .endTag name =>
    if name ∈ rowGroupNames then
      if b.hasInScope isTableBoundary [name] then .done ended else .done b
    else if name = "table" then next
    else b.inTable t
  | _ => b.inTable t

def inRow (b : Builder) (t : Token) : Reply :=
  let ended := (b.popDownTo cellHolders).pop.switch .inTableBody
  let open? := b.hasInScope isTableBoundary ["tr"]
  let next : Reply := if open? then .again ended else .done b
  match t with
  | .startTag tag =>
    if tag.name ∈ cellNames then .done (b.beginPart cellHolders tag .inCell)
    else if tag.name ∈ tablePartNames then next
    else b.inTable t
  | .endTag name =>
    if name = "tr" then if open? then .done ended else .done b
    else if name = "table" then next
    else if name ∈ rowGroupNames then
      if b.hasInScope isTableBoundary [name] then next else .done b
    else b.inTable t
  | _ => b.inTable t

def inCell (b : Builder) (t : Token) : Reply :=
  let ended := (b.endElement cellNames).switch .inRow
  match t with
  | .startTag tag =>
    if tag.name ∈ tablePartNames then
      if b.hasInScope isTableBoundary cellNames then .again ended else .done b
    else b.inBody t
  | .endTag name =>
    if name ∈ cellNames then
      if b.hasInScope isTableBoundary [name] then .done ((b.endElement [name]).switch .inRow)
      else .done b
    else if name ∈ ["body", "caption", "col", "colgroup", "html"] then .done b
    else if name ∈ rowGroupNames || name ∈ ["table", "tr"] then
      if b.hasInScope isTableBoundary [name] then .again ended else .done b
    else b.inBody t
  | _ => b.inBody t

end SafeForms.Html.Builder
