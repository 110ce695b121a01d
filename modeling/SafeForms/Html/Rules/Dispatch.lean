import SafeForms.Html.Rules.Inset

/-!
Which rules a token is read by: those of the mode, or those of foreign elements while the innermost
open element is one. A token that is to be looked at again is, until it is dealt with. There are no
modes for framesets and for the text of a table, which foster parenting would need; no rule brings
back a formatting element that was ended.
-/

namespace SafeForms.Html.Builder

def byMode (b : Builder) (t : Token) : Reply :=
  match b.mode with
  | .initial => b.initial t
  | .beforeHtml => b.beforeHtml t
  | .beforeHead => b.beforeHead t
  | .inHead => b.inHead t
  | .inHeadNoscript => b.inHeadNoscript t
  | .afterHead => b.afterHead t
  | .inBody => b.inBody t
  | .inText => b.inText t
  | .inTable => b.inTable t
  | .inCaption => b.inCaption t
  | .inColumnGroup => b.inColumnGroup t
  | .inTableBody => b.inTableBody t
  | .inRow => b.inRow t
  | .inCell => b.inCell t
  | .inSelect => b.inSelect t
  | .inSelectInTable => b.inSelectInTable t
  | .inTemplate => b.inTemplateContents t
  | .afterBody => b.afterBody t
  | .afterAfterBody => b.afterAfterBody t

/-- A tag that ends the foreign elements it stands in. -/
def breakOut (b : Builder) (t : Token) : Reply :=
  (b.popWhile fun e => !Foreign.holdsHtml e).byMode t

inductive ForeignEnd where
  | found
  /-- It belongs to the HTML element around the foreign ones. -/
  | outside
  | ignored
  deriving Repr, DecidableEq

def findForeignEnd (name : String) (innermost : Bool) : List Element → ForeignEnd
  | [] | [_] => .ignored
  | e :: es =>
    if !innermost && e.ns = .html then .outside
    else if Text.lower e.name = name then .found
    else findForeignEnd name false es

def foreignEnd (b : Builder) (name : String) : Reply :=
  match findForeignEnd name true b.elements with
  | .found => .done (b.move (·.popThrough fun e => Text.lower e.name = name))
  | .outside => b.byMode (.endTag name)
  | .ignored => .done b

def inForeign (b : Builder) (t : Token) : Reply :=
  match t with
  | .character c => .done (b.character (if c = '\x00' then '\ufffd' else c))
  | .comment content => .done (b.comment content)
  | .startTag tag =>
    if Foreign.breaksOut tag then b.breakOut t else .done (b.insertForeign b.current.ns tag)
  | .endTag name => if name ∈ ["br", "p"] then b.breakOut t else b.foreignEnd name
  | .doctype _ | .fault | .endOfInput => .done b

def dispatch (b : Builder) (t : Token) : Reply :=
  if Foreign.applies b.current t then b.inForeign t else b.byMode t

def settle (t : Token) : Nat → Builder → Builder
  | 0, b => b
  | n + 1, b =>
    match b.dispatch t with
    | .done b => b
    | .again b => settle t n b

/-- How often a token may have to be looked at: every time again an element is ended, or the mode
moves on to one that comes later in a page or deeper in a table. -/
def patience (b : Builder) : Nat := 4 * b.cursor.frames.length + 16

def feed (b : Builder) (t : Token) : Builder :=
  let plain := { b with skipsNewline := false }
  if b.skipsNewline && t = .character '\n' then plain else settle t plain.patience plain

end SafeForms.Html.Builder
