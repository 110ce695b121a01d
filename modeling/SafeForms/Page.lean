import SafeForms.Html.Parse
import SafeForms.Input
import SafeForms.Scope

/-!
Pages from text to text: a page is read, its forms are corrected for the request it is served for,
and it is written again. The text may be at hand or come in pieces.
-/

namespace SafeForms

structure ParseOptions where
  /-- Scripts run, so that what stands in for them is read as text. -/
  scripting : Bool := true
  dropDoctype : Bool := false
  /-- A byte order mark is dropped where the reading begins. -/
  discardMark : Bool := true
  deriving Repr, DecidableEq, Inhabited

structure Options where
  parse : ParseOptions := {}
  request : Request := {}
  scope : Scope := .document
  deriving Repr, DecidableEq, Inhabited

structure Sanitized where
  html : String
  events : List Event
  deriving Repr, DecidableEq

namespace Page

def settings (o : Options) : Html.Settings where
  fragment := o.scope = .fragment
  scripting := o.parse.scripting
  dropDoctype := o.parse.dropDoctype

def ofPieces (o : Options) (pieces : List (List Char)) : Dom :=
  .ofMarkup (Html.parse (settings o) (.ofPieces o.parse.discardMark pieces))

def parse (o : Options) (text : String) : Dom := ofPieces o [text.toList]

def parseInput (o : Options) (answers : List ReadAnswer) : Except Failure Dom :=
  (Input.text answers).map (ofPieces o)

def finish (o : Options) (dom : Dom) : Sanitized :=
  let (corrected, events) := dom.sanitize o.request
  ⟨corrected.serialize o.scope, events⟩

def sanitize (o : Options) (text : String) : Sanitized := finish o (parse o text)

def sanitizeInput (o : Options) (answers : List ReadAnswer) : Except Failure Sanitized :=
  (parseInput o answers).map (finish o)

end Page
end SafeForms
