import SafeForms.Dom.Edit
import SafeForms.Form.Pass
import SafeForms.Html.Serialize

/-!
Writing a document back: all of it, or only what the root element of a fragment holds.
-/

namespace SafeForms

inductive Scope where
  | document
  | fragment
  deriving Repr, DecidableEq, Inhabited

namespace Dom

/-- The trees that are written: those below the document, or in fragment scope those below its first
child, if it has one. -/
def served (dom : Dom) : Scope → Markup
  | .document => dom.markup root
  | .fragment => (dom.markup root).firstChildren?.getD .nil

def serialize (dom : Dom) (scope : Scope) : String := Html.serialize (dom.served scope)

def sanitize (dom : Dom) (r : Request) : Dom × List Event := Form.sanitize r dom root

end Dom
end SafeForms
