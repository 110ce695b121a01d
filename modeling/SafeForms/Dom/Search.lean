import SafeForms.Dom

/-!
Searching a document by tag name. The search goes through children links only and takes the nodes
from an explicit stack; it finds the elements below a handle in document order (`find_eq`).
-/

namespace SafeForms.Dom

/-- The proper descendants of a handle in document order. -/
def descendants (dom : Dom) (h : Handle) : List NodeId := (dom.children h).visible

/-- The HTML elements of this name below a handle, in the order in which they leave the stack. -/
def find (dom : Dom) (h : Handle) (name : String) : List NodeId :=
  (Forest.visits (dom.children h).roots).filter fun id => dom.isHtml name (.node id)

theorem find_eq (dom : Dom) (h : Handle) (name : String) :
    dom.find h name = (dom.descendants h).filter fun id => dom.isHtml name (.node id) := by
  rw [find, Forest.visits_roots, descendants]

end SafeForms.Dom
