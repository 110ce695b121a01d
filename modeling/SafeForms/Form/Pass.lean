import SafeForms.Form.Normalize

/-!
Passes over a document, run one after the other.
-/

namespace SafeForms

inductive Pass where
  | form (request : Request)
  /-- Appends a text to an attribute of every HTML element of a name; a missing attribute counts as
  empty. -/
  | stamp (tag attr text : String)
  /-- Takes an attribute from every HTML element of a name. -/
  | strip (tag attr : String)
  deriving Repr, DecidableEq

namespace Pass

def name : Pass → String
  | form _ => "form"
  | stamp _ _ _ => "stamp"
  | strip _ _ => "strip"

def stampOne (attr text : String) (dom : Dom) (id : NodeId) : Dom :=
  dom.set (.node id) attr ((dom.get? (.node id) attr).getD "" ++ text)

def stripOne (attr : String) (dom : Dom) (id : NodeId) : Dom :=
  (dom.remove (.node id) attr).2

def run (p : Pass) (dom : Dom) (root : Handle) : Dom × List Event :=
  match p with
  | form request => Form.sanitize request dom root
  | stamp tag attr text => ((dom.find root tag).foldl (stampOne attr text) dom, [])
  | strip tag attr => ((dom.find root tag).foldl (stripOne attr) dom, [])

/-- Runs the passes in order, each below the same handle, and announces every one. -/
def runAll (dom : Dom) (root : Handle) : List Pass → Dom × List Event
  | [] => (dom, [])
  | p :: ps =>
    let (dom, events) := p.run dom root
    let (dom, rest) := runAll dom root ps
    (dom, .running p.name :: events ++ rest)

end Pass
end SafeForms
