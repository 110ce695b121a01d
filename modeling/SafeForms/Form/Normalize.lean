import SafeForms.Dom.Search
import SafeForms.Form.Correction

/-!
Correcting forms in a document: the ones that are handed over, or all that are found below a handle.
The candidates are taken last to first, and what is no HTML form is skipped.
-/

namespace SafeForms

namespace Form

def normalizeOne (r : Request) (dom : Dom) (h : Handle) : Dom × List Event :=
  if dom.isHtml "form" h then
    (dom.mapAttrs h (correct r), (revise r ((dom.attrs? h).getD [])).2)
  else (dom, [.skipped])

def normalizeEach (r : Request) (dom : Dom) : List Handle → Dom × List Event
  | [] => (dom, [])
  | h :: hs =>
    let (dom, first) := normalizeOne r dom h
    let (dom, rest) := normalizeEach r dom hs
    (dom, first ++ rest)

def countForms (dom : Dom) (candidates : List Handle) : Nat :=
  candidates.countP (dom.isHtml "form")

/-- Corrects the candidates, last to first, and reports their number. -/
def normalize (r : Request) (dom : Dom) (candidates : List Handle) : Dom × List Event :=
  let (corrected, events) := normalizeEach r dom candidates.reverse
  (corrected, events ++ [.normalized (countForms dom candidates) candidates.length])

/-- Corrects every form below a handle; where there is none, nothing is reported. -/
def sanitize (r : Request) (dom : Dom) (root : Handle) : Dom × List Event :=
  match dom.find root "form" with
  | [] => (dom, [])
  | forms => normalize r dom (forms.map .node)

end Form
end SafeForms
