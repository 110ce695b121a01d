/-!
Where the answer to a form may be shown: in the whole window or in a new one.
-/

namespace SafeForms

inductive Target where
  | top
  | blank
  deriving Repr, DecidableEq

namespace Target

def text : Target → String
  | top => "_top"
  | blank => "_blank"

/-- The names that stay within the window the form stands in. -/
def withinWindow : List String := ["_top", "", "_self", "_parent"]

/-- A missing target stays within the window; every name not listed there opens a new one. -/
def coerce (declared : Option String) : Target :=
  if declared.getD "" ∈ withinWindow then top else blank

end Target
end SafeForms
