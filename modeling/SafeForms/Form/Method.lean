import SafeForms.Text.Ascii

/-!
How a form is submitted, as its method attribute says.
-/

namespace SafeForms

inductive Method where
  | get
  | post
  /-- Any other declared method, in lower case. -/
  | other (name : String)
  deriving Repr, DecidableEq

namespace Method

def text : Method → String
  | get => "get"
  | post => "post"
  | other name => name

/-- A method that is missing or empty is `get`; case does not count. -/
def resolve (declared : Option String) : Method :=
  match declared with
  | none => get
  | some value =>
    if value = "" then get
    else
      let name := Text.lower value
      if name = "get" then get else if name = "post" then post else other name

end Method
end SafeForms
