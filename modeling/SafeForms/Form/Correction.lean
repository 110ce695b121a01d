import SafeForms.Attribute
import SafeForms.Form.Endpoint
import SafeForms.Form.Event
import SafeForms.Form.Method
import SafeForms.Form.Target

/-!
The correction of one form, as a rule on its attribute list. Its method comes first, then its
endpoints, which depend on the method, then its target. Each step writes only what differs from
what was declared and reports what it writes.
-/

namespace SafeForms.Form

/-- An attribute list after a step, with the events of the step. -/
abbrev Revision := Attributes × List Event

/-- Writes the attribute and reports it, unless it has the value already. -/
def declare (name value : String) (report : Option String → String → Event)
    (attrs : Attributes) : Revision :=
  let declared := attrs.get? name
  if declared = some value then (attrs, [])
  else (attrs.set name value, [report declared value])

def methodOf (attrs : Attributes) : Method := Method.resolve (attrs.get? "method")

/-- Where the form is sent when it is served for this request. -/
def endpointOf (r : Request) (attrs : Attributes) : String :=
  Endpoint.resolve r (attrs.get? "action")

def reviseMethod (attrs : Attributes) : Revision :=
  declare "method" (methodOf attrs).text .method attrs

/-- The endpoint of a posted form: the given one if none is declared, or else the declared one
without the plaintext scheme in lower case. -/
def reviseXhr (endpoint : String) (attrs : Attributes) : Revision :=
  match Endpoint.declared? (attrs.get? "action-xhr") with
  | none => (attrs.set "action-xhr" endpoint, [.xhrSet endpoint])
  | some declared =>
    let secure := Endpoint.downgrade false declared
    if secure.length = declared.length then (attrs, [])
    else (attrs.set "action-xhr" secure, [.xhrDowngraded declared secure])

def reviseEndpoints (r : Request) (m : Method) (attrs : Attributes) : Revision :=
  match m with
  | .get => declare "action" (endpointOf r attrs) .action attrs
  | .post => reviseXhr (endpointOf r attrs) (attrs.erase "action")
  | .other name => (attrs, [.endpointsKept name])

def reviseTarget (attrs : Attributes) : Revision :=
  declare "target" (Target.coerce (attrs.get? "target")).text .target attrs

def revise (r : Request) (attrs : Attributes) : Revision :=
  let (named, first) := reviseMethod attrs
  let (placed, second) := reviseEndpoints r (methodOf attrs) named
  let (aimed, third) := reviseTarget placed
  (aimed, first ++ second ++ third)

def correct (r : Request) (attrs : Attributes) : Attributes := (revise r attrs).1

end SafeForms.Form
