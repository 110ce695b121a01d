import SafeForms.Text.Quoted

/-!
What the correction of forms reports, one event for each thing it does. Values are kept as they
were and as they became, so that a list of events can be replayed; only `Event.line` gives them
their wording.
-/

namespace SafeForms

inductive Event where
  | running (pass : String)
  | skipped
  | method (declared : Option String) (resolved : String)
  | action (declared : Option String) (endpoint : String)
  /-- The endpoint of a posted form took the place of one that was missing or empty. -/
  | xhrSet (endpoint : String)
  | xhrDowngraded (declared endpoint : String)
  /-- The form has another method, so its endpoints stay. -/
  | endpointsKept (name : String)
  | target (declared : Option String) (coerced : String)
  | normalized (forms candidates : Nat)
  deriving Repr, DecidableEq

namespace Event

open Text.Quoted

inductive Level where
  | trace
  | debug
  deriving Repr, DecidableEq

def Level.name : Level → String
  | trace => "TRACE"
  | debug => "DEBUG"

def level : Event → Level
  | running _ | normalized _ _ => .debug
  | _ => .trace

def change (attr before after : String) : String :=
  attr ++ " " ++ before ++ " -> " ++ after

def message : Event → String
  | running pass => "running " ++ pass ++ " sanitizer"
  | skipped => "skipping non-form node"
  | method declared resolved => change "method" (quoteOption declared) (quote resolved)
  | action declared endpoint => change "action" (quoteOption declared) (quote endpoint)
  | xhrSet endpoint => "action-xhr set to " ++ quote endpoint
  | xhrDowngraded declared endpoint => change "action-xhr" (quote declared) (quote endpoint)
  | endpointsKept name => "leaving endpoints of method " ++ quote name ++ " form alone"
  | target declared coerced => change "target" (quoteOption declared) (quote coerced)
  | normalized forms candidates =>
    "normalized " ++ toString forms ++ " of " ++ toString candidates ++ " form candidates"

def line (e : Event) : String := e.level.name ++ " " ++ e.message

end Event
end SafeForms
