/-!
The request a page is served for.
-/

namespace SafeForms

structure Request where
  host : String := ""
  uri : String := ""
  deriving Repr, DecidableEq, Inhabited

/-- The address of the page itself, with the scheme left open. -/
def Request.defaultUrl (r : Request) : String := "//" ++ r.host ++ r.uri

end SafeForms
