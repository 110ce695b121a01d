import SafeForms.Form.Request

/-!
Submission endpoints. An address that begins with the plaintext scheme loses its scheme, so that it
is reached the way the page was. The scheme is looked for in the bytes of the address, where a
character must not be cut in two.
-/

namespace SafeForms.Endpoint

def bytes (s : String) : List UInt8 := s.toList.flatMap String.utf8EncodeChar

/-- The plaintext scheme with the slashes that follow it. -/
def plainScheme : String := "http://"

def dropped : String := "http:"

def foldByte (b : UInt8) : UInt8 := if 0x41 ≤ b ∧ b ≤ 0x5a then b + 0x20 else b

def isContinuation (b : UInt8) : Bool := b &&& 0xc0 = 0x80

/-- Whether the bytes can be cut after the first `n` without cutting a character. -/
def isBoundary (n : Nat) (bs : List UInt8) : Bool :=
  match bs.drop n with
  | [] => true
  | b :: _ => !isContinuation b

def isPlain (ignoreCase : Bool) (url : String) : Bool :=
  let scheme := bytes plainScheme
  let head := (bytes url).take scheme.length
  isBoundary scheme.length (bytes url) &&
    (if ignoreCase then head.map foldByte else head) = scheme

/-- The address without its scheme if that is the plaintext one. -/
def downgrade (ignoreCase : Bool) (url : String) : String :=
  if isPlain ignoreCase url then String.ofList (url.toList.drop dropped.length) else url

def declared? (value : Option String) : Option String := value.filter (· ≠ "")

/-- Where a form is sent that declares this action in a page served for this request. -/
def resolve (r : Request) (action : Option String) : String :=
  downgrade true ((declared? action).getD r.defaultUrl)

end SafeForms.Endpoint
