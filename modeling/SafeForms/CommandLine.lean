import SafeForms.Page

/-!
The command line: a page on standard input, corrected on standard output. One argument selects
fragment scope wherever it stands; of the others the first two are the host and the address of the
request.
-/

namespace SafeForms.CommandLine

def fragmentFlag : String := "--fragment"

def defaultHost : String := "localhost"

def defaultUri : String := "/"

/-- What the arguments say that were read so far. -/
structure Arguments where
  scope : Scope := .document
  /-- The arguments that are not the flag, in order. -/
  positional : List String := []
  deriving Repr, DecidableEq

def Arguments.read (given : Arguments) (arg : String) : Arguments :=
  if arg = fragmentFlag then { given with scope := .fragment }
  else { given with positional := given.positional ++ [arg] }

theorem Arguments.read_flag (given : Arguments) :
    given.read fragmentFlag = { given with scope := .fragment } :=
  if_pos rfl

theorem Arguments.read_of_ne {arg : String} (other : arg ≠ fragmentFlag) (given : Arguments) :
    given.read arg = { given with positional := given.positional ++ [arg] } :=
  if_neg other

def arguments (args : List String) : Arguments := args.foldl .read {}

def options (args : List String) : Options :=
  let given := arguments args
  { request :=
      { host := given.positional[0]?.getD defaultHost
        uri := given.positional[1]?.getD defaultUri }
    scope := given.scope }

structure Outcome where
  code : Nat
  stdout : String
  stderr : String
  deriving Repr, DecidableEq

def run (args : List String) (answers : List ReadAnswer) : Outcome :=
  match Page.sanitizeInput (options args) answers with
  | .ok sanitized => ⟨0, sanitized.html, ""⟩
  | .error failure => ⟨1, "", "sanitize-forms: " ++ failure.message ++ "\n"⟩

end SafeForms.CommandLine
