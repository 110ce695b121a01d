import SafeForms.Text.Utf8

/-!
Input that comes read by read. Every read answers with bytes or with a failure; an interrupted read
is tried again, any other failure ends the input with an error, and a read without bytes is its
regular end. A longer answer is handed out in portions, which lose nothing (`flatten_portions`).
-/

namespace SafeForms

inductive FailureKind where
  | interrupted
  | unexpectedEof
  | invalidData
  | brokenPipe
  | timedOut
  | permissionDenied
  | isDirectory
  | other
  deriving Repr, DecidableEq

/-- The text of a failure that has no text of its own. -/
def FailureKind.text : FailureKind → String
  | interrupted => "operation interrupted"
  | unexpectedEof => "unexpected end of file"
  | invalidData => "invalid data"
  | brokenPipe => "broken pipe"
  | timedOut => "timed out"
  | permissionDenied => "permission denied"
  | isDirectory => "Is a directory (os error 21)"
  | other => "other error"

structure Failure where
  kind : FailureKind
  message : String := kind.text
  deriving Repr, DecidableEq

inductive ReadAnswer where
  | bytes (bs : List UInt8)
  | failure (f : Failure)
  deriving Repr, DecidableEq

namespace Input

/-- How many bytes one read asks for. -/
def portionSize : Nat := 4096

def portions (bs : List UInt8) : List (List UInt8) :=
  if bs.length ≤ portionSize then [bs]
  else bs.take portionSize :: portions (bs.drop portionSize)
termination_by bs.length
decreasing_by
  rw [List.length_drop]
  simp only [portionSize] at *
  omega

/-- The chunks that are read, or the failure that ends the reading. -/
def collect : List ReadAnswer → Except Failure (List (List UInt8))
  | [] | .bytes [] :: _ => .ok []
  | .bytes bs :: answers => (collect answers).map (portions bs ++ ·)
  | .failure f :: answers => if f.kind = .interrupted then collect answers else .error f

/-- The text that is read, in the pieces in which it is handed over. -/
def text (answers : List ReadAnswer) : Except Failure (List (List Char)) :=
  (collect answers).map (Text.Utf8.decodePieces [])

theorem flatten_portions (bs : List UInt8) : (portions bs).flatten = bs := by
  fun_induction portions bs with
  | case1 => simp
  | case2 bs _ ih => rw [List.flatten_cons, ih, List.take_append_drop]

end Input
end SafeForms
