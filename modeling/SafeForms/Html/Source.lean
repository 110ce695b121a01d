/-!
The characters of a text, which comes in pieces. Reading begins anew with every piece, and behind a
script, where it waits for the script to run; wherever it begins anew it may drop one byte order
mark. Lines end in one line feed, however they were written. Main statement: where no byte order mark
is dropped, it does not matter how a text was cut (`flatten_readPieces`).
-/

namespace SafeForms.Html

structure Source where
  chars : List Char
  /-- How many characters remain where a piece begins. -/
  borders : List Nat
  dropsMarks : Bool
  deriving Repr, DecidableEq

namespace Source

def mark : Char := '\ufeff'

def dropMark : List Char → List Char
  | [] => []
  | c :: cs => if c = mark then cs else c :: cs

/-- Writes every end of a line as a line feed. The flag tells whether a carriage return came right
before, so that a line feed belongs to it. -/
def normalizeLines (afterReturn : Bool) : List Char → List Char × Bool
  | [] => ([], afterReturn)
  | c :: cs =>
    if c = '\n' && afterReturn then normalizeLines false cs
    else
      let (rest, atReturn) := normalizeLines (c = '\r') cs
      ((if c = '\r' then '\n' else c) :: rest, atReturn)

def readPieces (dropsMarks afterReturn : Bool) : List (List Char) → List (List Char)
  | [] => []
  | piece :: pieces =>
    let (cs, atReturn) := normalizeLines afterReturn (if dropsMarks then dropMark piece else piece)
    cs :: readPieces dropsMarks atReturn pieces

/-- How many characters there are from every piece on. -/
def remaining : List (List Char) → List Nat
  | [] => []
  | piece :: pieces => (piece.length + (remaining pieces).headD 0) :: remaining pieces

def ofPieces (dropsMarks : Bool) (pieces : List (List Char)) : Source :=
  let pieces := readPieces dropsMarks false pieces
  ⟨pieces.flatten, remaining pieces, dropsMarks⟩

/-- What is left to read behind a script. At the end of a piece there is nothing to begin with, and
the next piece has lost its mark already. -/
def afterScript (s : Source) (rest : List Char) : List Char :=
  if s.dropsMarks && rest.head? = some mark && rest.length ∉ s.borders then rest.tail else rest

theorem normalizeLines_append (afterReturn : Bool) (cs more : List Char) :
    normalizeLines afterReturn (cs ++ more) =
      ((normalizeLines afterReturn cs).1 ++ (normalizeLines (normalizeLines afterReturn cs).2 more).1,
        (normalizeLines (normalizeLines afterReturn cs).2 more).2) := by
  induction cs generalizing afterReturn with
  | nil => rfl
  | cons c cs ih =>
    simp only [List.cons_append, normalizeLines]
    split
    · exact ih false
    · rw [ih]
      rfl

/-- However a text is cut, its lines end the same way. -/
theorem flatten_readPieces (afterReturn : Bool) (pieces : List (List Char)) :
    (readPieces false afterReturn pieces).flatten =
      (normalizeLines afterReturn pieces.flatten).1 := by
  induction pieces generalizing afterReturn with
  | nil => rfl
  | cons piece pieces ih =>
    rw [List.flatten_cons, normalizeLines_append, readPieces]
    exact congrArg _ (ih _)

theorem afterScript_suffix (s : Source) (rest : List Char) : s.afterScript rest <:+ rest := by
  unfold afterScript
  split
  · exact List.tail_suffix rest
  · exact List.suffix_rfl

end Source
end SafeForms.Html
