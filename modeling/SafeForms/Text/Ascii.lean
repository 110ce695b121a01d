/-!
The part of text handling that knows ASCII only: markup names and keywords are compared and folded
in these classes, and every other character stands for itself.
-/

namespace SafeForms.Text

def isBlank (c : Char) : Bool :=
  c = ' ' || c = '\n' || c = '\t' || c = '\x0c' || c = '\r'

/-- Folds the ASCII capitals; core's `Char.toLower` leaves every other character alone. -/
def lowerChars (cs : List Char) : List Char := cs.map Char.toLower

def lower (s : String) : String := String.ofList (lowerChars s.toList)

@[simp] theorem toList_lower (s : String) : (lower s).toList = lowerChars s.toList := by
  simp [lower]

/-- Whether the characters begin with a keyword, written in lower case, up to ASCII case. -/
def startsWithFolded (keyword : List Char) (cs : List Char) : Bool :=
  lowerChars (cs.take keyword.length) = keyword

end SafeForms.Text
