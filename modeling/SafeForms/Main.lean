import SafeForms.CommandLine

/-!
The program: reads standard input and runs the command line on it.
-/

namespace SafeForms

/-- What a failed read of the system is to the library. -/
def failureOf (e : IO.Error) : Failure :=
  match e with
  | .inappropriateType .. => { kind := .isDirectory }
  | .permissionDenied .. => { kind := .permissionDenied, message := toString e }
  | .timeExpired .. => { kind := .timedOut, message := toString e }
  | _ => { kind := .other, message := toString e }

partial def readAnswers (input : IO.FS.Stream) (read : Array ReadAnswer) :
    IO (List ReadAnswer) := do
  match ← (input.read Input.portionSize.toUSize).toBaseIO with
  | .ok bytes =>
    if bytes.isEmpty then return read.toList
    readAnswers input (read.push (.bytes bytes.toList))
  | .error e => return (read.push (.failure (failureOf e))).toList

end SafeForms

open SafeForms in
def main (args : List String) : IO UInt32 := do
  let answers ← readAnswers (← IO.getStdin) #[]
  let outcome := CommandLine.run args answers
  (← IO.getStdout).putStr outcome.stdout
  (← IO.getStderr).putStr outcome.stderr
  return outcome.code.toUInt32
