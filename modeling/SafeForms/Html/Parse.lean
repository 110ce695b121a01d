import SafeForms.Html.Lexer
import SafeForms.Html.Rules.Dispatch
import SafeForms.Html.Source

/-!
From characters to trees: tokens are read one step at a time and given to the construction, which in
turn says how the characters that follow are to be read.
-/

namespace SafeForms.Html

def feedAll (b : Builder) (ts : List Token) : Builder := ts.foldl Builder.feed b

def construct (source : Source) (b : Builder) (lexing : Lexing) (cs : List Char) : Builder :=
  match cs with
  | [] => b
  | c :: cs =>
    let step := Lexer.step lexing (b.current.ns ≠ .html) c cs
    let next := feedAll { b with lexing := none } step.tokens
    let rest := if step.endsScript lexing then source.afterScript step.rest else step.rest
    construct source next (next.lexing.getD step.lexing) rest
termination_by cs.length
decreasing_by
  have bound := Lexer.rest_step_le lexing (b.current.ns ≠ .html) c cs
  have script := (source.afterScript_suffix
    (Lexer.step lexing (b.current.ns ≠ .html) c cs).rest).length_le
  simp only [List.length_cons]
  split <;> omega

/-- The trees of a text: those of a whole page, or the root element of a fragment. -/
def parse (settings : Settings) (source : Source) : Markup :=
  let b := construct source (.start settings) .data source.chars
  (b.feed .endOfInput).markup

end SafeForms.Html
