import SafeForms.Proofs.ActsByRule
import SafeForms.Proofs.FormOrigin

/-!
The steps in which a text is read, each with the place in the text that it was taken from. The
construction does nothing but take their tokens one after another (`construct_eq`), so every form of
the trees has the attributes of a start tag that was read (`forms_of_readings`), and a start tag is
read at an opening bracket only (`startTag_mem_step`).
-/

namespace SafeForms.Html

/-- A step of reading: what is left of the text before the step, and the tokens it gives. -/
structure Reading where
  place : List Char
  tokens : List Token

/-- The steps in which the characters that are left of a source are read. -/
def readings (source : Source) (b : Builder) (lexing : Lexing) (cs : List Char) : List Reading :=
  match cs with
  | [] => []
  | c :: cs =>
    let step := Lexer.step lexing (b.current.ns ≠ .html) c cs
    let next := feedAll { b with lexing := none } step.tokens
    let rest := if step.endsScript lexing then source.afterScript step.rest else step.rest
    ⟨c :: cs, step.tokens⟩ :: readings source next (next.lexing.getD step.lexing) rest
termination_by cs.length
decreasing_by
  have bound := Lexer.rest_step_le lexing (b.current.ns ≠ .html) c cs
  have script := (source.afterScript_suffix
    (Lexer.step lexing (b.current.ns ≠ .html) c cs).rest).length_le
  simp only [List.length_cons]
  split <;> omega

def Builder.take (b : Builder) (r : Reading) : Builder := feedAll { b with lexing := none } r.tokens

theorem construct_eq (source : Source) (b : Builder) (lexing : Lexing) (cs : List Char) :
    construct source b lexing cs = (readings source b lexing cs).foldl Builder.take b := by
  fun_induction construct source b lexing cs with
  | case1 => rw [readings, List.foldl_nil]
  | case2 b lexing c cs step next rest ih =>
      rw [readings, List.foldl_cons]
      exact ih

theorem Acts.construct {Q : Attributes → Prop} {s b : Builder} (h : Acts Q s b)
    {source : Source} {lexing : Lexing} {cs : List Char}
    (hr : ∀ r ∈ readings source b lexing cs, ∀ t ∈ r.tokens, t.Satisfies Q) :
    Acts Q s (construct source b lexing cs) := by
  rw [construct_eq]
  -- by induction on the steps, which no longer depend on the state they are taken in
  generalize readings source b lexing cs = rs at hr
  induction rs generalizing b with
  | nil => exact h
  | cons r rs ih =>
      rw [List.forall_mem_cons] at hr
      have reset := h.note b.form b.skipsNewline b.lenient none
      exact ih (reset.feedAll hr.1) hr.2

/-- The steps in which a text is read from its beginning. -/
def textReadings (settings : Settings) (source : Source) : List Reading :=
  readings source (.start settings) .data source.chars

/-- Whether a start tag is read at this place of the text. -/
def ReadsTag (settings : Settings) (source : Source) (place : List Char) (tag : Tag) : Prop :=
  ∃ r ∈ textReadings settings source, r.place = place ∧ .startTag tag ∈ r.tokens

theorem place_suffix {source : Source} {b : Builder} {lexing : Lexing} {cs : List Char}
    {r : Reading} (hr : r ∈ readings source b lexing cs) : r.place <:+ cs := by
  fun_induction readings source b lexing cs with
  | case1 => cases hr
  | case2 b lexing c cs step next rest ih =>
      rcases List.mem_cons.mp hr with rfl | hr
      · exact List.suffix_rfl
      · have left : rest <:+ step.rest := by
          unfold rest
          split
          · exact source.afterScript_suffix _
          · exact List.suffix_rfl
        exact (ih hr).trans (left.trans ((Lexer.rest_step_suffix _ _ c cs).trans
          (List.suffix_cons c cs)))

/-- The state of construction at the end of a text. -/
def finished (settings : Settings) (source : Source) : Builder :=
  (construct source (.start settings) .data source.chars).feed .endOfInput

theorem parse_eq (settings : Settings) (source : Source) :
    parse settings source = (finished settings source).markup := rfl

theorem Acts.finished {Q : Attributes → Prop} {settings : Settings} {source : Source}
    (hr : ∀ r ∈ textReadings settings source, ∀ t ∈ r.tokens, t.Satisfies Q) :
    Acts Q (.start settings) (finished settings source) :=
  (Acts.refl.construct hr).feed trivial

theorem Acts.of_text (settings : Settings) (source : Source) :
    Acts (fun _ => True) (.start settings) (Html.finished settings source) := by
  refine .finished fun r hr t ht => ?_
  cases t with
  | startTag tag => exact fun _ => trivial
  | _ => trivial

/-- Every form has the attributes of a start tag that was read. -/
theorem forms_of_readings (settings : Settings) (source : Source) :
    FormsSatisfy (fun attrs => ∃ place tag, ReadsTag settings source place tag ∧
      tag.name = "form" ∧ Builder.attributes tag = attrs) (parse settings source) := by
  refine formsSatisfy_of_each (Builder.Satisfies.markup ?_)
  refine Acts.satisfies (.finished fun r hr t ht => ?_) (.start settings)
  cases t with
  | startTag tag => exact fun form => ⟨r.place, tag, ⟨r, hr, rfl, ht⟩, form, rfl⟩
  | _ => trivial

/-! ### Where start tags are read -/

namespace Lexer

theorem startTag_notMem_stepReference {lexing : Lexing} {cs : List Char} {tag : Tag} :
    .startTag tag ∉ (stepReference lexing cs).tokens := by
  unfold stepReference
  grind

theorem startTag_notMem_getD_stepEndTag {name : String} {cs : List Char} {tag : Tag} {s : Step}
    (h : .startTag tag ∉ s.tokens) : .startTag tag ∉ ((stepEndTag? name cs).getD s).tokens := by
  cases e : stepEndTag? name cs with
  | none => exact h
  | some ended =>
      obtain ⟨after, _, rfl⟩ := Option.map_eq_some_iff.mp e
      simp only [Option.getD_some]
      split <;> simp

theorem startTag_notMem_stepText {name : String} {lexing : Lexing} {c : Char} {cs : List Char}
    {tag : Tag} : .startTag tag ∉ (stepText name lexing c cs).tokens := by
  unfold stepText
  split
  · exact startTag_notMem_getD_stepEndTag (by simp)
  · simp

theorem startTag_notMem_stepScript {part : ScriptPart} {c : Char} {cs : List Char} {tag : Tag} :
    .startTag tag ∉ (stepScript part c cs).tokens := by
  unfold stepScript
  split
  · simp
  · split
    · exact startTag_notMem_getD_stepEndTag (by simp)
    · simp
  · split
    · split
      · simp
      · exact startTag_notMem_getD_stepEndTag (by simp)
    · simp

theorem startTag_notMem_stepComment {cs : List Char} {tag : Tag} :
    .startTag tag ∉ (stepComment cs).tokens := by
  unfold stepComment
  split <;> simp

theorem startTag_notMem_stepDeclaration {foreign : Bool} {cs : List Char} {tag : Tag} :
    .startTag tag ∉ (stepDeclaration foreign cs).tokens := by
  unfold stepDeclaration
  split
  · exact startTag_notMem_stepComment
  · split
    · simp [doctype]
    · split
      · simp
      · simp [bogusComment]

theorem startTag_mem_stepTag {closing : Bool} {cs : List Char} {tag : Tag}
    (h : .startTag tag ∈ (stepTag closing cs).tokens) :
    tag.name = cleanName (cs.takeWhile (!endsTagName ·)) ∧
      ∃ rest, scanAttributes [] (cs.dropWhile (!endsTagName ·)) =
        some (tag.attrs, tag.selfClosing, rest) := by
  unfold stepTag at h
  split at h
  · simp at h
  · next e => grind

theorem startTag_mem_stepMarkup {foreign : Bool} {cs : List Char} {tag : Tag}
    (h : .startTag tag ∈ (stepMarkup foreign cs).tokens) :
    tag.name = cleanName (cs.takeWhile (!endsTagName ·)) ∧
      ∃ rest, scanAttributes [] (cs.dropWhile (!endsTagName ·)) =
        some (tag.attrs, tag.selfClosing, rest) := by
  unfold stepMarkup at h
  split at h
  · exact absurd h startTag_notMem_stepDeclaration
  · grind [bogusComment]
  · split at h
    · grind
    · split at h
      · grind [stepTag]
      · grind [bogusComment]
  · split at h
    · exact startTag_mem_stepTag h
    · simp at h
  · simp at h

/-- A start tag is read behind an opening bracket: the name first, then the attributes. -/
theorem startTag_mem_step {lexing : Lexing} {foreign : Bool} {c : Char} {cs : List Char}
    {tag : Tag} (h : .startTag tag ∈ (step lexing foreign c cs).tokens) :
    c = '<' ∧ tag.name = cleanName (cs.takeWhile (!endsTagName ·)) ∧
      ∃ rest, scanAttributes [] (cs.dropWhile (!endsTagName ·)) =
        some (tag.attrs, tag.selfClosing, rest) := by
  unfold step at h
  split at h
  · split at h
    · next open_ => exact ⟨open_, startTag_mem_stepMarkup h⟩
    · split at h
      · exact absurd h startTag_notMem_stepReference
      · simp at h
  · split at h
    · exact absurd h startTag_notMem_stepReference
    · exact absurd h startTag_notMem_stepText
  · exact absurd h startTag_notMem_stepText
  · exact absurd h startTag_notMem_stepScript
  · simp at h

end Lexer

theorem place_of_mem_readings {source : Source} {b : Builder} {lexing : Lexing} {cs : List Char}
    {r : Reading} (hr : r ∈ readings source b lexing cs) {tag : Tag}
    (ht : .startTag tag ∈ r.tokens) :
    ∃ cs rest, r.place = '<' :: cs ∧
      tag.name = Lexer.cleanName (cs.takeWhile (!Lexer.endsTagName ·)) ∧
      Lexer.scanAttributes [] (cs.dropWhile (!Lexer.endsTagName ·)) =
        some (tag.attrs, tag.selfClosing, rest) := by
  fun_induction readings source b lexing cs with
  | case1 => cases hr
  | case2 b lexing c cs step next rest ih =>
      rcases List.mem_cons.mp hr with rfl | hr
      · obtain ⟨rfl, name, rest, attrs⟩ := Lexer.startTag_mem_step ht
        exact ⟨cs, rest, rfl, name, attrs⟩
      · exact ih hr

/-- A start tag stands in the text where it is read. -/
theorem ReadsTag.scans {settings : Settings} {source : Source} {place : List Char} {tag : Tag}
    (h : ReadsTag settings source place tag) :
    place <:+ source.chars ∧ ∃ cs rest, place = '<' :: cs ∧
      tag.name = Lexer.cleanName (cs.takeWhile (!Lexer.endsTagName ·)) ∧
      Lexer.scanAttributes [] (cs.dropWhile (!Lexer.endsTagName ·)) =
        some (tag.attrs, tag.selfClosing, rest) := by
  obtain ⟨r, hr, rfl, ht⟩ := h
  exact ⟨place_suffix hr, place_of_mem_readings hr ht⟩

end SafeForms.Html
