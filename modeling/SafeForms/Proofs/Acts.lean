import SafeForms.Html.Parse

/-!
What the construction of a tree may do at all, whatever rule it follows: a list of acts on the tree
and on the rest of the state, of which every rule makes some, one after the other. What each of
these acts keeps, every run of the construction keeps. An element that is entered or added is a form
only for a start tag, whose attributes it has.
-/

namespace SafeForms

/-- The property holds of the attributes if this is a form. -/
def Node.IfForm (Q : Attributes → Prop) : Node → Prop
  | .element e => e.isHtml "form" = true → Q e.attrs
  | _ => True

theorem Node.ifForm_of_attrs? {Q : Attributes → Prop} {n : Node} (h : n.attrs? = none) :
    n.IfForm Q := by
  cases n with
  | element e => cases h
  | _ => trivial

namespace Html

variable {Q : Attributes → Prop}

/-- The property holds of the attributes of the tag if it opens a form. -/
def Tag.Satisfies (Q : Attributes → Prop) (tag : Tag) : Prop :=
  tag.name = "form" → Q (Builder.attributes tag)

theorem Tag.satisfies_of_ne {tag : Tag} (h : tag.name ≠ "form") : tag.Satisfies Q :=
  fun form => absurd form h

theorem ifForm_element {tag : Tag} (h : tag.Satisfies Q) :
    (Node.element (Builder.element tag)).IfForm Q := by
  intro form
  exact h (Element.isHtml_iff.mp form).2

theorem ifForm_foreign {ns : Namespace} (h : ns ≠ .html) (tag : Tag) :
    (Node.element (Foreign.element ns tag)).IfForm Q := by
  intro form
  simp [Element.isHtml, Foreign.element, h] at form

/-- One change to the tree. -/
inductive CursorAct (Q : Attributes → Prop) (c : Cursor) : Cursor → Prop
  | add {n : Node} : n.IfForm Q → CursorAct Q c (c.add n)
  | addCharacter (d : Char) : CursorAct Q c (c.addCharacter d)
  | enter {e : Element} : (Node.element e).IfForm Q → CursorAct Q c (c.enter e)
  | pop : CursorAct Q c c.pop
  | popWhile (test : Element → Bool) : CursorAct Q c (c.popWhile test)
  | closeFrame (serial : Nat) : CursorAct Q c (c.closeFrame serial)
  | reenterHead : CursorAct Q c c.reenterHead
  | addToRoot (content : String) : CursorAct Q c (c.addToRoot (.comment content))
  | extendRoot (attrs : Attributes) : CursorAct Q c (c.extendRoot attrs)
  | extendBody (attrs : Attributes) : c.outermost?.any (isOneOf ["body"]) = true →
      CursorAct Q c (c.extendOutermost attrs)

/-- The mode is one inside of the root element. -/
def Mode.Inner (mode : Mode) : Prop :=
  mode ≠ .initial ∧ mode ≠ .beforeHtml ∧ mode ≠ .afterAfterBody

instance (mode : Mode) : Decidable mode.Inner := inferInstanceAs (Decidable (_ ∧ _ ∧ _))

/-- What may come of a state of construction. -/
inductive Acts (Q : Attributes → Prop) (s : Builder) : Builder → Prop
  | refl : Acts Q s s
  | change {b : Builder} {c : Cursor} : Acts Q s b → CursorAct Q b.cursor c →
      Acts Q s { b with cursor := c }
  | switch {b : Builder} {mode : Mode} : Acts Q s b → mode.Inner → Acts Q s (b.switch mode)
  | reset {b : Builder} : Acts Q s b → Acts Q s b.reset
  | beginText {b : Builder} (lexing : Lexing) : Acts Q s b →
      Acts Q s { b with mode := .inText, resume := b.mode, lexing := some lexing }
  | endText {b : Builder} : Acts Q s b → Acts Q s (b.switch b.resume)
  | openTemplate {b : Builder} : Acts Q s b →
      Acts Q s { b with mode := .inTemplate, templates := .inTemplate :: b.templates }
  | switchTemplate {b : Builder} {mode : Mode} : Acts Q s b → mode.Inner →
      Acts Q s (b.switchTemplate mode)
  | closeTemplate {b : Builder} : Acts Q s b → Acts Q s { b with templates := b.templates.tail }
  /-- The parts of the state that say nothing of the tree or of the mode. -/
  | note {b : Builder} (form : Option Nat) (skipsNewline lenient : Bool)
      (lexing : Option Lexing) : Acts Q s b →
      Acts Q s { b with form, skipsNewline, lenient, lexing }
  | addBefore {b : Builder} {n : Node} : Acts Q s b → b.mode = .initial ∨ b.mode = .beforeHtml →
      n.attrs? = none → Acts Q s { b with prolog := b.prolog ++ .leaf n }
  | beginRoot {b : Builder} : Acts Q s b → b.mode = .initial → Acts Q s (b.switch .beforeHtml)
  | addBehind {b : Builder} (content : String) : Acts Q s b → b.mode = .afterAfterBody →
      Acts Q s (b.commentBehind content)
  | endRoot {b : Builder} : Acts Q s b → b.settings.fragment = false →
      Acts Q s (b.switch .afterAfterBody)

/-- The property holds of the attributes that come with the token if it opens a form. -/
def Token.Satisfies (Q : Attributes → Prop) : Token → Prop
  | .startTag tag => tag.Satisfies Q
  | _ => True

def Reply.Acts (Q : Attributes → Prop) (s : Builder) : Reply → Prop
  | .done b | .again b => Html.Acts Q s b

namespace Acts

variable {s b : Builder}

theorem commentBefore (h : Acts Q s b) (outer : b.mode = .initial ∨ b.mode = .beforeHtml)
    (content : String) : Acts Q s (b.commentBefore content) :=
  h.addBefore outer rfl

theorem character (h : Acts Q s b) (c : Char) : Acts Q s (b.character c) :=
  h.change (.addCharacter c)

theorem comment (h : Acts Q s b) (content : String) : Acts Q s (b.comment content) :=
  h.change (.add trivial)

theorem insert (h : Acts Q s b) {tag : Tag} (ht : tag.Satisfies Q) : Acts Q s (b.insert tag) :=
  h.change (.enter (ifForm_element ht))

theorem insertNamed (h : Acts Q s b) {name : String} (hn : name ≠ "form") :
    Acts Q s (b.insertNamed name) :=
  h.insert (Tag.satisfies_of_ne hn)

theorem insertVoid (h : Acts Q s b) {tag : Tag} (ht : tag.Satisfies Q) :
    Acts Q s (b.insertVoid tag) :=
  h.change (.add (ifForm_element ht))

theorem insertText (h : Acts Q s b) {tag : Tag} (ht : tag.Satisfies Q) (lexing : Lexing) :
    Acts Q s (b.insertText tag lexing) :=
  (h.insert ht).beginText lexing

theorem insertForeign (h : Acts Q s b) {ns : Namespace} (hns : ns ≠ .html) (tag : Tag) :
    Acts Q s (b.insertForeign ns tag) := by
  rw [Builder.insertForeign]
  split
  · exact h.change (.add (ifForm_foreign hns tag))
  · exact h.change (.enter (ifForm_foreign hns tag))

theorem pop (h : Acts Q s b) : Acts Q s b.pop := h.change .pop

theorem popWhile (h : Acts Q s b) (test : Element → Bool) : Acts Q s (b.popWhile test) :=
  h.change (.popWhile test)

theorem popThrough (h : Acts Q s b) (names : List String) : Acts Q s (b.popThrough names) :=
  (h.popWhile fun e => !isOneOf names e).pop

theorem popDownTo (h : Acts Q s b) (names : List String) : Acts Q s (b.popDownTo names) :=
  h.popWhile _

theorem endImplied (h : Acts Q s b) (kept : List String) : Acts Q s (b.endImplied kept) :=
  h.popWhile _

theorem endElement (h : Acts Q s b) (names : List String) : Acts Q s (b.endElement names) :=
  (h.endImplied []).popThrough names

theorem endOptional (h : Acts Q s b) (name : String) : Acts Q s (b.endOptional name) :=
  (h.endImplied [name]).popThrough [name]

theorem endParagraph (h : Acts Q s b) : Acts Q s b.endParagraph := by
  rw [Builder.endParagraph]
  split
  · exact h.endOptional "p"
  · exact h

theorem endTemplate (h : Acts Q s b) : Acts Q s b.endTemplate := by
  rw [Builder.endTemplate]
  split
  · exact ((h.popWhile (isOneOf templateEndNames)).popThrough ["template"]).closeTemplate.reset
  · exact h

theorem beginTemplate (h : Acts Q s b) {tag : Tag} (ht : tag.Satisfies Q) :
    Acts Q s (b.beginTemplate tag) :=
  (h.insert ht).openTemplate

theorem extendRoot (h : Acts Q s b) (tag : Tag) : Acts Q s (b.extendRoot tag) := by
  rw [Builder.extendRoot]
  split
  · exact h
  · exact h.change (.extendRoot _)

theorem extendBody (h : Acts Q s b) (tag : Tag) : Acts Q s (b.extendBody tag) := by
  rw [Builder.extendBody]
  split
  · next body => exact h.change (.extendBody _ (Bool.and_eq_true_iff.mp body).1)
  · exact h

theorem setForm (h : Acts Q s b) (form : Option Nat) : Acts Q s { b with form } :=
  h.note form b.skipsNewline b.lenient b.lexing

theorem beginForm (h : Acts Q s b) {tag : Tag} (ht : tag.Satisfies Q) :
    Acts Q s (b.beginForm tag) := by
  have inside := h.endParagraph.insert ht
  rw [Builder.beginForm]
  split
  · exact h
  · simp only
    split
    · exact inside
    · exact inside.setForm _

theorem endForm (h : Acts Q s b) : Acts Q s b.endForm := by
  rw [Builder.endForm]
  split
  · split
    · exact h.endElement ["form"]
    · exact h
  · split
    · exact h
    · simp only
      split
      · exact ((h.setForm none).endImplied []).change (.closeFrame _)
      · exact h.setForm none

theorem placeForm (h : Acts Q s b) {tag : Tag} (ht : tag.Satisfies Q) :
    Acts Q s (b.placeForm tag) := by
  rw [Builder.placeForm]
  split
  · exact h
  · exact ((h.insert ht).setForm _).pop

end Acts
end Html
end SafeForms
