import SafeForms.Proofs.Acts

/-!
Every rule of the construction makes acts only, for whatever token: rule by rule, then for one
token, then for a list of them.
-/

namespace SafeForms.Html.Acts

variable {Q : Attributes → Prop} {s b : Builder} {t : Token} {tag : Tag}

attribute [local grind =] Reply.Acts Token.Satisfies Mode.Inner
attribute [local grind ←] switch reset endText switchTemplate note addBefore beginRoot addBehind
  endRoot character comment insert insertNamed insertVoid insertText insertForeign pop popWhile
  popThrough popDownTo endImplied endElement endOptional endParagraph endTemplate beginTemplate
  extendRoot extendBody beginForm endForm placeForm

/-! ### Before the body -/

theorem initial (h : Acts Q s b) (mode : b.mode = .initial) : (b.initial t).Acts Q s := by
  have next : ∀ lenient, Acts Q s { b with lenient, mode := .beforeHtml } := fun lenient =>
    (h.note b.form b.skipsNewline lenient b.lexing).beginRoot mode
  unfold Builder.initial
  split
  · split
    · exact h
    · exact next true
  · exact h.addBefore (.inl mode) rfl
  · simp only
    split
    · exact next _
    · exact ((h.addBefore (.inl mode) rfl).note b.form b.skipsNewline _ b.lexing).beginRoot mode
  · exact h
  all_goals exact next true

theorem beforeHtml (h : Acts Q s b) (mode : b.mode = .beforeHtml) :
    (b.beforeHtml t).Acts Q s := by
  have comment := h.commentBefore (.inr mode)
  unfold Builder.beforeHtml
  grind

theorem beforeHead (h : Acts Q s b) (ht : t.Satisfies Q) : (b.beforeHead t).Acts Q s := by
  unfold Builder.beforeHead
  grind

theorem startInHead {b' : Builder} (h : Acts Q s b) (ht : tag.Satisfies Q)
    (started : b.startInHead tag = some b') : Acts Q s b' := by
  unfold Builder.startInHead at started
  grind

theorem inHead (h : Acts Q s b) (ht : t.Satisfies Q) : (b.inHead t).Acts Q s := by
  have started : ∀ tag b', tag.Satisfies Q → b.startInHead tag = some b' → Acts Q s b' :=
    fun _ _ => h.startInHead
  unfold Builder.inHead
  grind

theorem inHeadNoscript (h : Acts Q s b) (ht : t.Satisfies Q) :
    (b.inHeadNoscript t).Acts Q s := by
  have head := h.inHead ht
  unfold Builder.inHeadNoscript
  grind

theorem lateInHead (h : Acts Q s b) (ht : t.Satisfies Q) : (b.lateInHead t).Acts Q s := by
  have inside : ((b.move (·.reenterHead)).inHead t).Acts Q s := (h.change .reenterHead).inHead ht
  unfold Builder.lateInHead
  split
  · next e =>
    rw [e] at inside
    exact change inside (.closeFrame _)
  · next e =>
    rw [e] at inside
    exact change inside (.closeFrame _)

theorem afterHead (h : Acts Q s b) (ht : t.Satisfies Q) : (b.afterHead t).Acts Q s := by
  have late := h.lateInHead ht
  unfold Builder.afterHead
  grind

/-! ### In the body -/

theorem beginItem (h : Acts Q s b) (ht : tag.Satisfies Q) (names : List String) :
    Acts Q s (b.beginItem names tag) := by
  unfold Builder.beginItem
  grind

theorem beginHeading (h : Acts Q s b) (ht : tag.Satisfies Q) :
    Acts Q s (b.beginHeading tag) := by
  unfold Builder.beginHeading
  grind

theorem beginButton (h : Acts Q s b) (ht : tag.Satisfies Q) :
    Acts Q s (b.beginButton tag) := by
  unfold Builder.beginButton
  grind

theorem beginTable (h : Acts Q s b) (ht : tag.Satisfies Q) :
    Acts Q s (b.beginTable tag) := by
  unfold Builder.beginTable
  grind

theorem beginSelect (h : Acts Q s b) (ht : tag.Satisfies Q) :
    Acts Q s (b.beginSelect tag) := by
  unfold Builder.beginSelect
  grind

theorem beginOption (h : Acts Q s b) (ht : tag.Satisfies Q) :
    Acts Q s (b.beginOption tag) := by
  unfold Builder.beginOption
  grind

theorem beginAnnotation (h : Acts Q s b) (ht : tag.Satisfies Q) (kept : List String) :
    Acts Q s (b.beginAnnotation kept tag) := by
  unfold Builder.beginAnnotation
  grind

theorem startInBody (h : Acts Q s b) (ht : tag.Satisfies Q) :
    (b.startInBody tag).Acts Q s := by
  have image : ∀ t : Tag, t.name = "img" → t.Satisfies Q := fun t named =>
    Tag.satisfies_of_ne (by rw [named]; decide)
  have head := h.inHead (t := .startTag tag) ht
  have item := h.beginItem ht
  have heading := h.beginHeading ht
  have button := h.beginButton ht
  have table := h.beginTable ht
  have select := h.beginSelect ht
  have choice := h.beginOption ht
  have annotation := h.beginAnnotation ht
  fun_cases Builder.startInBody b tag <;> grind

theorem endOrMakeParagraph (h : Acts Q s b) : Acts Q s b.endOrMakeParagraph := by
  unfold Builder.endOrMakeParagraph
  grind

theorem endInBody (h : Acts Q s b) (name : String) : (b.endInBody name).Acts Q s := by
  have lineBreak : Tag.Satisfies Q { name := "br" } := Tag.satisfies_of_ne (by decide)
  have head := h.inHead (t := .endTag name) trivial
  have paragraph := h.endOrMakeParagraph
  fun_cases Builder.endInBody b name <;> grind

theorem inBody (h : Acts Q s b) (ht : t.Satisfies Q) : (b.inBody t).Acts Q s := by
  have start := fun tag (ht : Tag.Satisfies Q tag) => h.startInBody ht
  have ended := h.endInBody
  unfold Builder.inBody
  grind

theorem inText (h : Acts Q s b) : (b.inText t).Acts Q s := by
  have ended : Acts Q s (b.pop.switch b.resume) := h.pop.endText
  unfold Builder.inText
  grind

/-! ### In a table -/

theorem beginPart (h : Acts Q s b) (ht : tag.Satisfies Q) (holders : List String)
    {mode : Mode} (inner : mode.Inner) : Acts Q s (b.beginPart holders tag mode) :=
  ((h.popDownTo holders).insert ht).switch inner

theorem againInPart (h : Acts Q s b) {name : String} (hn : name ≠ "form")
    (holders : List String) {mode : Mode} (inner : mode.Inner) :
    (b.againInPart holders name mode).Acts Q s :=
  h.beginPart (Tag.satisfies_of_ne hn) holders inner

theorem inTable (h : Acts Q s b) (ht : t.Satisfies Q) : (b.inTable t).Acts Q s := by
  have head := h.inHead ht
  have body := h.inBody ht
  have part := fun tag (ht : Tag.Satisfies Q tag) => h.beginPart ht
  have again := fun name (hn : name ≠ "form") => h.againInPart hn
  unfold Builder.inTable
  grind

theorem inCaption (h : Acts Q s b) (ht : t.Satisfies Q) : (b.inCaption t).Acts Q s := by
  have body := h.inBody ht
  unfold Builder.inCaption
  grind

theorem inColumnGroup (h : Acts Q s b) (ht : t.Satisfies Q) :
    (b.inColumnGroup t).Acts Q s := by
  have head := h.inHead ht
  have body := h.inBody ht
  unfold Builder.inColumnGroup
  grind

theorem inTableBody (h : Acts Q s b) (ht : t.Satisfies Q) : (b.inTableBody t).Acts Q s := by
  have table := h.inTable ht
  have part := fun tag (ht : Tag.Satisfies Q tag) => h.beginPart ht
  have again := fun name (hn : name ≠ "form") => h.againInPart hn
  unfold Builder.inTableBody
  grind

theorem inRow (h : Acts Q s b) (ht : t.Satisfies Q) : (b.inRow t).Acts Q s := by
  have table := h.inTable ht
  have part := fun tag (ht : Tag.Satisfies Q tag) => h.beginPart ht
  have again := fun name (hn : name ≠ "form") => h.againInPart hn
  unfold Builder.inRow
  grind

theorem inCell (h : Acts Q s b) (ht : t.Satisfies Q) : (b.inCell t).Acts Q s := by
  have body := h.inBody ht
  unfold Builder.inCell
  grind

/-! ### In a select element, in a template, behind the body -/

theorem popOption (h : Acts Q s b) : Acts Q s b.popOption := by
  unfold Builder.popOption
  grind

theorem popGroup (h : Acts Q s b) : Acts Q s b.popGroup := by
  unfold Builder.popGroup
  grind

theorem endGroup (h : Acts Q s b) : Acts Q s b.endGroup := by
  have group := h.popGroup
  have last := h.pop.popGroup
  unfold Builder.endGroup
  grind

theorem inSelect (h : Acts Q s b) (ht : t.Satisfies Q) : (b.inSelect t).Acts Q s := by
  have choice := h.popOption
  have group := h.popOption.popGroup
  have ended := h.endGroup
  have head := h.inHead ht
  have body := h.inBody ht
  unfold Builder.inSelect
  grind

theorem inSelectInTable (h : Acts Q s b) (ht : t.Satisfies Q) :
    (b.inSelectInTable t).Acts Q s := by
  have select := h.inSelect ht
  unfold Builder.inSelectInTable
  grind

theorem inTemplateContents (h : Acts Q s b) (ht : t.Satisfies Q) :
    (b.inTemplateContents t).Acts Q s := by
  have head := h.inHead ht
  have body := h.inBody ht
  unfold Builder.inTemplateContents
  grind

theorem afterBody (h : Acts Q s b) (ht : t.Satisfies Q) : (b.afterBody t).Acts Q s := by
  have body := h.inBody ht
  unfold Builder.afterBody
  split
  · grind
  · exact h.change (.addToRoot _)
  all_goals grind

theorem afterAfterBody (h : Acts Q s b) (ht : t.Satisfies Q) (mode : b.mode = .afterAfterBody) :
    (b.afterAfterBody t).Acts Q s := by
  have comment := fun content => h.addBehind content mode
  have body := h.inBody ht
  unfold Builder.afterAfterBody
  grind

/-! ### One token -/

theorem byMode (h : Acts Q s b) (ht : t.Satisfies Q) : (b.byMode t).Acts Q s := by
  unfold Builder.byMode
  split
  · next mode => exact h.initial mode
  · next mode => exact h.beforeHtml mode
  · exact h.beforeHead ht
  · exact h.inHead ht
  · exact h.inHeadNoscript ht
  · exact h.afterHead ht
  · exact h.inBody ht
  · exact h.inText
  · exact h.inTable ht
  · exact h.inCaption ht
  · exact h.inColumnGroup ht
  · exact h.inTableBody ht
  · exact h.inRow ht
  · exact h.inCell ht
  · exact h.inSelect ht
  · exact h.inSelectInTable ht
  · exact h.inTemplateContents ht
  · exact h.afterBody ht
  · next mode => exact h.afterAfterBody ht mode

theorem breakOut (h : Acts Q s b) (ht : t.Satisfies Q) : (b.breakOut t).Acts Q s :=
  (h.popWhile _).byMode ht

theorem foreignEnd (h : Acts Q s b) (name : String) : (b.foreignEnd name).Acts Q s := by
  unfold Builder.foreignEnd
  split
  · exact (h.change (.popWhile _)).change .pop
  · exact h.byMode trivial
  · exact h

/-- The rules of foreign elements make elements of the namespace they stand in. -/
theorem inForeign (h : Acts Q s b) (ht : t.Satisfies Q) (foreign : b.current.ns ≠ .html) :
    (b.inForeign t).Acts Q s := by
  have out := h.breakOut ht
  have ended := h.foreignEnd
  unfold Builder.inForeign
  grind

theorem dispatch (h : Acts Q s b) (ht : t.Satisfies Q) : (b.dispatch t).Acts Q s := by
  unfold Builder.dispatch
  split
  · next applies =>
    refine h.inForeign ht fun html => ?_
    simp [Foreign.applies, html] at applies
  · exact h.byMode ht

theorem settle (h : Acts Q s b) (ht : t.Satisfies Q) (n : Nat) :
    Acts Q s (Builder.settle t n b) := by
  induction n generalizing b with
  | zero => exact h
  | succ n ih =>
      have once := h.dispatch ht
      unfold Builder.settle
      split
      · next e => rwa [e] at once
      · next e =>
        rw [e] at once
        exact ih once

theorem feed (h : Acts Q s b) (ht : t.Satisfies Q) : Acts Q s (b.feed t) := by
  have plain : Acts Q s { b with skipsNewline := false } := h.note b.form false b.lenient b.lexing
  unfold Builder.feed
  split
  · exact plain
  · exact plain.settle ht _

theorem feedAll {ts : List Token} (h : Acts Q s b) (hts : ∀ t ∈ ts, t.Satisfies Q) :
    Acts Q s (feedAll b ts) := by
  induction ts generalizing b with
  | nil => exact h
  | cons t ts ih =>
      rw [List.forall_mem_cons] at hts
      exact ih (h.feed hts.1) hts.2

end SafeForms.Html.Acts
