import SafeForms.Proofs.Readings
import SafeForms.Proofs.WrittenTags

/-!
What the parts of a written text are. Markup is written as one passage after another
(`joined_passages`), so an opening bracket in the text stands in one of them (`exists_opensIn`).
Escaped text has none, and a passage that begins with one but is no start tag goes on with a mark
that no name begins with. So where the start tag of a form is read, a bracket is exposed, or the
start tag of a form was written there (`exposes_or_startTag`).
-/

namespace SafeForms.Html

/-- A stretch of a text and what it was written for. -/
inductive Passage where
  | startTag (e : Element)
  | endTag (e : Element)
  | escapedText (content : String)
  | rawText (holder : Element) (raw : isRawText holder = true) (content : String)
  | comment (content : String)
  | doctype (name : String)
  | instruction (target data : String)
  deriving Repr, DecidableEq

namespace Passage

def text : Passage → String
  | .startTag e => Html.startTag e
  | .endTag e => Html.endTag e
  | .escapedText content => escapeText content
  | .rawText _ _ content => content
  | .comment content => "<!--" ++ content ++ "-->"
  | .doctype name => "<!DOCTYPE " ++ name ++ ">"
  | .instruction target data => "<?" ++ target ++ " " ++ data ++ ">"

/-- Whether a bracket behind these characters of a passage may be taken for that of a form. In raw
text every bracket may. A tag, a comment or a declaration begins with a bracket of its own, which is
that of a form only in the start tag of an HTML form or may be taken for it in another start tag; the
further brackets are those of a name, a value or a content, which are not escaped. -/
def Exposes (before : List Char) : Passage → Prop
  | .escapedText _ => False
  | .rawText holder _ _ => holder.ns = .html ∧ holder.name ∈ rawTextNames
  | .startTag e => before = [] → e.isHtml "form" = false
  | .endTag _ | .comment _ | .doctype _ | .instruction _ _ => before ≠ []

/-- The passage of a text, by the element directly around it. -/
def ofText (holder : Option Element) (content : String) : Passage :=
  match holder with
  | none => .escapedText content
  | some e => if raw : isRawText e then .rawText e raw content else .escapedText content

theorem ofText_ne_startTag (holder : Option Element) (content : String) (e : Element) :
    ofText holder content ≠ .startTag e := by
  unfold ofText
  split
  · simp
  · split <;> simp

end Passage

/-! ### Texts in passages -/

def startPassages (holder : Option Element) (untagged : Bool) : Node → List Passage
  | .document => []
  | .doctype name _ _ => [.doctype name]
  | .text content => [.ofText holder content]
  | .comment content => [.comment content]
  | .instruction target data => [.instruction target data]
  | .element e => if untagged then [] else [.startTag e]

def endPassages (untagged : Bool) (e : Element) : List Passage :=
  if untagged || isVoid e then [] else [.endTag e]

/-- The passages that markup is written as. -/
def passages (holder : Option Element) (untagged : Bool) : Markup → List Passage
  | .nil => []
  | .node n _ children siblings =>
    let inner :=
      match n with
      | .element e => passages (some e) (untagged || isVoid e) children ++ endPassages untagged e
      | _ => []
    startPassages holder untagged n ++ inner ++ passages holder untagged siblings

def joined (ps : List Passage) : List Char := ps.flatMap (·.text.toList)

@[simp] theorem joined_append (ps qs : List Passage) : joined (ps ++ qs) = joined ps ++ joined qs :=
  List.flatMap_append

/-- What a holder and the void elements above mean for the text. -/
def surround (holder : Option Element) (untagged : Bool) : Surround where
  rawText := holder.any isRawText
  untagged := untagged

@[simp] theorem untagged_surround (holder : Option Element) (untagged : Bool) :
    (surround holder untagged).untagged = untagged := rfl

@[simp] theorem within_surround (holder : Option Element) (untagged : Bool) (e : Element) :
    (surround holder untagged).within e = surround (some e) (untagged || isVoid e) := rfl

theorem joined_startPassages (holder : Option Element) (untagged : Bool) (n : Node) :
    joined (startPassages holder untagged n) =
      (writeStart (surround holder untagged) n).toList := by
  cases n with
  | text content =>
      cases holder with
      | none => simp [startPassages, joined, Passage.ofText, Passage.text, writeStart, surround]
      | some e =>
          by_cases raw : isRawText e = true <;>
            simp [startPassages, joined, Passage.ofText, Passage.text, writeStart, surround, raw]
  | element e =>
      cases untagged <;> simp [startPassages, joined, Passage.text, writeStart, surround]
  | _ => simp [startPassages, joined, Passage.text, writeStart]

theorem joined_endPassages (holder : Option Element) (untagged : Bool) (e : Element) :
    joined (endPassages untagged e) = (writeEnd (surround holder untagged) e).toList := by
  rw [endPassages, writeEnd, within_surround, untagged_surround]
  split <;> simp [joined, Passage.text]

theorem joined_passages (holder : Option Element) (untagged : Bool) (m : Markup) :
    joined (passages holder untagged m) = (write (surround holder untagged) m).toList := by
  induction m generalizing holder untagged with
  | nil => rfl
  | node n contents children siblings _ ihk ihs =>
      cases n with
      | element e =>
          simp [passages, write, joined_startPassages, joined_endPassages holder, ihk, ihs]
      | _ => simp [passages, write, joined_startPassages, ihs]

/-- A start tag is written for an element that is seen. -/
theorem visible_of_startTag_mem {holder : Option Element} {untagged : Bool} {m : Markup}
    {e : Element} (h : .startTag e ∈ passages holder untagged m) : .element e ∈ m.visible := by
  induction m generalizing holder untagged with
  | nil => cases h
  | node n contents children siblings _ ihk ihs =>
      simp only [passages, List.mem_append] at h
      rcases h with (h | h) | h
      · have same : n = .element e := by
          cases n <;> grind [startPassages, Passage.ofText_ne_startTag]
        rw [same]
        exact List.mem_cons_self
      · cases n with
        | element f =>
            rcases List.mem_append.mp h with h | h
            · exact List.mem_cons_of_mem _ (List.mem_append_left _ (ihk h))
            · grind [endPassages]
        | _ => cases h
      · exact List.mem_cons_of_mem _ (List.mem_append_right _ (ihs h))

/-! ### Brackets in passages -/

/-- Whether the text of these passages has a bracket in the passage `p`, behind the characters
`before` of it, and goes on with `rest`. -/
def OpensIn (ps : List Passage) (p : Passage) (before rest : List Char) : Prop :=
  ∃ earlier later inside, ps = earlier ++ p :: later ∧
    p.text.toList = before ++ '<' :: inside ∧ rest = inside ++ joined later

theorem exists_opensIn {ps : List Passage} {start rest : List Char}
    (h : joined ps = start ++ '<' :: rest) : ∃ p before, OpensIn ps p before rest := by
  induction ps generalizing start with
  | nil => simp [joined] at h
  | cons p ps ih =>
      have later : (∃ start', joined ps = start' ++ '<' :: rest) →
          ∃ q before, OpensIn (p :: ps) q before rest := by
        rintro ⟨start', split⟩
        obtain ⟨q, before, earlier, later, inside, rfl, parts⟩ := ih split
        exact ⟨q, before, p :: earlier, later, inside, rfl, parts⟩
      have whole : p.text.toList ++ joined ps = start ++ '<' :: rest := h
      rcases List.append_eq_append_iff.mp whole with ⟨start', -, split⟩ | ⟨more, text, split⟩
      · exact later ⟨start', split⟩
      · cases more with
        | nil => exact later ⟨[], split.symm⟩
        | cons c inside =>
            obtain ⟨rfl, rfl⟩ := List.cons.inj split
            exact ⟨p, start, [], ps, inside, rfl, text, rfl⟩

theorem bracket_notMem_escapeText (content : String) : '<' ∉ (escapeText content).toList := by
  rw [escapeText, String.toList_ofList]
  intro h
  obtain ⟨c, -, hc⟩ := List.mem_flatMap.mp h
  rw [escapeTextChar] at hc
  repeat' split at hc
  · exact absurd hc (by decide)
  · exact absurd hc (by decide)
  · exact absurd hc (by decide)
  · exact absurd hc (by decide)
  · next other _ => exact other (List.mem_singleton.mp hc).symm

/-! ### Brackets where a form is read -/

namespace Source

theorem dropMark_suffix (cs : List Char) : dropMark cs <:+ cs := by
  cases cs with
  | nil => exact List.suffix_rfl
  | cons c cs =>
      rw [dropMark]
      split
      · exact List.suffix_cons c cs
      · exact List.suffix_rfl

/-- A character that stands in a text as it is read stands in the text. -/
theorem exists_of_suffix_normalizeLines {c : Char} (other : c ≠ '\n') {cs place : List Char}
    {afterReturn : Bool} (h : c :: place <:+ (normalizeLines afterReturn cs).1) :
    ∃ start rest, cs = start ++ c :: rest ∧ place = (normalizeLines false rest).1 := by
  induction cs generalizing afterReturn with
  | nil => simp [normalizeLines] at h
  | cons d cs ih =>
      have behind : ∀ {afterReturn}, c :: place <:+ (normalizeLines afterReturn cs).1 →
          ∃ start rest, d :: cs = start ++ c :: rest ∧ place = (normalizeLines false rest).1 := by
        intro afterReturn h
        obtain ⟨start, rest, rfl, same⟩ := ih h
        exact ⟨d :: start, rest, rfl, same⟩
      rw [normalizeLines] at h
      split at h
      · exact behind h
      · rcases List.suffix_cons_iff.mp h with same | later
        · obtain ⟨first, rfl⟩ := List.cons.inj same
          by_cases line : d = '\r'
          · exact absurd (first.trans (if_pos line)) other
          · rw [if_neg line] at first
            exact ⟨[], cs, by simp [first], by simp [line]⟩
        · exact behind later

end Source

/-- What begins with a mark of another kind of tag is not read as a form. -/
theorem name_ne_form_of_mark {settings : Settings} {source : Source} {c : Char} {cs : List Char}
    {tag : Tag} (h : c ∈ ['/', '!', '?'])
    (read : ReadsTag settings source ('<' :: (Source.normalizeLines false (c :: cs)).1) tag) :
    tag.name ≠ "form" := by
  obtain ⟨-, place, -, split, name, -⟩ := read.scans
  intro form
  have letters : (place.takeWhile (!Lexer.endsTagName ·)).map (fun c => Lexer.clean c.toLower) =
      "form".toList := by
    rw [← Lexer.toList_cleanName, ← name, form]
  have other : ∀ c ∈ ['/', '!', '?'], c ≠ '\r' ∧ Lexer.clean c.toLower ≠ 'f' := by
    simp [Lexer.clean, Char.toLower]
  obtain ⟨line, first⟩ := other c h
  have begins : place = c :: (Source.normalizeLines false cs).1 := by
    simpa [Source.normalizeLines, line] using split.symm
  rw [begins, List.takeWhile_cons] at letters
  split at letters
  · simp [first] at letters
  · simp at letters

theorem metTag_prefix {e : Element} {inside : List Char} (h : (startTag e).toList = '<' :: inside)
    (more : List Char) : metTag e <+: '<' :: (Source.normalizeLines false (inside ++ more)).1 := by
  have whole : '<' :: (Source.normalizeLines false (inside ++ more)).1 =
      (Source.normalizeLines false ((startTag e).toList ++ more)).1 := by
    simp [h, Source.normalizeLines]
  rw [whole, Source.normalizeLines_append]
  exact List.prefix_append _ _

/-- Where the start tag of a form is read, the bracket is exposed or begins the start tag that was
written for a form. -/
theorem exposes_or_startTag {ps : List Passage} {p : Passage} {before rest : List Char}
    (opens : OpensIn ps p before rest) {settings : Settings} {source : Source} {tag : Tag}
    (read : ReadsTag settings source ('<' :: (Source.normalizeLines false rest).1) tag)
    (form : tag.name = "form") :
    p.Exposes before ∨ ∃ e, .startTag e ∈ ps ∧ e.isHtml "form" = true ∧
      metTag e <+: '<' :: (Source.normalizeLines false rest).1 := by
  obtain ⟨earlier, later, inside, rfl, text, rfl⟩ := opens
  have marked : ∀ c ∈ ['/', '!', '?'], (∃ cs, p.text.toList = '<' :: c :: cs) → before ≠ [] := by
    rintro c mark ⟨cs, begins⟩ rfl
    obtain ⟨-, rfl⟩ := List.cons.inj (begins.symm.trans text)
    exact name_ne_form_of_mark mark read form
  cases p with
  | escapedText content =>
      have mem : '<' ∈ (escapeText content).toList := by
        rw [← Passage.text, text]
        simp
      exact absurd mem (bracket_notMem_escapeText content)
  | rawText holder raw content => exact Or.inl (by simpa [Passage.Exposes, isRawText] using raw)
  | startTag e =>
      by_cases known : before = [] ∧ e.isHtml "form" = true
      · refine Or.inr ⟨e, by simp, known.2, ?_⟩
        rw [known.1, List.nil_append] at text
        exact metTag_prefix text (joined later)
      · exact Or.inl fun first => by simpa [first] using known
  | endTag e => exact Or.inl (marked '/' (by decide) (by simp [Passage.text, endTag]))
  | comment content => exact Or.inl (marked '!' (by decide) (by simp [Passage.text]))
  | doctype name => exact Or.inl (marked '!' (by decide) (by simp [Passage.text]))
  | instruction target data => exact Or.inl (marked '?' (by decide) (by simp [Passage.text]))

end SafeForms.Html
