import SafeForms.Proofs.FragmentRoot
import SafeForms.Proofs.WrittenForms

/-!
The texts of a page and where they stand in what is written of it. The texts outside of the contents
of templates are written one after the other, in document order, whatever tags stand around them and
however the forms are corrected; a text in such contents is not written
(`texts_outside_contents_are_written`). In fragment scope this needs that the trees of a fragment are
one tree, as no other than the first is written.
-/

namespace SafeForms

namespace Forest

universe u
variable {α : Type u}

/-- The trees with no contents. -/
def bare : Forest α → Forest α
  | nil => nil
  | node a _ children siblings => node a nil children.bare siblings.bare

/-- The labels in document order that are not reached through children links only. -/
def hidden : Forest α → List α
  | nil => []
  | node _ contents children siblings => contents.labels ++ (children.hidden ++ siblings.hidden)

theorem countP_labels (p : α → Bool) (f : Forest α) :
    f.labels.countP p = f.bare.labels.countP p + f.hidden.countP p := by
  induction f with
  | nil => rfl
  | node a contents children siblings _ ihk ihs =>
      simp only [labels, bare, hidden, List.countP_cons, List.countP_append, ihk, ihs,
        List.countP_nil]
      omega

end Forest

namespace Node

def isText : Node → Bool
  | text _ => true
  | _ => false

theorem correctForm_of_attrs? (r : Request) {n : Node} (plain : n.attrs? = none) :
    n.correctForm r = n := by
  cases n with
  | element e => cases plain
  | _ => rfl

end Node

namespace Html

/-- What the elements around what is below a node mean for it. -/
def Surround.below (s : Surround) : Node → Surround
  | .element e => s.within e
  | _ => {}

/-- The texts of these trees in document order, as they are to be written. The contents of a node
stand in no element. -/
def texts (s : Surround) : Markup → List String
  | .nil => []
  | .node n contents children siblings =>
    (if n.isText then [writeStart s n] else []) ++
      (texts {} contents ++ (texts (s.below n) children ++ texts s siblings))

theorem length_texts (s : Surround) (m : Markup) :
    (texts s m).length = m.labels.countP Node.isText := by
  induction m generalizing s with
  | nil => rfl
  | node n contents children siblings ihc ihk ihs =>
      simp only [texts, Forest.labels, List.length_append, List.countP_cons, List.countP_append,
        ihc, ihk, ihs]
      cases n.isText <;> grind

theorem texts_eq_nil {m : Markup} (none : ∀ n ∈ m.labels, n.isText = false) (s : Surround) :
    texts s m = [] := by
  rw [← List.length_eq_zero_iff, length_texts, List.countP_eq_zero]
  simpa using none

/-- All texts stand outside of the contents if none is hidden there, and only then. -/
theorem texts_bare_eq_iff (s : Surround) (m : Markup) :
    texts s m.bare = texts s m ↔ ∀ n ∈ m.hidden, n.isText = false := by
  constructor
  · intro same
    have length := congrArg List.length same
    rw [length_texts, length_texts, Forest.countP_labels Node.isText m] at length
    have zero : m.hidden.countP Node.isText = 0 := by omega
    simpa using List.countP_eq_zero.mp zero
  · intro none
    induction m generalizing s with
    | nil => rfl
    | node n contents children siblings _ ihk ihs =>
        simp only [Forest.hidden, List.mem_append, or_imp, forall_and] at none
        obtain ⟨hc, hk, hs⟩ := none
        simp only [Forest.bare, texts, texts_eq_nil hc, ihk _ hk, ihs _ hs]

/-- What is written before the children of a node, with a gap for the whole of a text. -/
def textStart (s : Surround) (n : Node) : Gapped String :=
  if n.isText then .gap "" (writeStart s n) (.text "") else .text (writeStart s n)

theorem gaps_textStart (s : Surround) (n : Node) :
    (textStart s n).gaps = if n.isText then [writeStart s n] else [] := by
  rw [textStart]
  split <;> rfl

theorem fill_textStart (s : Surround) (n : Node) : (textStart s n).fill id = writeStart s n := by
  rw [textStart]
  split
  · simp [Gapped.fill]
  · rfl

theorem write_of_attrs? {n : Node} (plain : n.attrs? = none) (s : Surround)
    (contents siblings : Markup) :
    write s (.node n contents .nil siblings) = writeStart s n ++ write s siblings := by
  cases n with
  | element e => cases plain
  | _ => simp [write]

/-- The texts outside of contents stand in what is written, in this order, also when the forms are
corrected. -/
theorem exists_gapped_texts (r : Request) (s : Surround) {Q : Attributes → Prop} {m : Markup}
    (h : m.Each (Regular Q)) :
    ∃ page : Gapped String, page.gaps = texts s m.bare ∧
      page.fill id = write s (m.mapVisible (Node.correctForm r)) := by
  induction m generalizing s with
  | nil => exact ⟨.text "", rfl, rfl⟩
  | node n contents children siblings _ ihk ihs =>
      obtain ⟨⟨_, alone⟩, _, regularChildren, regularSiblings⟩ := h
      obtain ⟨next, nextGaps, nextFill⟩ := ihs s regularSiblings
      cases kind : n.attrs? with
      | none =>
          -- only children of elements are written, and this node has none
          obtain ⟨_, rfl⟩ := alone kind
          have same := Node.correctForm_of_attrs? r kind
          refine ⟨textStart s n ++ next, ?_, ?_⟩
          · simp [gaps_textStart, nextGaps, Forest.bare, texts]
          · simp only [Forest.mapVisible, same, write_of_attrs? kind, Gapped.fill_append,
              fill_textStart, nextFill]
      | some attrs =>
          cases n with
          | element e =>
              obtain ⟨inner, innerGaps, innerFill⟩ := ihk (s.within e) regularChildren
              obtain ⟨attrs, same⟩ := Node.exists_correctForm_element r e
              let opening : Gapped String := .text (writeStart s (.element ⟨e.ns, e.name, attrs⟩))
              let closing : Gapped String := .text (writeEnd s e)
              refine ⟨opening ++ (inner ++ closing) ++ next, ?_, ?_⟩
              · simp [opening, closing, Gapped.gaps, innerGaps, nextGaps, Forest.bare, texts,
                  Node.isText, Surround.below]
              · simp only [Forest.mapVisible, write, same, Gapped.fill_append, innerFill, nextFill]
                rfl
          | _ => cases kind

end Html

namespace Page

open Html

theorem markup_parse (o : Options) (text : String) :
    (parse o text).markup Dom.root =
      Html.parse (settings o) (.ofPieces o.parse.discardMark [text.toList]) :=
  Dom.markup_ofMarkup _

theorem regular_parse (o : Options) (text : String) :
    ((parse o text).markup Dom.root).Each (Regular fun _ => True) := by
  rw [markup_parse]
  exact ((Acts.of_text _ _).satisfies (.start _)).markup

theorem texts_served (o : Options) (text : String) :
    texts {} ((parse o text).served o.scope).bare =
      texts {} ((parse o text).markup Dom.root).bare := by
  cases scope : o.scope with
  | document => rfl
  | fragment =>
      have fragment : (settings o).fragment = true := decide_eq_true scope
      obtain ⟨attrs, children, root⟩ :=
        parse_fragment fragment (.ofPieces o.parse.discardMark [text.toList])
      rw [← markup_parse] at root
      -- nothing is left out with the root, and its texts are written as they are without it
      have around : Surround.within {} ⟨.html, "html", attrs⟩ = {} := by
        simp [Surround.within, isRawText, isVoid, rawTextNames, voidNames]
      simp [Dom.served, root, Forest.firstChildren?, Forest.bare, texts, Node.isText,
        Surround.below, around]

theorem regular_served (o : Options) (text : String) :
    ((parse o text).served o.scope).Each (Regular fun _ => True) := by
  have all := regular_parse o text
  cases o.scope with
  | document => exact all
  | fragment =>
      rw [Dom.served]
      cases tree : (parse o text).markup Dom.root with
      | nil => trivial
      | node n contents children siblings =>
          rw [tree] at all
          exact all.2.2.1

/-- A corrected page has every text outside of the contents of templates in it, one after the other
and in document order. These are all texts of the page if no text lies in such contents, and only
then. -/
theorem texts_outside_contents_are_written (o : Options) (text : String) :
    let tree := (parse o text).markup Dom.root
    ∃ page : Gapped String, (sanitize o text).html = page.fill id ∧
      page.gaps = Html.texts {} tree.bare ∧
      (page.gaps = Html.texts {} tree ↔ ∀ n ∈ tree.hidden, n.isText = false) := by
  intro tree
  obtain ⟨page, gaps, fill⟩ := exists_gapped_texts o.request {} (regular_served o text)
  rw [texts_served] at gaps
  refine ⟨page, ?_, gaps, ?_⟩
  · rw [fill, ← Dom.served_sanitize]
    rfl
  · rw [gaps]
    exact texts_bare_eq_iff {} tree

/-- A text in the contents of a template is not written. -/
theorem texts_in_contents_are_lost :
    let o : Options := ⟨{}, ⟨"h", "/"⟩, .fragment⟩
    let text := "<template>xyz</template>"
    ¬ ∃ page : Gapped String, (sanitize o text).html = page.fill id ∧
      page.gaps = Html.texts {} ((parse o text).markup Dom.root) := by
  intro o text
  rintro ⟨page, fill, gaps⟩
  have texts : Html.texts {} ((parse o text).markup Dom.root) = ["xyz"] := by decide +kernel
  have written : (sanitize o text).html = "<template></template>" := by decide +kernel
  obtain ⟨before, after, inside⟩ := Gapped.fill_of_mem_gaps (f := id) (g := page) (a := "xyz")
    (by simp [gaps, texts])
  rw [written, inside] at fill
  -- some letter of the text stands nowhere in what is written
  have found : 'x' ∈ "<template></template>".toList := by simp [fill]
  revert found
  decide

end Page
end SafeForms
