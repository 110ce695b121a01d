import SafeForms.Page
import SafeForms.Proofs.Passages
import SafeForms.Proofs.SanitizeMap

/-!
A served page that is read again. The forms of a page are corrected when it is served, and where the
start tag of one of them was written the reader finds a form that needs no correction. Escaped text
gives no tags. But what was written unescaped, or as the tag of another element, can be read as the
start tag of a form where the reader comes to it in another way than before; such a form is as it
happens to be (`rereading_changes_exposed`).
-/

namespace SafeForms

open Html

namespace Attributes

theorem forall_mem_set {P : Attribute → Prop} {attrs : Attributes} (h : ∀ a ∈ attrs, P a)
    {name value : String} (added : P ⟨.null, name, value⟩)
    (changed : ∀ a, P a → P ⟨a.ns, a.name, value⟩) : ∀ a ∈ set name value attrs, P a := by
  induction attrs with
  | nil => simpa [set] using added
  | cons b attrs ih =>
      rw [List.forall_mem_cons] at h
      rw [set]
      split
      · exact List.forall_mem_cons.mpr ⟨changed b h.1, h.2⟩
      · exact List.forall_mem_cons.mpr ⟨h.1, ih h.2⟩

end Attributes

namespace Form

/-- The names that a correction writes are names that a reader gives. -/
theorem isName_of_mem_submissionNames : ∀ name ∈ submissionNames, Lexer.IsName name.toList := by
  intro name hn
  refine Lexer.isName_of_letters ?_ ?_
  · revert name
    decide
  · revert name
    simp [submissionNames, Char.isLower]

theorem writtenPlainly_set {attrs : Attributes} (h : ∀ a ∈ attrs, WrittenPlainly a)
    {name : String} (hn : name ∈ submissionNames) (value : String) :
    ∀ a ∈ attrs.set name value, WrittenPlainly a :=
  Attributes.forall_mem_set h ⟨rfl, isName_of_mem_submissionNames name hn⟩
    fun _ ha => ⟨ha.ns, ha.name⟩

theorem writtenPlainly_declare {attrs : Attributes} (h : ∀ a ∈ attrs, WrittenPlainly a)
    {name : String} (hn : name ∈ submissionNames) (value : String)
    (report : Option String → String → Event) :
    ∀ a ∈ (declare name value report attrs).1, WrittenPlainly a := by
  unfold declare
  simp only
  split
  · exact h
  · exact writtenPlainly_set h hn value

theorem writtenPlainly_reviseXhr {attrs : Attributes} (h : ∀ a ∈ attrs, WrittenPlainly a)
    (endpoint : String) : ∀ a ∈ (reviseXhr endpoint attrs).1, WrittenPlainly a := by
  rw [reviseXhr]
  split
  · exact writtenPlainly_set h (by decide) _
  · simp only
    split
    · exact h
    · exact writtenPlainly_set h (by decide) _

/-- A correction keeps the names and adds only names of its own. -/
theorem writtenPlainly_correct (r : Request) {attrs : Attributes}
    (h : ∀ a ∈ attrs, WrittenPlainly a) : ∀ a ∈ correct r attrs, WrittenPlainly a := by
  have named : ∀ a ∈ (reviseMethod attrs).1, WrittenPlainly a :=
    writtenPlainly_declare h (by decide) _ _
  have placed : ∀ a ∈ (reviseEndpoints r (methodOf attrs) (reviseMethod attrs).1).1,
      WrittenPlainly a := by
    cases methodOf attrs with
    | get => exact writtenPlainly_declare named (by decide) _ _
    | post =>
        refine writtenPlainly_reviseXhr (fun a ha => named a ?_) _
        exact List.mem_of_mem_filter ha
    | other name => exact named
  exact writtenPlainly_declare placed (by decide) _ _

end Form

/-! ### What is served -/

namespace Forest

universe u
variable {α : Type u}

theorem visible_mapVisible (f : α → α) (t : Forest α) :
    (t.mapVisible f).visible = t.visible.map f := by
  induction t with
  | nil => rfl
  | node a contents children siblings _ ihk ihs => simp [mapVisible, visible, ihk, ihs]

theorem visible_firstChildren? {t children : Forest α} (h : t.firstChildren? = some children) :
    children.visible ⊆ t.visible := by
  cases t with
  | nil => cases h
  | node a contents below siblings =>
      cases h
      intro x hx
      simp [visible, hx]

end Forest

namespace Dom

theorem visible_served_subset (dom : Dom) (scope : Scope) :
    (dom.served scope).visible ⊆ (dom.markup root).visible := by
  cases scope with
  | document => exact fun _ h => h
  | fragment =>
      rw [served]
      cases e : (dom.markup root).firstChildren? with
      | none => simp [Forest.visible]
      | some children => exact Forest.visible_firstChildren? e

/-- A form of a page that is served was a form of the page before, and is corrected. -/
theorem form_of_served {dom : Dom} {r : Request} {scope : Scope} {e : Element}
    (mem : .element e ∈ ((dom.sanitize r).1.served scope).visible)
    (form : e.isHtml "form" = true) :
    ∃ f, .element f ∈ (dom.markup root).labels ∧ f.isHtml "form" = true ∧
      e.attrs = Form.correct r f.attrs := by
  have seen := visible_served_subset _ scope mem
  rw [markup_sanitize, Forest.visible_mapVisible] at seen
  obtain ⟨n, hn, same⟩ := List.mem_map.mp seen
  have before : n.isHtml "form" = true := by
    rw [← Node.isHtml_correctForm r "form" n, same]
    exact form
  rw [Node.correctForm_of_isHtml before] at same
  cases n with
  | element f =>
      cases same
      exact ⟨f, Forest.visible_subset_labels _ hn, before, rfl⟩
  | _ => cases before

end Dom

/-! ### What is read again -/

namespace Page

/-- A text as the reader meets it. -/
def source (o : Options) (text : String) : Source := .ofPieces o.parse.discardMark [text.toList]

/-- What holds of the forms that are read holds of the forms of the document. -/
theorem attrs_of_parse {Q : Attributes → Prop} {o : Options} {text : String}
    (h : FormsSatisfy Q (Html.parse (settings o) (source o text))) {id : NodeId}
    (form : (parse o text).isHtml "form" (.node id) = true) :
    ∃ attrs, (parse o text).attrs? (.node id) = some attrs ∧ Q attrs := by
  have nodes : (parse o text).node? (.node id) =
      (Node.document :: (Html.parse (settings o) (source o text)).labels)[id]? :=
    List.getElem?_toArray
  rw [Dom.isHtml, nodes, Option.any_eq_true] at form
  obtain ⟨n, found, isForm⟩ := form
  have mem := List.mem_of_getElem? found
  cases n with
  | element e =>
      have inside : Node.element e ∈ (Html.parse (settings o) (source o text)).labels := by
        simpa using mem
      exact ⟨e.attrs, by rw [Dom.attrs?, nodes, found]; rfl, h _ inside isForm⟩
  | _ => cases isForm

/-- Attribute names are read as they are written, again and again. -/
theorem writtenPlainly_of_scanned {tag : Tag} {cs rest : List Char}
    (h : Lexer.scanAttributes [] cs = some (tag.attrs, tag.selfClosing, rest)) :
    ∀ a ∈ Builder.attributes tag, WrittenPlainly a := by
  intro a ha
  obtain ⟨⟨name, value⟩, mem, rfl⟩ := List.mem_map.mp ha
  exact ⟨rfl, Lexer.isName_of_scanAttributes h (by simp) _ mem⟩

/-- A served form needs no correction, and its names are written as they were read. -/
theorem conforms_of_served {o : Options} {text : String} {e : Element}
    (mem : .element e ∈ (((parse o text).sanitize o.request).1.served o.scope).visible)
    (form : e.isHtml "form" = true) :
    Form.Conforms e.attrs ∧ ∀ a ∈ e.attrs, WrittenPlainly a := by
  obtain ⟨f, before, isForm, attrs⟩ := Dom.form_of_served mem form
  have markup : (parse o text).markup Dom.root = Html.parse (settings o) (source o text) :=
    Dom.markup_ofMarkup _
  rw [markup] at before
  obtain ⟨place, tag, read, -, same⟩ := forms_of_readings _ _ _ before isForm
  obtain ⟨-, cs, rest, -, -, scanned⟩ := read.scans
  rw [attrs]
  refine ⟨Form.conforms_correct _ _, Form.writtenPlainly_correct _ ?_⟩
  rw [← same]
  exact writtenPlainly_of_scanned scanned

/-- A form that is read where a served form was written needs no correction. -/
theorem conforms_of_written {o : Options} {text : String} {e : Element}
    (mem : .element e ∈ (((parse o text).sanitize o.request).1.served o.scope).visible)
    (form : e.isHtml "form" = true) {settings : Settings} {source : Source} {place : List Char}
    {tag : Tag} (read : ReadsTag settings source place tag) (met : metTag e <+: place) :
    Form.Conforms (Builder.attributes tag) := by
  obtain ⟨conforms, plain⟩ := conforms_of_served mem form
  obtain ⟨-, cs, rest, rfl, -, scanned⟩ := read.scans
  refine Lexer.conforms_reread conforms (get?_of_metTag ?_ plain met scanned)
  rw [(Element.isHtml_iff.mp form).2]
  simp [Lexer.endsTagName, Text.isBlank]

/-- What is read of a text from a bracket on was written from a bracket on. -/
theorem exists_of_place {o : Options} {text : String} {place : List Char}
    (h : '<' :: place <:+ (source o text).chars) :
    ∃ start rest, text.toList = start ++ '<' :: rest ∧
      place = (Source.normalizeLines false rest).1 := by
  simp only [source, Source.ofPieces, Source.readPieces, List.flatten_cons, List.flatten_nil,
    List.append_nil] at h
  obtain ⟨start, rest, split, same⟩ := Source.exists_of_suffix_normalizeLines (by decide) h
  have within : '<' :: rest <:+ text.toList := by
    refine List.IsSuffix.trans ⟨start, split.symm⟩ ?_
    split
    · exact Source.dropMark_suffix _
    · exact List.suffix_rfl
  obtain ⟨start, split⟩ := within
  exact ⟨start, rest, split.symm, same⟩

theorem toList_html (o : Options) (text : String) : (sanitize o text).html.toList =
    joined (passages none false (((parse o text).sanitize o.request).1.served o.scope)) :=
  (joined_passages none false _).symm

end Page
end SafeForms
