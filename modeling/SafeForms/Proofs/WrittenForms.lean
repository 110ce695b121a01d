import SafeForms.Page
import SafeForms.Proofs.GappedText
import SafeForms.Proofs.SanitizeMap
import SafeForms.Proofs.WrittenTags

/-!
A written page as a text with gaps. The start tags of its HTML forms are left open where their
attributes stand; what is written around them depends on the attributes of no form. So a page before
and after its forms are corrected is one text, filled in two ways (`sanitize_fills_form_tags`).
-/

namespace SafeForms

namespace Forest

universe u
variable {α : Type u}

theorem firstChildren?_mapVisible (f : α → α) (t : Forest α) :
    (t.mapVisible f).firstChildren? = t.firstChildren?.map (·.mapVisible f) := by
  cases t <;> rfl

end Forest

theorem Node.exists_correctForm_element (r : Request) (e : Element) :
    ∃ attrs, (Node.element e).correctForm r = .element ⟨e.ns, e.name, attrs⟩ := by
  rw [Node.correctForm]
  split
  · exact ⟨_, rfl⟩
  · exact ⟨e.attrs, rfl⟩

namespace Html

/-- What is written before the children of a node, with a gap for the attributes of a form. -/
def gappedStart (s : Surround) (n : Node) : Gapped Attributes :=
  if n.isHtml "form" && !s.untagged then .gap "<form" n.attrs (.text ">")
  else .text (writeStart s n)

/-- Markup as it is written, with a gap for the attributes of every form. -/
def gapped (s : Surround) : Markup → Gapped Attributes
  | .nil => .text ""
  | .node n _ children siblings =>
    let inner :=
      match n with
      | .element e => gapped (s.within e) children ++ .text (writeEnd s e)
      | _ => .text ""
    gappedStart s n ++ inner ++ gapped s siblings

theorem fill_gappedStart (s : Surround) (n : Node) :
    (gappedStart s n).fill writeAttributes = writeStart s n := by
  rw [gappedStart]
  split
  · next h =>
    cases n with
    | element e =>
        obtain ⟨form, tagged⟩ := Bool.and_eq_true_iff.mp h
        have name : e.name = "form" := (Element.isHtml_iff.mp form).2
        rw [Bool.not_eq_true'] at tagged
        simp [Gapped.fill, writeStart, startTag, Node.attrs, Node.attrs?, name, tagged,
          String.append_assoc]
    | _ => cases h
  · rfl

theorem fill_gapped (s : Surround) (m : Markup) :
    (gapped s m).fill writeAttributes = write s m := by
  induction m generalizing s with
  | nil => rfl
  | node n contents children siblings _ ihk ihs =>
      simp only [gapped, write, Gapped.fill_append, fill_gappedStart, ihs]
      cases n with
      | element e => simp only [Gapped.fill_append, ihk, Gapped.fill]
      | _ => rfl

theorem between_gappedStart (s : Surround) (n : Node) :
    (gappedStart s n).Between ["<form"] ">" := by
  rw [gappedStart]
  split
  · exact ⟨⟨"<form", List.mem_cons_self, "", rfl⟩, ⟨"", rfl⟩, trivial⟩
  · trivial

theorem between_gapped (s : Surround) (m : Markup) : (gapped s m).Between ["<form"] ">" := by
  induction m generalizing s with
  | nil => trivial
  | node n contents children siblings _ ihk ihs =>
      refine ((between_gappedStart s n).append ?_).append (ihs s)
      cases n with
      | element e => exact Gapped.Between.append (ihk _) trivial
      | _ => trivial

/-- The attributes of the HTML forms whose start tags are written, in order. -/
def writtenForms (m : Markup) : List Attributes :=
  ((writtenTags {} [] m).filter (·.1.isHtml "form")).map (·.1.attrs)

theorem gaps_gappedStart (s : Surround) (e : Element) (text : List Char) :
    (gappedStart s (.element e)).gaps =
      ((if s.untagged then [] else [(e, text)]).filter (·.1.isHtml "form")).map (·.1.attrs) := by
  rw [gappedStart, Node.isHtml]
  cases s.untagged <;> cases form : e.isHtml "form" <;>
    simp [form, Gapped.gaps, Node.attrs, Node.attrs?]

theorem gaps_gapped (s : Surround) (after : List Char) (m : Markup) :
    (gapped s m).gaps = ((writtenTags s after m).filter (·.1.isHtml "form")).map (·.1.attrs) := by
  induction m generalizing s after with
  | nil => rfl
  | node n contents children siblings _ ihk ihs =>
      simp only [gapped, writtenTags, Gapped.gaps_append, List.filter_append, List.map_append,
        ← ihs s after]
      congr 1
      cases n with
      | element e =>
          simp only [Gapped.gaps_append, Gapped.gaps, List.append_nil, List.filter_append,
            List.map_append, ← gaps_gappedStart]
          rw [← ihk]
      | _ => rfl

/-- A form is written with other attributes, and with nothing else, when it is corrected. -/
theorem gappedStart_correctForm (r : Request) (s : Surround) (n : Node) :
    gappedStart s (n.correctForm r) = (gappedStart s n).map (Form.correct r) := by
  rw [gappedStart, gappedStart, Node.isHtml_correctForm]
  by_cases form : n.isHtml "form" = true
  · rw [Node.correctForm_of_isHtml form]
    cases n with
    | element e =>
        cases tagged : s.untagged <;>
          simp [form, tagged, Gapped.map, Node.mapAttrs, Node.attrs, Node.attrs?, writeStart]
    | _ => cases form
  · rw [Bool.not_eq_true] at form
    rw [Node.correctForm_of_not_isHtml form]
    simp [form, Gapped.map]

theorem gapped_correctForm (r : Request) (s : Surround) (m : Markup) :
    gapped s (m.mapVisible (Node.correctForm r)) = (gapped s m).map (Form.correct r) := by
  induction m generalizing s with
  | nil => rfl
  | node n contents children siblings _ ihk ihs =>
      simp only [Forest.mapVisible, gapped, Gapped.map_append, gappedStart_correctForm, ihs]
      congr 2
      cases n with
      | element e =>
          obtain ⟨attrs, same⟩ := Node.exists_correctForm_element r e
          simp only [same, Gapped.map_append, ← ihk]
          rfl
      | _ => rfl

end Html

namespace Dom

theorem served_sanitize (dom : Dom) (r : Request) (scope : Scope) :
    (dom.sanitize r).1.served scope = (dom.served scope).mapVisible (Node.correctForm r) := by
  cases scope with
  | document => exact markup_sanitize dom r
  | fragment =>
      rw [served, markup_sanitize, Forest.firstChildren?_mapVisible, served]
      cases (dom.markup root).firstChildren? <;> rfl

/-- A written page with a gap for the attributes of every form, to be filled for any request. -/
theorem serialize_sanitize (dom : Dom) (r : Request) (scope : Scope) :
    (dom.sanitize r).1.serialize scope =
      (Html.gapped {} (dom.served scope)).fill (Html.writeAttributes ∘ Form.correct r) := by
  rw [serialize, Html.serialize, served_sanitize, ← Html.fill_gapped, Html.gapped_correctForm,
    Gapped.fill_map]

theorem sanitize_of_no_form {dom : Dom} (r : Request)
    (none : ∀ id, dom.Below root id → dom.isHtml "form" (.node id) = false) :
    (dom.sanitize r).1 = dom := by
  have nowhere : dom.correctBelow r root = dom.correctWhere r fun _ => false := by
    refine correctWhere_congr dom r fun id form => decide_eq_false fun below => ?_
    simp [none id below] at form
  rw [sanitize, sanitize_eq_correctBelow, nowhere]
  exact ext_nodes rfl fun id => by simp [getElem?_correctWhere]

end Dom

/-- Correcting the forms of a document changes nothing of what is written but the attributes in the
start tags of its forms. -/
theorem sanitize_fills_form_tags :
    (∀ (dom : Dom) (scope : Scope), ∃ page : Gapped Attributes,
      page.gaps = Html.writtenForms (dom.served scope) ∧ page.Between ["<form"] ">" ∧
        dom.serialize scope = page.fill Html.writeAttributes ∧
        ∀ r : Request, (dom.sanitize r).1.serialize scope =
          page.fill fun attrs => Html.writeAttributes (Form.correct r attrs)) ∧
      ∀ (o : Options) (text : String),
        (∀ id, (Page.parse o text).Below Dom.root id →
          (Page.parse o text).isHtml "form" (.node id) = false) →
        (Page.sanitize o text).html = (Page.parse o text).serialize o.scope := by
  refine ⟨fun dom scope => ?_, fun o text none => ?_⟩
  · exact ⟨Html.gapped {} (dom.served scope), Html.gaps_gapped {} [] _, Html.between_gapped {} _,
      (Html.fill_gapped {} _).symm, fun r => dom.serialize_sanitize r scope⟩
  · have output : (Page.sanitize o text).html =
        ((Page.parse o text).sanitize o.request).1.serialize o.scope := rfl
    rw [output, Dom.sanitize_of_no_form o.request none]

/-- A form in the contents of a template only. -/
theorem template_forms_are_left_alone :
    let o : Options := ⟨{}, ⟨"h", "/"⟩, .fragment⟩
    let text := "<p>a<template><form target=x></form></template>b"
    (∀ id, (Page.parse o text).Below Dom.root id →
      (Page.parse o text).isHtml "form" (.node id) = false) ∧
      (Page.sanitize o text).html = (Page.parse o text).serialize o.scope := by
  intro o text
  have none : ∀ id, (Page.parse o text).Below Dom.root id →
      (Page.parse o text).isHtml "form" (.node id) = false := by
    have all : ∀ id ∈ (Page.parse o text).descendants Dom.root,
        (Page.parse o text).isHtml "form" (.node id) = false := by decide +kernel
    exact fun id below => all id ((Dom.mem_descendants_iff _ _ _).mpr below)
  exact ⟨none, sanitize_fills_form_tags.2 o text none⟩

end SafeForms
