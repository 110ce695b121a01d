import Mathlib
import SafeForms.Dom.Markup
import SafeForms.Form.Normalize
import SafeForms.Proofs.Descendants
import SafeForms.Proofs.SettledForms
import SafeForms.Scope

/-!
A run of the correction as a map. Correcting candidates one by one, in whatever order and however
often each of them comes, replaces the attribute lists of the forms among them and nothing else; for
all forms below a handle this is one map over what lies below it.
-/

namespace SafeForms

namespace Forest

universe u
variable {α : Type u}

/-- Changes the labels that are reached through children links and leaves all contents alone. -/
def mapVisible (f : α → α) : Forest α → Forest α
  | nil => nil
  | node a contents children siblings =>
    node (f a) contents (children.mapVisible f) (siblings.mapVisible f)

theorem map_eq_mapVisible {β : Type u} {f : Forest α} (once : f.labels.Nodup) (g : β → β)
    {before after : α → β} (seen : ∀ a ∈ f.visible, after a = g (before a))
    (hidden : ∀ a ∈ f.labels, a ∉ f.visible → after a = before a) :
    f.map after = (f.map before).mapVisible g := by
  induction f with
  | nil => rfl
  | node a contents children siblings ihc ihk ihs =>
      obtain ⟨⟨freshC, freshK, freshS⟩, ⟨_, onceK, onceS⟩, ck, cs, ks⟩ := nodup_node once
      -- the parts share no label, so nothing in the contents is seen from elsewhere
      have same : contents.map after = contents.map before := by
        refine map_congr fun x hx => hidden x (by simp [labels, hx]) ?_
        simp only [visible, List.mem_cons, List.mem_append, not_or]
        refine ⟨fun e => freshC (e ▸ hx), fun hk => ?_, fun hs => ?_⟩
        · exact ck hx (visible_subset_labels _ hk)
        · exact cs hx (visible_subset_labels _ hs)
      have inner : children.map after = (children.map before).mapVisible g := by
        refine ihk onceK (fun x hx => seen x (by simp [visible, hx])) fun x hx out => ?_
        refine hidden x (by simp [labels, hx]) ?_
        simp only [visible, List.mem_cons, List.mem_append, not_or]
        exact ⟨fun e => freshK (e ▸ hx), out, fun hs => ks hx (visible_subset_labels _ hs)⟩
      have next : siblings.map after = (siblings.map before).mapVisible g := by
        refine ihs onceS (fun x hx => seen x (by simp [visible, hx])) fun x hx out => ?_
        refine hidden x (by simp [labels, hx]) ?_
        simp only [visible, List.mem_cons, List.mem_append, not_or]
        exact ⟨fun e => freshS (e ▸ hx), fun hk => ks (visible_subset_labels _ hk) hx, out⟩
      simp only [map, mapVisible, same, inner, next, seen a (by simp [visible])]

end Forest

namespace Node

/-- A form with its attributes corrected; any other node as it is. -/
def correctForm (r : Request) (n : Node) : Node :=
  if n.isHtml "form" then n.mapAttrs (Form.correct r) else n

@[simp] theorem isHtml_correctForm (r : Request) (name : String) (n : Node) :
    (n.correctForm r).isHtml name = n.isHtml name := by
  rw [correctForm]
  split
  · exact isHtml_mapAttrs _ _ _
  · rfl

theorem correctForm_of_isHtml {r : Request} {n : Node} (h : n.isHtml "form" = true) :
    n.correctForm r = n.mapAttrs (Form.correct r) := by
  simp [correctForm, h]

theorem correctForm_of_not_isHtml {r : Request} {n : Node} (h : n.isHtml "form" = false) :
    n.correctForm r = n := by
  simp [correctForm, h]

/-- A form that was corrected is not changed by a second correction, for whatever request. -/
@[simp] theorem correctForm_correctForm (r s : Request) (n : Node) :
    (n.correctForm r).correctForm s = n.correctForm r := by
  by_cases h : n.isHtml "form" = true
  · have corrected : (n.correctForm r).isHtml "form" = true := by rw [isHtml_correctForm, h]
    have twice : Form.correct s ∘ Form.correct r = Form.correct r := by
      funext attrs
      exact Form.correct_correct r s attrs
    rw [correctForm_of_isHtml corrected, correctForm_of_isHtml h, mapAttrs_mapAttrs, twice]
  · rw [Bool.not_eq_true] at h
    rw [correctForm_of_not_isHtml h, correctForm_of_not_isHtml h]

end Node

namespace Dom

/-- The document with the chosen nodes corrected. -/
def correctWhere (dom : Dom) (r : Request) (chosen : NodeId → Bool) : Dom where
  nodes := dom.nodes.mapIdx fun id n => if chosen id then n.correctForm r else n
  shape := dom.shape
  each_once := by simpa using dom.each_once

/-- The document with every form below a handle corrected, and nothing else touched. -/
def correctBelow (dom : Dom) (r : Request) (h : Handle) : Dom :=
  dom.correctWhere r fun id => dom.Below h id

variable (dom : Dom) (r s : Request)

@[simp] theorem shape_correctWhere (chosen : NodeId → Bool) :
    (dom.correctWhere r chosen).shape = dom.shape := rfl

theorem getElem?_correctWhere (chosen : NodeId → Bool) (id : NodeId) :
    (dom.correctWhere r chosen).nodes[id]? =
      dom.nodes[id]?.map fun n => if chosen id then n.correctForm r else n := by
  simp [correctWhere, Array.getElem?_mapIdx]

theorem ext_nodes {dom other : Dom} (shape : dom.shape = other.shape)
    (nodes : ∀ id : NodeId, dom.nodes[id]? = other.nodes[id]?) : dom = other :=
  Dom.ext (Array.ext_getElem? nodes) shape

theorem correctWhere_correctWhere (chosen more : NodeId → Bool) :
    (dom.correctWhere r chosen).correctWhere r more =
      dom.correctWhere r fun id => chosen id || more id := by
  refine ext_nodes rfl fun id => ?_
  simp only [getElem?_correctWhere, Option.map_map]
  congr 1
  funext n
  cases chosen id <;> cases more id <;> simp

theorem correctWhere_congr {chosen other : NodeId → Bool}
    (same : ∀ id, dom.isHtml "form" (.node id) = true → chosen id = other id) :
    dom.correctWhere r chosen = dom.correctWhere r other := by
  refine ext_nodes rfl fun id => ?_
  rw [getElem?_correctWhere, getElem?_correctWhere]
  refine Option.map_congr fun n hn => ?_
  by_cases h : n.isHtml "form" = true
  · rw [same id (by simp [isHtml, node?, hn, h])]
  · rw [Bool.not_eq_true] at h
    simp [Node.correctForm_of_not_isHtml h]

theorem node?_correctWhere (chosen : NodeId → Bool) (id : NodeId) :
    (dom.correctWhere r chosen).node? (.node id) =
      (dom.node? (.node id)).map fun n => if chosen id then n.correctForm r else n :=
  getElem?_correctWhere dom r chosen id

theorem isHtml_correctWhere (chosen : NodeId → Bool) (name : String) (h : Handle) :
    (dom.correctWhere r chosen).isHtml name h = dom.isHtml name h := by
  have same : ∀ id n, (if chosen id then Node.correctForm r n else n).isHtml name =
      n.isHtml name := by
    intro id n
    split
    · exact Node.isHtml_correctForm _ _ _
    · rfl
  cases h with
  | node id =>
      rw [isHtml, node?_correctWhere, isHtml]
      cases dom.node? (.node id) <;> simp [same]
  | contents id =>
      simp only [isHtml, node?, getElem?_correctWhere]
      cases dom.nodes[id]? with
      | none => rfl
      | some n =>
          have template : (if chosen id then Node.correctForm r n else n).isTemplate =
              n.isTemplate := by
            rw [Node.isTemplate]
            split
            · exact Node.isHtml_correctForm _ _ _
            · rfl
          simp [template]

theorem attrs?_correctWhere (chosen : NodeId → Bool) (id : NodeId) :
    (dom.correctWhere r chosen).attrs? (.node id) =
      (dom.attrs? (.node id)).map fun attrs =>
        if chosen id && dom.isHtml "form" (.node id) then Form.correct r attrs else attrs := by
  rw [attrs?, node?_correctWhere, attrs?, isHtml]
  cases dom.node? (.node id) with
  | none => rfl
  | some n =>
      cases chosen id with
      | false => simp
      | true =>
          by_cases form : n.isHtml "form" = true
          · simp [form, Node.correctForm_of_isHtml form, Node.attrs?_mapAttrs]
          · rw [Bool.not_eq_true] at form
            simp [form, Node.correctForm_of_not_isHtml form]

/-- The contents of a template are no element. -/
theorem eq_node_of_isHtml {dom : Dom} {name : String} {h : Handle}
    (found : dom.isHtml name h = true) : ∃ id, h = .node id := by
  cases h with
  | node id => exact ⟨id, rfl⟩
  | contents id =>
      simp only [isHtml, node?] at found
      split at found
      · split at found <;> simp [Node.isHtml] at found
      · simp at found

/-- A form is an element, so it has a list of attributes. -/
theorem attrs?_of_isHtml {dom : Dom} {name : String} {h : Handle}
    (found : dom.isHtml name h = true) : ∃ attrs, dom.attrs? h = some attrs := by
  rw [isHtml] at found
  rw [attrs?]
  cases e : dom.node? h with
  | none => simp [e] at found
  | some n => cases n <;> simp_all [Node.isHtml, Node.attrs?]

/-- One candidate is corrected if it is a form. -/
theorem normalizeOne_eq (h : Handle) :
    (Form.normalizeOne r dom h).1 = dom.correctWhere r fun id => h = .node id := by
  rw [Form.normalizeOne]
  cases h with
  | node id =>
      by_cases form : dom.isHtml "form" (.node id) = true
      · rw [if_pos form]
        refine ext_nodes rfl fun other => ?_
        rw [getElem?_correctWhere]
        simp only [mapAttrs, Array.getElem?_modify]
        by_cases same : id = other
        · subst same
          simp only [if_true, decide_true]
          refine Option.map_congr fun n hn => ?_
          have : n.isHtml "form" = true := by simpa [isHtml, node?, hn] using form
          rw [Node.correctForm_of_isHtml this]
        · simp [same]
      · rw [if_neg form]
        have none : dom = dom.correctWhere r fun _ => false := ext_nodes rfl fun id => by
          simp [getElem?_correctWhere]
        refine none.trans (correctWhere_congr dom r fun other hform => ?_)
        have : id ≠ other := by
          rintro rfl
          exact form hform
        simp [this]
  | contents id =>
      have : dom.isHtml "form" (.contents id) = false := by
        simp only [isHtml, node?]
        split
        · split <;> rfl
        · rfl
      rw [if_neg (by simp [this])]
      refine ext_nodes rfl fun other => ?_
      simp [getElem?_correctWhere]

theorem normalizeEach_eq (hs : List Handle) :
    (Form.normalizeEach r dom hs).1 = dom.correctWhere r fun id => .node id ∈ hs := by
  induction hs generalizing dom with
  | nil =>
      refine ext_nodes rfl fun id => ?_
      simp [getElem?_correctWhere, Form.normalizeEach]
  | cons h hs ih =>
      have unfolded : (Form.normalizeEach r dom (h :: hs)).1 =
          (Form.normalizeEach r (Form.normalizeOne r dom h).1 hs).1 := rfl
      rw [unfolded, ih, normalizeOne_eq, correctWhere_correctWhere]
      congr 1
      funext id
      simp [eq_comm]

/-- The order of the candidates and their repetitions do not count. -/
theorem normalize_eq (hs : List Handle) :
    (Form.normalize r dom hs).1 = dom.correctWhere r fun id => .node id ∈ hs := by
  have unfolded : (Form.normalize r dom hs).1 = (Form.normalizeEach r dom hs.reverse).1 := rfl
  rw [unfolded, normalizeEach_eq]
  simp

theorem sanitize_eq_normalize (h : Handle) :
    (Form.sanitize r dom h).1 = (Form.normalize r dom ((dom.find h "form").map .node)).1 := by
  rw [Form.sanitize]
  cases dom.find h "form" <;> rfl

theorem sanitize_eq_correctBelow (h : Handle) :
    (Form.sanitize r dom h).1 = dom.correctBelow r h := by
  rw [sanitize_eq_normalize, normalize_eq]
  refine correctWhere_congr dom r fun id form => ?_
  simp [find_eq, form, mem_descendants_iff]

theorem label_correctWhere (chosen : NodeId → Bool) (id : NodeId) :
    (dom.correctWhere r chosen).label id =
      if chosen id then (dom.label id).correctForm r else dom.label id := by
  rw [label, label, getElem?_correctWhere]
  cases dom.nodes[id]? with
  | none => simp [Node.correctForm, Node.isHtml]
  | some n => rfl

/-- The trees below the handle, seen as markup, are mapped by one recursion over their children. -/
theorem markup_correctBelow (h : Handle) :
    (dom.correctBelow r h).markup h = (dom.markup h).mapVisible (Node.correctForm r) := by
  refine Forest.map_eq_mapVisible (nodup_children dom h) _ (fun id seen => ?_) fun id _ out => ?_
  · have reached := (mem_descendants_iff dom h id).mp seen
    rw [correctBelow, label_correctWhere]
    simp [reached]
  · have apart := mt (mem_descendants_iff dom h id).mpr out
    rw [correctBelow, label_correctWhere]
    simp [apart]

theorem attrs?_sanitize (id : NodeId) :
    (dom.sanitize r).1.attrs? (.node id) = (dom.attrs? (.node id)).map fun attrs =>
      if dom.Below root id ∧ dom.isHtml "form" (.node id) then Form.correct r attrs else attrs := by
  rw [sanitize, sanitize_eq_correctBelow, correctBelow, attrs?_correctWhere]
  simp

theorem markup_sanitize :
    (dom.sanitize r).1.markup root = (dom.markup root).mapVisible (Node.correctForm r) := by
  rw [sanitize, sanitize_eq_correctBelow, markup_correctBelow]

/-- The document after a run is the one before with the forms below the handle corrected, which is
one recursive map over the trees there. Neither the handle's own node nor anything inside the
contents of a template there is below the handle. -/
theorem sanitize_is_map_below (h : Handle) :
    (Form.sanitize r dom h).1 = dom.correctBelow r h ∧
      (Form.sanitize r dom h).1.markup h = (dom.markup h).mapVisible (Node.correctForm r) ∧
      (∀ id, ¬ dom.Below (.node id) id) ∧
      ∀ id inner, (h = .node id ∨ dom.Below h id) →
        inner ∈ (dom.children (.contents id)).labels → ¬ dom.Below h inner := by
  have run := sanitize_eq_correctBelow dom r h
  refine ⟨run, ?_, not_below_self dom, fun id inner => not_below_of_mem_contents⟩
  rw [run, markup_correctBelow]

end Dom
end SafeForms
