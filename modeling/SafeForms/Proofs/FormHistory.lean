import SafeForms.Dom.Edit
import SafeForms.Dom.Markup
import SafeForms.Proofs.SanitizeMap

/-!
What becomes of a corrected form. A document goes on changing: further corrections for other
requests, writes to attributes, nodes taken out and put elsewhere. As long as nobody writes one of
the four attributes of the form, it stays settled, and none of the four ever changes again.
-/

namespace SafeForms

/-- A change that a document may undergo. -/
inductive Change where
  | normalize (r : Request) (candidates : List Handle)
  | sanitize (r : Request) (root : Handle)
  | set (h : Handle) (name value : String)
  | remove (h : Handle) (name : String)
  | detach (id : NodeId)
  /-- Nothing happens where there is no place for the node. -/
  | append (parent : Handle) (id : NodeId)
  deriving Repr, DecidableEq

namespace Change

def apply (dom : Dom) : Change → Dom
  | normalize r candidates => (Form.normalize r dom candidates).1
  | sanitize r root => (Form.sanitize r dom root).1
  | set h name value => dom.set h name value
  | remove h name => (dom.remove h name).2
  | detach id => dom.detach id
  | append parent id => (dom.append parent id).getD dom

/-- The change writes none of the four attributes of this node itself. -/
def Spares (f : Handle) : Change → Prop
  | set h name _ | remove h name => h ≠ f ∨ name ∉ Form.submissionNames
  | normalize _ _ | sanitize _ _ | detach _ | append _ _ => True

end Change

namespace Dom

/-- No correction changes the attributes of this node, whatever the request and the candidates. -/
def Settled (dom : Dom) (f : Handle) : Prop :=
  ∀ r candidates, (Form.normalize r dom candidates).1.attrs? f = dom.attrs? f

theorem nodes_detach (dom : Dom) (id : NodeId) : (dom.detach id).nodes = dom.nodes := by
  rw [detach]
  split <;> rfl

theorem nodes_append (dom : Dom) (parent : Handle) (id : NodeId) :
    ((dom.append parent id).getD dom).nodes = dom.nodes := by
  rw [append]
  split
  · rfl
  · split <;> rfl

theorem attrs?_of_nodes {dom other : Dom} (same : other.nodes = dom.nodes) (id : NodeId) :
    other.attrs? (.node id) = dom.attrs? (.node id) ∧
      ∀ name, other.isHtml name (.node id) = dom.isHtml name (.node id) := by
  simp [attrs?, isHtml, node?, same]

theorem node?_mapAttrs (dom : Dom) (h : Handle) (change : Attributes → Attributes) (id : NodeId) :
    (dom.mapAttrs h change).node? (.node id) =
      if h = .node id then (dom.node? (.node id)).map (·.mapAttrs change)
      else dom.node? (.node id) := by
  cases h with
  | contents _ => simp [mapAttrs, node?]
  | node other => by_cases same : other = id <;> simp [mapAttrs, node?, Array.getElem?_modify, same]

theorem attrs?_mapAttrs (dom : Dom) (h : Handle) (change : Attributes → Attributes) (id : NodeId) :
    (dom.mapAttrs h change).attrs? (.node id) =
      if h = .node id then (dom.attrs? (.node id)).map change else dom.attrs? (.node id) := by
  rw [attrs?, node?_mapAttrs, attrs?]
  split
  · cases dom.node? (.node id) with
    | none => rfl
    | some n => exact Node.attrs?_mapAttrs change n
  · rfl

theorem isHtml_mapAttrs (dom : Dom) (h : Handle) (change : Attributes → Attributes)
    (name : String) (id : NodeId) :
    (dom.mapAttrs h change).isHtml name (.node id) = dom.isHtml name (.node id) := by
  rw [isHtml, node?_mapAttrs, isHtml]
  split
  · cases dom.node? (.node id) <;> simp
  · rfl

/-- A form that conforms and declares the given values of the four attributes. -/
structure Keeps (values : String → Option String) (dom : Dom) (id : NodeId) : Prop where
  form : dom.isHtml "form" (.node id) = true
  conforms : ∃ attrs, dom.attrs? (.node id) = some attrs ∧ Form.Conforms attrs ∧
    ∀ name ∈ Form.submissionNames, attrs.get? name = values name

variable {values : String → Option String} {dom : Dom} {id : NodeId}

theorem Keeps.get? (kept : Keeps values dom id) {name : String}
    (known : name ∈ Form.submissionNames) : dom.get? (.node id) name = values name := by
  obtain ⟨attrs, found, _, same⟩ := kept.conforms
  rw [Dom.get?, found, Option.bind_some, same name known]

theorem Keeps.correctWhere (kept : Keeps values dom id) (r : Request) (chosen : NodeId → Bool) :
    (dom.correctWhere r chosen).attrs? (.node id) = dom.attrs? (.node id) := by
  obtain ⟨attrs, found, conforms, _⟩ := kept.conforms
  rw [attrs?_correctWhere, found, Option.map_some, Form.correct_of_conforms r conforms, ite_self]

theorem Keeps.settled (kept : Keeps values dom id) : dom.Settled (.node id) := by
  intro r candidates
  rw [normalize_eq, kept.correctWhere]

theorem Keeps.of_attrs? (kept : Keeps values dom id) {other : Dom}
    (attrs : other.attrs? (.node id) = dom.attrs? (.node id))
    (isHtml : other.isHtml "form" (.node id) = dom.isHtml "form" (.node id)) :
    Keeps values other id := by
  exact ⟨isHtml ▸ kept.form, attrs ▸ kept.conforms⟩

/-- A change of the attributes that leaves the four of them alone, or is made to another node. -/
theorem Keeps.mapAttrs (kept : Keeps values dom id) {h : Handle}
    {change : Attributes → Attributes}
    (spared : h ≠ .node id ∨ ∀ attrs : Attributes, ∀ name ∈ Form.submissionNames,
      (change attrs).get? name = attrs.get? name) :
    Keeps values (dom.mapAttrs h change) id := by
  obtain ⟨attrs, found, conforms, same⟩ := kept.conforms
  -- what makes a form settled can be read off the four attributes
  refine ⟨(isHtml_mapAttrs dom h change "form" id).trans kept.form, ?_⟩
  rw [attrs?_mapAttrs, found]
  by_cases here : h = .node id
  · have alike := (spared.resolve_left (not_not.mpr here)) attrs
    refine ⟨change attrs, by simp [here], conforms.congr alike, ?_⟩
    intro name known
    rw [alike name known, same name known]
  · exact ⟨attrs, by simp [here], conforms, same⟩

/-- One change. -/
theorem Keeps.apply (kept : Keeps values dom id) {change : Change}
    (spares : change.Spares (.node id)) : Keeps values (change.apply dom) id := by
  cases change with
  | normalize r candidates =>
      refine kept.of_attrs? (kept.settled r candidates) ?_
      rw [Change.apply, normalize_eq, isHtml_correctWhere]
  | sanitize r root =>
      have run : Change.apply dom (.sanitize r root) = dom.correctBelow r root :=
        sanitize_eq_correctBelow dom r root
      rw [run]
      exact kept.of_attrs? (kept.correctWhere r _) (isHtml_correctWhere _ _ _ _ _)
  | set h name value =>
      refine kept.mapAttrs (spares.imp_right fun other attrs known mem => ?_)
      have apart : known ≠ name := fun e => other (e ▸ mem)
      rw [Attributes.get?_set, if_neg apart]
  | remove h name =>
      refine kept.mapAttrs (spares.imp_right fun other attrs known mem => ?_)
      have apart : known ≠ name := fun e => other (e ▸ mem)
      rw [Attributes.remove, Attributes.get?_erase, if_neg apart]
  | detach moved =>
      obtain ⟨attrs, isHtml⟩ := attrs?_of_nodes (nodes_detach dom moved) id
      exact kept.of_attrs? attrs (isHtml "form")
  | append parent moved =>
      obtain ⟨attrs, isHtml⟩ := attrs?_of_nodes (nodes_append dom parent moved) id
      exact kept.of_attrs? attrs (isHtml "form")

/-- All states of a run of changes. -/
theorem Keeps.scanl (changes : List Change) (spares : ∀ c ∈ changes, c.Spares (.node id))
    (kept : Keeps values dom id) :
    ∀ state ∈ changes.scanl Change.apply dom, Keeps values state id := by
  induction changes generalizing dom with
  | nil =>
      intro state mem
      rw [List.scanl_nil, List.mem_singleton] at mem
      exact mem ▸ kept
  | cons change changes ih =>
      intro state mem
      rw [List.scanl_cons, List.mem_cons] at mem
      rcases mem with rfl | mem
      · exact kept
      · have next := kept.apply (spares change List.mem_cons_self)
        exact ih (fun c hc => spares c (List.mem_cons_of_mem _ hc)) next state mem

theorem keeps_normalize {r : Request} {candidates : List Handle}
    (form : dom.isHtml "form" (.node id) = true) (mem : .node id ∈ candidates) :
    Keeps ((Form.normalize r dom candidates).1.get? (.node id))
      (Form.normalize r dom candidates).1 id := by
  obtain ⟨attrs, found⟩ := attrs?_of_isHtml form
  have corrected : (Form.normalize r dom candidates).1.attrs? (.node id) =
      some (Form.correct r attrs) := by
    rw [normalize_eq, attrs?_correctWhere, found]
    simp [mem, form]
  refine ⟨?_, _, corrected, Form.conforms_correct r attrs, ?_⟩
  · rw [normalize_eq, isHtml_correctWhere, form]
  · intro name _
    rw [Dom.get?, corrected, Option.bind_some]

/-- A form among the candidates of a correction is settled from then on, through every run of
changes that spare its four attributes, and so are their values. -/
theorem settled_through_changes (dom : Dom) (r : Request) (candidates : List Handle) (f : Handle)
    (form : dom.isHtml "form" f = true) (mem : f ∈ candidates) (changes : List Change)
    (spares : ∀ c ∈ changes, c.Spares f) :
    let corrected := (Form.normalize r dom candidates).1
    ∀ state ∈ changes.scanl Change.apply corrected,
      state.isHtml "form" f = true ∧ state.Settled f ∧
        ∀ name ∈ Form.submissionNames, state.get? f name = corrected.get? f name := by
  intro corrected state reached
  obtain ⟨id, rfl⟩ := eq_node_of_isHtml form
  have kept := (keeps_normalize form mem).scanl changes spares state reached
  exact ⟨kept.form, kept.settled, fun name known => kept.get? known⟩

/-- A form in a block is corrected, classed, taken out of the block, corrected again for another
page and put back, while the block gets a method of its own. -/
theorem settled_through_move :
    let dom := ofMarkup (.node (.element ⟨.html, "div", []⟩) .nil
      (.leaf (.element ⟨.html, "form", [⟨.null, "method", "POST"⟩, ⟨.null, "target", "x"⟩]⟩)) .nil)
    let changes : List Change := [.set (.node 2) "class" "a", .detach 2,
      .normalize ⟨"other", "/"⟩ [.node 2, .node 1], .set (.node 1) "method" "get",
      .append (.node 1) 2, .sanitize ⟨"third", "/"⟩ root, .remove (.node 2) "class"]
    dom.isHtml "form" (.node 2) = true ∧ (∀ c ∈ changes, c.Spares (.node 2)) ∧
      ∀ state ∈ changes.scanl Change.apply (Form.normalize ⟨"h", "/"⟩ dom [.node 2]).1,
        state.isHtml "form" (.node 2) = true ∧ state.Settled (.node 2) := by
  intro dom changes
  have form : dom.isHtml "form" (.node 2) = true := by decide
  have spares : ∀ c ∈ changes, c.Spares (.node 2) := by
    simp [changes, Change.Spares, Form.submissionNames]
  refine ⟨form, spares, fun state reached => ?_⟩
  have kept := settled_through_changes dom ⟨"h", "/"⟩ [.node 2] (.node 2) form
    List.mem_cons_self changes spares state reached
  exact ⟨kept.1, kept.2.1⟩

end Dom
end SafeForms
