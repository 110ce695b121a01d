import Mathlib
import SafeForms.Dom.Search

/-!
What lies below a handle. Since every node has one place only, a node found inside a part of the
document has there the same contents and children as in the whole, and the search through the parts
is the closure of the step from a node to its children. Such a search meets neither the node where it
begins nor anything inside the contents of a template.
-/

namespace SafeForms
namespace Forest

universe u
variable {α : Type u}

theorem visible_subset_labels (f : Forest α) : f.visible ⊆ f.labels :=
  (visible_sublist_labels f).subset

/-- The parts of a forest share no label. -/
theorem nodup_node {b : α} {contents children siblings : Forest α}
    (once : (node b contents children siblings).labels.Nodup) :
    (b ∉ contents.labels ∧ b ∉ children.labels ∧ b ∉ siblings.labels) ∧
      (contents.labels.Nodup ∧ children.labels.Nodup ∧ siblings.labels.Nodup) ∧
      contents.labels.Disjoint children.labels ∧ contents.labels.Disjoint siblings.labels ∧
      children.labels.Disjoint siblings.labels := by
  simp only [labels, List.nodup_cons, List.mem_append, not_or, List.nodup_append',
    List.disjoint_append_right] at once
  tauto

theorem map_congr {β : Type u} {f : Forest α} {g k : α → β} (same : ∀ a ∈ f.labels, g a = k a) :
    f.map g = f.map k := by
  induction f with
  | nil => rfl
  | node a contents children siblings ihc ihk ihs =>
      simp only [labels, List.mem_cons, List.mem_append] at same
      rw [map, map, same a (.inl rfl), ihc fun x hx => same x (.inr (.inl hx)),
        ihk fun x hx => same x (.inr (.inr (.inl hx))),
        ihs fun x hx => same x (.inr (.inr (.inr hx)))]

variable [DecidableEq α]

theorem below?_of_notMem {a : α} {f : Forest α} (h : a ∉ f.labels) : f.below? a = none := by
  induction f with
  | nil => rfl
  | node b contents children siblings ihc ihk ihs =>
      simp only [labels, List.mem_cons, List.mem_append, not_or] at h
      obtain ⟨other, hc, hk, hs⟩ := h
      simp [below?, Ne.symm other, ihc hc, ihk hk, ihs hs]

theorem isSome_below?_of_mem {a : α} {f : Forest α} (h : a ∈ f.labels) :
    (f.below? a).isSome := by
  induction f with
  | nil => simp [labels] at h
  | node b contents children siblings ihc ihk ihs =>
      simp only [labels, List.mem_cons, List.mem_append] at h
      by_cases same : b = a
      · simp [below?, same]
      · rcases h with h | h | h | h
        · exact absurd h.symm same
        · obtain ⟨found, e⟩ := Option.isSome_iff_exists.mp (ihc h)
          simp [below?, same, e]
        · obtain ⟨found, e⟩ := Option.isSome_iff_exists.mp (ihk h)
          cases hc : contents.below? a <;> simp [below?, same, e, hc]
        · obtain ⟨found, e⟩ := Option.isSome_iff_exists.mp (ihs h)
          cases hc : contents.below? a <;> cases hk : children.below? a <;>
            simp [below?, same, e, hc, hk]

section Node

variable {b : α} {contents children siblings : Forest α}

theorem below?_node_self :
    (node b contents children siblings).below? b = some (contents, children) := by
  simp [below?]

theorem below?_node_contents (once : (node b contents children siblings).labels.Nodup) {a : α}
    (h : a ∈ contents.labels) :
    (node b contents children siblings).below? a = contents.below? a := by
  have other : b ≠ a := fun e => (nodup_node once).1.1 (e ▸ h)
  obtain ⟨found, e⟩ := Option.isSome_iff_exists.mp (isSome_below?_of_mem h)
  simp [below?, other, e]

theorem below?_node_children (once : (node b contents children siblings).labels.Nodup) {a : α}
    (h : a ∈ children.labels) :
    (node b contents children siblings).below? a = children.below? a := by
  obtain ⟨⟨_, fresh, _⟩, _, apart, _⟩ := nodup_node once
  have other : b ≠ a := fun e => fresh (e ▸ h)
  have absent := below?_of_notMem fun hc => apart hc h
  obtain ⟨found, e⟩ := Option.isSome_iff_exists.mp (isSome_below?_of_mem h)
  simp [below?, other, absent, e]

theorem below?_node_siblings (once : (node b contents children siblings).labels.Nodup) {a : α}
    (h : a ∈ siblings.labels) :
    (node b contents children siblings).below? a = siblings.below? a := by
  obtain ⟨⟨_, _, fresh⟩, _, _, apart, aside⟩ := nodup_node once
  have other : b ≠ a := fun e => fresh (e ▸ h)
  have absent := below?_of_notMem fun hc => apart hc h
  have missing := below?_of_notMem fun hk => aside hk h
  simp [below?, other, absent, missing]

end Node

/-- What is found below a label is a part of the forest in which every search ends as in the whole. -/
structure Part (part whole : Forest α) : Prop where
  labels : part.labels.Sublist whole.labels
  search : ∀ a ∈ part.labels, whole.below? a = part.below? a

theorem Part.trans {f g h : Forest α} (fg : Part f g) (gh : Part g h) : Part f h where
  labels := fg.labels.trans gh.labels
  search a ha := (gh.search a (fg.labels.subset ha)).trans (fg.search a ha)

theorem part_contents {b : α} {contents children siblings : Forest α}
    (once : (node b contents children siblings).labels.Nodup) :
    Part contents (node b contents children siblings) where
  labels := (List.sublist_append_left _ _).cons b
  search _ := below?_node_contents once

theorem part_children {b : α} {contents children siblings : Forest α}
    (once : (node b contents children siblings).labels.Nodup) :
    Part children (node b contents children siblings) where
  labels := ((List.sublist_append_left _ _).trans (List.sublist_append_right _ _)).cons b
  search _ := below?_node_children once

theorem part_siblings {b : α} {contents children siblings : Forest α}
    (once : (node b contents children siblings).labels.Nodup) :
    Part siblings (node b contents children siblings) where
  labels := ((List.sublist_append_right _ _).trans (List.sublist_append_right _ _)).cons b
  search _ := below?_node_siblings once

/-- The contents and the children of a node are parts of their own, and the node is in neither. -/
theorem parts_of_below? {a : α} {f contents children : Forest α} (once : f.labels.Nodup)
    (h : f.below? a = some (contents, children)) :
    Part contents f ∧ Part children f ∧ a ∉ children.labels ∧
      contents.labels.Disjoint children.labels := by
  induction f with
  | nil => simp [below?] at h
  | node b c k s ihc ihk ihs =>
      obtain ⟨⟨_, fresh, _⟩, ⟨onceC, onceK, onceS⟩, apart, _⟩ := nodup_node once
      by_cases same : b = a
      · subst same
        rw [below?_node_self] at h
        cases h
        exact ⟨part_contents once, part_children once, fresh, apart⟩
      · have mem : a ∈ (node b c k s).labels := by
          by_contra absent
          rw [below?_of_notMem absent] at h
          contradiction
        simp only [labels, List.mem_cons, List.mem_append] at mem
        rcases mem with e | hc | hk | hs
        · exact absurd e.symm same
        · rw [below?_node_contents once hc] at h
          obtain ⟨pc, pk, rest⟩ := ihc onceC h
          exact ⟨pc.trans (part_contents once), pk.trans (part_contents once), rest⟩
        · rw [below?_node_children once hk] at h
          obtain ⟨pc, pk, rest⟩ := ihk onceK h
          exact ⟨pc.trans (part_children once), pk.trans (part_children once), rest⟩
        · rw [below?_node_siblings once hs] at h
          obtain ⟨pc, pk, rest⟩ := ihs onceS h
          exact ⟨pc.trans (part_siblings once), pk.trans (part_siblings once), rest⟩

/-- Below a visible node the children are visible and the contents are not. -/
theorem visible_below? {a : α} {f contents children : Forest α} (once : f.labels.Nodup)
    (seen : a ∈ f.visible) (h : f.below? a = some (contents, children)) :
    children.visible ⊆ f.visible ∧ contents.labels.Disjoint f.visible := by
  induction f with
  | nil => simp [below?] at h
  | node b c k s _ ihk ihs =>
      obtain ⟨⟨freshC, freshK, freshS⟩, ⟨_, onceK, onceS⟩, ck, cs, ks⟩ := nodup_node once
      simp only [visible, List.mem_cons, List.mem_append] at seen
      rcases seen with rfl | hk | hs
      · rw [below?_node_self] at h
        cases h
        refine ⟨fun x hx => by simp [visible, hx], fun x hx seen => ?_⟩
        simp only [visible, List.mem_cons, List.mem_append] at seen
        rcases seen with rfl | hk | hs
        · exact freshC hx
        · exact ck hx (visible_subset_labels _ hk)
        · exact cs hx (visible_subset_labels _ hs)
      · rw [below?_node_children once (visible_subset_labels _ hk)] at h
        obtain ⟨shown, hidden⟩ := ihk onceK hk h
        have inside := (parts_of_below? onceK h).1.labels.subset
        refine ⟨fun x hx => by simp [visible, shown hx], fun x hx seen => ?_⟩
        simp only [visible, List.mem_cons, List.mem_append] at seen
        rcases seen with rfl | hk | hs
        · exact freshK (inside hx)
        · exact hidden hx hk
        · exact ks (inside hx) (visible_subset_labels _ hs)
      · rw [below?_node_siblings once (visible_subset_labels _ hs)] at h
        obtain ⟨shown, hidden⟩ := ihs onceS hs h
        have inside := (parts_of_below? onceS h).1.labels.subset
        refine ⟨fun x hx => by simp [visible, shown hx], fun x hx seen => ?_⟩
        simp only [visible, List.mem_cons, List.mem_append] at seen
        rcases seen with rfl | hk | hs
        · exact freshS (inside hx)
        · exact ks (visible_subset_labels _ hk) (inside hx)
        · exact hidden hx hs

end Forest

namespace Dom

/-- The nodes that a handle holds directly. -/
def childIds (dom : Dom) (h : Handle) : List NodeId := (dom.children h).roots.map (·.1)

/-- The nodes that are reached from a handle by one or more steps to a child. -/
inductive Below (dom : Dom) (h : Handle) : NodeId → Prop
  | child {id : NodeId} : id ∈ dom.childIds h → Below dom h id
  | deeper {id mid : NodeId} : Below dom h mid → id ∈ dom.childIds (.node mid) → Below dom h id

theorem part_children (dom : Dom) (h : Handle) : Forest.Part (dom.children h) dom.shape := by
  have none : Forest.Part Forest.nil dom.shape := ⟨List.nil_sublist _, by simp [Forest.labels]⟩
  cases h with
  | node id =>
      cases e : dom.shape.below? id with
      | none => simpa [children, e] using none
      | some found => simpa [children, e] using (Forest.parts_of_below? dom.nodup_labels e).2.1
  | contents id =>
      cases e : dom.shape.below? id with
      | none => simpa [children, e] using none
      | some found => simpa [children, e] using (Forest.parts_of_below? dom.nodup_labels e).1

theorem nodup_children (dom : Dom) (h : Handle) : (dom.children h).labels.Nodup :=
  dom.nodup_labels.sublist (part_children dom h).labels

/-- What is found below a node in a part of the document is what it holds. -/
theorem children_of_below? {dom : Dom} {part contents below : Forest NodeId} {id : NodeId}
    (inside : Forest.Part part dom.shape) (mem : id ∈ part.labels)
    (h : part.below? id = some (contents, below)) :
    dom.children (.node id) = below ∧ dom.children (.contents id) = contents := by
  have found := (inside.search id mem).trans h
  simp [children, found]

theorem roots_subset_visible (f : Forest NodeId) : f.roots.map (·.1) ⊆ f.visible := by
  induction f with
  | nil => simp [Forest.roots]
  | node b contents children siblings _ _ ihs =>
      intro x hx
      simp only [Forest.roots, List.map_cons, List.mem_cons] at hx
      rcases hx with rfl | hx
      · simp [Forest.visible]
      · simp [Forest.visible, ihs hx]

theorem below?_of_mem {part : Forest NodeId} {id : NodeId} (mem : id ∈ part.labels) :
    ∃ contents below, part.below? id = some (contents, below) := by
  obtain ⟨⟨contents, below⟩, h⟩ := Option.isSome_iff_exists.mp (Forest.isSome_below?_of_mem mem)
  exact ⟨contents, below, h⟩

theorem mem_descendants_of_below {dom : Dom} {h : Handle} {id : NodeId} (reached : dom.Below h id) :
    id ∈ dom.descendants h := by
  induction reached with
  | child mem => exact roots_subset_visible _ mem
  | @deeper id mid _ mem seen =>
      have inside := Forest.visible_subset_labels _ seen
      obtain ⟨contents, below, found⟩ := below?_of_mem inside
      have held := (children_of_below? (part_children dom h) inside found).1
      rw [childIds, held] at mem
      exact (Forest.visible_below? (nodup_children dom h) seen found).1
        (roots_subset_visible _ mem)

/-- In a part of the document whose first nodes are reached, all visible nodes are. -/
theorem below_of_mem_visible {dom : Dom} {h : Handle} {part : Forest NodeId}
    (inside : Forest.Part part dom.shape) (first : ∀ id ∈ part.roots.map (·.1), dom.Below h id)
    {id : NodeId} (seen : id ∈ part.visible) : dom.Below h id := by
  induction part with
  | nil => simp [Forest.visible] at seen
  | node b contents children siblings _ ihk ihs =>
      have once := dom.nodup_labels.sublist inside.labels
      have here : dom.Below h b := first b (by simp [Forest.roots])
      have held := (children_of_below? inside (by simp [Forest.labels]) Forest.below?_node_self).1
      simp only [Forest.visible, List.mem_cons, List.mem_append] at seen
      rcases seen with rfl | seen | seen
      · exact here
      · refine ihk ((Forest.part_children once).trans inside) (fun x hx => ?_) seen
        exact .deeper here (by rwa [childIds, held])
      · refine ihs ((Forest.part_siblings once).trans inside) (fun x hx => ?_) seen
        exact first x (by simp only [Forest.roots, List.map_cons]; exact List.mem_cons_of_mem _ hx)

/-- The proper descendants are the nodes reached through children. -/
theorem mem_descendants_iff (dom : Dom) (h : Handle) (id : NodeId) :
    id ∈ dom.descendants h ↔ dom.Below h id := by
  constructor
  · intro seen
    exact below_of_mem_visible (part_children dom h) (fun x hx => .child hx) seen
  · exact mem_descendants_of_below

instance (dom : Dom) (h : Handle) (id : NodeId) : Decidable (dom.Below h id) :=
  decidable_of_iff _ (mem_descendants_iff dom h id)

theorem nodup_descendants (dom : Dom) (h : Handle) : (dom.descendants h).Nodup :=
  (nodup_children dom h).sublist (Forest.visible_sublist_labels _)

theorem not_below_self (dom : Dom) (id : NodeId) : ¬ dom.Below (.node id) id := by
  rw [← mem_descendants_iff]
  intro seen
  have mem := Forest.visible_subset_labels _ seen
  cases e : dom.shape.below? id with
  | none => simp [children, e, Forest.labels] at mem
  | some found =>
      have apart := (Forest.parts_of_below? dom.nodup_labels e).2.2.1
      exact apart (by simpa [children, e] using mem)

/-- Nothing in the contents of a node is reached from the node or from above it. -/
theorem not_below_of_mem_contents {dom : Dom} {h : Handle} {id inner : NodeId}
    (reached : h = .node id ∨ dom.Below h id)
    (mem : inner ∈ (dom.children (.contents id)).labels) : ¬ dom.Below h inner := by
  rw [← mem_descendants_iff]
  intro seen
  rcases reached with rfl | reached
  · cases e : dom.shape.below? id with
    | none => simp [children, e, Forest.labels] at mem
    | some found =>
        have apart := (Forest.parts_of_below? dom.nodup_labels e).2.2.2
        refine apart (by simpa [children, e] using mem) (Forest.visible_subset_labels _ ?_)
        simpa [descendants, children, e] using seen
  · have above := mem_descendants_of_below reached
    have inside := Forest.visible_subset_labels _ above
    obtain ⟨contents, below, found⟩ := below?_of_mem inside
    rw [(children_of_below? (part_children dom h) inside found).2] at mem
    exact (Forest.visible_below? (nodup_children dom h) above found).2 mem seen

end Dom
end SafeForms
