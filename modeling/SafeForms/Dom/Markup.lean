import SafeForms.Dom

/-!
Trees of nodes without numbers, as markup is read and written, and their relation to documents: a
tree becomes a document by numbering its nodes in order, and every part of a document can be seen as
a tree again. Main statement: nothing is lost on the way there and back (`markup_ofMarkup`).
-/

namespace SafeForms

abbrev Markup := Forest Node

namespace Forest

universe u
variable {α : Type u}

/-- Replaces the labels by numbers in document order, from `n` on, and returns the next number. -/
def number (n : Nat) : Forest α → Forest Nat × Nat
  | nil => (nil, n)
  | node _ contents children siblings =>
    let (contents, m) := contents.number (n + 1)
    let (children, m) := children.number m
    let (siblings, m) := siblings.number m
    (node n contents children siblings, m)

theorem number_next (n : Nat) (f : Forest α) : (f.number n).2 = n + f.labels.length := by
  induction f generalizing n with
  | nil => rfl
  | node a contents children siblings ihc ihk ihs =>
    simp [number, labels, ihc, ihk, ihs]; omega

theorem labels_number (n : Nat) (f : Forest α) :
    (f.number n).1.labels = List.range' n f.labels.length := by
  induction f generalizing n with
  | nil => rfl
  | node a contents children siblings ihc ihk ihs =>
    simp only [number, labels, ihc, ihk, ihs, number_next, List.length_cons, List.length_append,
      List.range'_succ, List.cons.injEq, true_and]
    rw [← List.range'_append_1, ← List.range'_append_1]

/-- Looking the numbers up in the list of the labels gives the forest back. -/
theorem map_number {g : Nat → α} (n : Nat) (f : Forest α)
    (h : ∀ i (hi : i < f.labels.length), g (n + i) = f.labels[i]) :
    (f.number n).1.map g = f := by
  induction f generalizing n with
  | nil => rfl
  | node a contents children siblings ihc ihk ihs =>
    simp only [number, map, number_next]
    have head : g n = a := by simpa [labels] using h 0 (by simp [labels])
    rw [head, ihc, ihk, ihs]
    · intro i hi
      have := h (1 + contents.labels.length + children.labels.length + i)
        (by simp [labels]; omega)
      rw [show n + 1 + contents.labels.length + children.labels.length + i =
        n + (1 + contents.labels.length + children.labels.length + i) by omega, this]
      simp only [labels]
      rw [List.getElem_cons]
      simp only [show ¬ (1 + contents.labels.length + children.labels.length + i = 0) by omega,
        ↓reduceDIte]
      rw [List.getElem_append_right (by omega), List.getElem_append_right (by omega)]
      congr 1
      omega
    · intro i hi
      have := h (1 + contents.labels.length + i) (by simp [labels]; omega)
      rw [show n + 1 + contents.labels.length + i = n + (1 + contents.labels.length + i) by omega,
        this]
      simp only [labels]
      rw [List.getElem_cons]
      simp only [show ¬ (1 + contents.labels.length + i = 0) by omega, ↓reduceDIte]
      rw [List.getElem_append_right (by omega), List.getElem_append_left (by omega)]
      congr 1
      omega
    · intro i hi
      have := h (1 + i) (by simp [labels]; omega)
      rw [show n + 1 + i = n + (1 + i) by omega, this]
      simp only [labels]
      rw [List.getElem_cons]
      simp only [show ¬ (1 + i = 0) by omega, ↓reduceDIte]
      rw [List.getElem_append_left (by omega)]
      congr 1
      omega

end Forest

namespace Dom

def ofMarkup (m : Markup) : Dom where
  nodes := (Node.document :: m.labels).toArray
  shape := .node 0 .nil (m.number 1).1 .nil
  each_once := by
    refine List.Perm.of_eq ?_
    simp [Forest.labels, Forest.labels_number, List.range_eq_range', List.range'_succ]

def label (dom : Dom) (id : NodeId) : Node := dom.nodes[id]?.getD .document

def markup (dom : Dom) (h : Handle) : Markup := (dom.children h).map dom.label

theorem markup_ofMarkup (m : Markup) : (ofMarkup m).markup root = m := by
  simp only [markup, children, root, ofMarkup, Forest.below?, ↓reduceIte, Option.map_some,
    Option.getD_some]
  refine Forest.map_number 1 m ?_
  intro i hi
  simp [label, Nat.add_comm 1 i, hi]

end Dom
end SafeForms
