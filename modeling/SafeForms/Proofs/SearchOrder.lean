import Mathlib
import SafeForms.Proofs.Descendants

/-!
The order of a search. The search takes nodes from a stack and leaves their children there; seen
through the links of the document alone, it ends after taking every proper descendant once
(`Search.after_start`). What it finds is in document order: a node before what lies below it, and a
child with all below it before the children that follow (`find_in_document_order`).
-/

namespace SafeForms

theorem filter_mem_of_sublist {α : Type} [DecidableEq α] {part whole : List α}
    (once : whole.Nodup) (inside : part.Sublist whole) :
    (whole.filter fun x => x ∈ part) = part := by
  induction inside with
  | slnil => rfl
  | @cons part whole x inside ih =>
      obtain ⟨fresh, once⟩ := List.nodup_cons.mp once
      have absent : x ∉ part := fun mem => fresh (inside.subset mem)
      rw [List.filter_cons_of_neg (by simp [absent]), ih once]
  | @cons_cons part whole x inside ih =>
      obtain ⟨fresh, once⟩ := List.nodup_cons.mp once
      rw [List.filter_cons_of_pos (by simp)]
      refine congrArg _ (Eq.trans (List.filter_congr fun y mem => ?_) (ih once))
      have other : y ≠ x := fun e => fresh (e ▸ mem)
      simp [other]

/-- The order in a list without repetitions is that in every part of it. -/
theorem pair_sublist_of_sublist {α : Type} [DecidableEq α] {a b : α} {part whole : List α}
    (once : whole.Nodup) (inside : part.Sublist whole) (ha : a ∈ part) (hb : b ∈ part)
    (pair : [a, b].Sublist whole) : [a, b].Sublist part := by
  have kept := pair.filter fun x => x ∈ part
  rw [filter_mem_of_sublist once inside] at kept
  simpa [ha, hb] using kept

namespace Forest

/-- What is found below a label follows it in the whole forest. -/
theorem sublist_of_below? {α : Type} [DecidableEq α] {a : α} {f contents children : Forest α}
    (h : f.below? a = some (contents, children)) :
    (a :: (contents.labels ++ children.labels)).Sublist f.labels := by
  induction f with
  | nil => cases h
  | node b c k s ihc ihk ihs =>
      rw [below?] at h
      split at h
      · next same =>
        cases h
        subst same
        rw [labels, ← List.append_assoc]
        exact (List.sublist_append_left _ _).cons_cons b
      · refine List.Sublist.cons b ?_
        cases hc : c.below? a with
        | some found =>
            have h : c.below? a = some (contents, children) := by simpa [hc] using h
            exact (ihc h).trans (List.sublist_append_left _ _)
        | none =>
            refine List.Sublist.trans ?_ (List.sublist_append_right _ _)
            cases hk : k.below? a with
            | some found =>
                have h : k.below? a = some (contents, children) := by simpa [hc, hk] using h
                exact (ihk h).trans (List.sublist_append_left _ _)
            | none =>
                have h : s.below? a = some (contents, children) := by simpa [hc, hk] using h
                exact (ihs h).trans (List.sublist_append_right _ _)

end Forest

namespace Dom

/-- A search under way. -/
structure Search where
  /-- The nodes still to be taken, the next one first. -/
  stack : List NodeId
  taken : List NodeId
  found : List NodeId
  deriving Repr, DecidableEq

namespace Search

def start (dom : Dom) (h : Handle) : Search := ⟨dom.childIds h, [], []⟩

/-- Takes the next node from the stack and leaves its children there; without one the search is at
its end. -/
def step (dom : Dom) (name : String) : Search → Option Search
  | ⟨[], _, _⟩ => none
  | ⟨id :: stack, taken, found⟩ =>
    some ⟨dom.childIds (.node id) ++ stack, taken ++ [id],
      if dom.isHtml name (.node id) then found ++ [id] else found⟩

/-- The search after so many steps, if it takes that many. -/
def after (dom : Dom) (name : String) : Nat → Search → Option Search
  | 0, s => some s
  | n + 1, s => (s.step dom name).bind (after dom name n)

end Search

/-- The tree is what its node holds in the document. -/
def Holds (dom : Dom) (tree : NodeId × Forest NodeId) : Prop :=
  dom.children (.node tree.1) = tree.2

theorem holds_roots {dom : Dom} {part : Forest NodeId} (inside : Forest.Part part dom.shape) :
    ∀ tree ∈ part.roots, dom.Holds tree := by
  induction part with
  | nil => simp [Forest.roots]
  | node b contents children siblings _ _ ihs =>
      have once := dom.nodup_labels.sublist inside.labels
      have held := (children_of_below? inside (by simp [Forest.labels]) Forest.below?_node_self).1
      have others := ihs ((Forest.part_siblings once).trans inside)
      exact List.forall_mem_cons.mpr ⟨held, others⟩

namespace Search

/-- A stack of trees of the document is searched to its end, in one step for each node. -/
theorem after_visits (dom : Dom) (name : String) (trees : List (NodeId × Forest NodeId))
    (held : ∀ tree ∈ trees, dom.Holds tree) (taken found : List NodeId) :
    after dom name (Forest.visits trees).length ⟨trees.map (·.1), taken, found⟩ =
      some ⟨[], taken ++ Forest.visits trees,
        found ++ (Forest.visits trees).filter fun id => dom.isHtml name (.node id)⟩ := by
  fun_induction Forest.visits trees generalizing taken found with
  | case1 => simp [after]
  | case2 id children rest ih =>
      rw [List.forall_mem_cons] at held
      obtain ⟨here, held⟩ := held
      have pushed : dom.childIds (.node id) ++ rest.map (·.1) =
          (children.roots ++ rest).map (·.1) := by
        rw [List.map_append, childIds, here]
      have below : ∀ tree ∈ children.roots, dom.Holds tree := by
        have inside := part_children dom (.node id)
        rw [here] at inside
        exact holds_roots inside
      rw [List.length_cons, after, List.map_cons, step, Option.bind_some, pushed,
        ih (List.forall_mem_append.mpr ⟨below, held⟩), List.filter_cons]
      cases dom.isHtml name (.node id) <;> simp

theorem after_start (dom : Dom) (h : Handle) (name : String) :
    after dom name (dom.descendants h).length (start dom h) =
      some ⟨[], dom.descendants h, dom.find h name⟩ := by
  have run := after_visits dom name (dom.children h).roots (holds_roots (part_children dom h)) [] []
  rw [Forest.visits_roots] at run
  rw [find_eq]
  exact run

end Search

/-- A node with everything below it. -/
def Within (dom : Dom) (top id : NodeId) : Prop := id = top ∨ dom.Below (.node top) id

/-- Document order. A node comes before what lies below it, and a child with everything below it
before the children that follow. -/
inductive Precedes (dom : Dom) (a b : NodeId) : Prop
  | below : dom.Below (.node a) b → Precedes dom a b
  | aside {h : Handle} {x y : NodeId} : [x, y].Sublist (dom.childIds h) →
    dom.Within x a → dom.Within y b → Precedes dom a b

theorem within_of_mem_visible {dom : Dom} {part : Forest NodeId}
    (inside : Forest.Part part dom.shape) {id : NodeId} (seen : id ∈ part.visible) :
    ∃ top ∈ part.roots.map (·.1), dom.Within top id := by
  induction part with
  | nil => cases seen
  | node b contents children siblings _ _ ihs =>
      have once := dom.nodup_labels.sublist inside.labels
      have held := (children_of_below? inside (by simp [Forest.labels]) Forest.below?_node_self).1
      rw [Forest.visible, List.mem_cons, List.mem_append] at seen
      rcases seen with rfl | seen | seen
      · exact ⟨id, List.mem_cons_self, .inl rfl⟩
      · refine ⟨b, List.mem_cons_self, .inr ?_⟩
        rwa [← mem_descendants_iff, descendants, held]
      · obtain ⟨top, mem, within⟩ := ihs ((Forest.part_siblings once).trans inside) seen
        exact ⟨top, List.mem_cons_of_mem _ mem, within⟩

theorem mem_visible_of_within {dom : Dom} {part : Forest NodeId}
    (inside : Forest.Part part dom.shape) {top id : NodeId}
    (mem : top ∈ part.roots.map (·.1)) (within : dom.Within top id) : id ∈ part.visible := by
  have seen := roots_subset_visible part mem
  rcases within with rfl | reached
  · exact seen
  · have known := Forest.visible_subset_labels _ seen
    obtain ⟨contents, below, found⟩ := below?_of_mem known
    rw [← mem_descendants_iff, descendants, (children_of_below? inside known found).1] at reached
    exact (Forest.visible_below? (dom.nodup_labels.sublist inside.labels) seen found).1 reached

/-- What stands in or below an earlier one of the first nodes comes first. -/
theorem pair_sublist_visible {dom : Dom} {part : Forest NodeId}
    (inside : Forest.Part part dom.shape) {x y a b : NodeId}
    (order : [x, y].Sublist (part.roots.map (·.1))) (ha : dom.Within x a) (hb : dom.Within y b) :
    [a, b].Sublist part.visible := by
  induction part with
  | nil => simp [Forest.roots] at order
  | node r contents children siblings _ _ ihs =>
      have once := dom.nodup_labels.sublist inside.labels
      have held := (children_of_below? inside (by simp [Forest.labels]) Forest.below?_node_self).1
      have later := (Forest.part_siblings once).trans inside
      rw [Forest.roots, List.map_cons, List.sublist_cons_iff] at order
      rw [Forest.visible, ← List.cons_append]
      rcases order with order | ⟨rest, e, order⟩
      · exact (ihs later order).trans (List.sublist_append_right _ _)
      · obtain ⟨rfl, rfl⟩ := List.cons.inj e
        have first : a ∈ x :: children.visible := by
          rw [List.mem_cons, ← held]
          exact ha.imp_right (mem_descendants_iff dom _ a).mpr
        have second := mem_visible_of_within later (List.singleton_sublist.mp order) hb
        exact (List.singleton_sublist.mpr first).append (List.singleton_sublist.mpr second)

/-- The order in which the nodes are met is document order. -/
theorem precedes_of_pair_sublist {dom : Dom} {part : Forest NodeId} {h : Handle}
    (inside : Forest.Part part dom.shape) (tops : (part.roots.map (·.1)).Sublist (dom.childIds h))
    {a b : NodeId} (pair : [a, b].Sublist part.visible) : dom.Precedes a b := by
  induction part generalizing h with
  | nil => simp [Forest.visible] at pair
  | node r contents children siblings _ ihk ihs =>
      have once := dom.nodup_labels.sublist inside.labels
      have held := (children_of_below? inside (by simp [Forest.labels]) Forest.below?_node_self).1
      have later := (Forest.part_siblings once).trans inside
      have lower : children.visible = dom.descendants (.node r) := by rw [descendants, held]
      rw [Forest.roots, List.map_cons] at tops
      -- what lies in or below the first node comes before what is met behind it
      have apart : ∀ x y, dom.Within r x → y ∈ siblings.visible → dom.Precedes x y := by
        intro x y hx hy
        obtain ⟨top, mem, hy⟩ := within_of_mem_visible later hy
        exact .aside (((List.singleton_sublist.mpr mem).cons_cons r).trans tops) hx hy
      rw [Forest.visible, List.sublist_cons_iff] at pair
      rcases pair with pair | ⟨rest, e, pair⟩
      · obtain ⟨first, second, e, hf, hs⟩ := List.sublist_append_iff.mp pair
        cases first with
        | nil => exact ihs later ((List.sublist_cons_self _ _).trans tops) (e ▸ hs)
        | cons x more =>
            obtain ⟨rfl, tail⟩ := List.cons.inj e
            cases more with
            | nil =>
                obtain rfl : [b] = second := tail
                rw [List.singleton_sublist, lower, mem_descendants_iff] at hf
                exact apart a b (.inr hf) (List.singleton_sublist.mp hs)
            | cons y more =>
                obtain ⟨rfl, none⟩ := List.cons.inj tail
                obtain ⟨rfl, -⟩ := List.append_eq_nil_iff.mp none.symm
                refine ihk ((Forest.part_children once).trans inside) (h := .node r) ?_ hf
                rw [childIds, held]
      · obtain ⟨rfl, rfl⟩ := List.cons.inj e
        rw [List.singleton_sublist, List.mem_append] at pair
        rcases pair with below | behind
        · rw [lower, mem_descendants_iff] at below
          exact .below below
        · exact apart a b (.inl rfl) behind

theorem descendants_sublist_labels (dom : Dom) (h : Handle) :
    (dom.descendants h).Sublist dom.shape.labels :=
  (Forest.visible_sublist_labels _).trans (part_children dom h).labels

theorem Precedes.sublist_labels {dom : Dom} {a b : NodeId} (order : dom.Precedes a b) :
    [a, b].Sublist dom.shape.labels := by
  cases order with
  | below reached =>
      have seen := mem_descendants_of_below reached
      cases e : dom.shape.below? a with
      | none => simp [descendants, children, e, Forest.visible] at seen
      | some found =>
          have mem : b ∈ found.1.labels ++ found.2.labels := by
            refine List.mem_append_right _ (Forest.visible_subset_labels _ ?_)
            simpa [descendants, children, e] using seen
          exact ((List.singleton_sublist.mpr mem).cons_cons a).trans (Forest.sublist_of_below? e)
  | @aside h x y order ha hb =>
      exact (pair_sublist_visible (part_children dom h) order ha hb).trans
        (descendants_sublist_labels dom h)

theorem pair_sublist_descendants_iff (dom : Dom) (h : Handle) (a b : NodeId) :
    [a, b].Sublist (dom.descendants h) ↔
      a ∈ dom.descendants h ∧ b ∈ dom.descendants h ∧ dom.Precedes a b := by
  constructor
  · intro pair
    have order := precedes_of_pair_sublist (part_children dom h) (List.Sublist.refl _) pair
    exact ⟨pair.subset (by simp), pair.subset (by simp), order⟩
  · rintro ⟨ha, hb, order⟩
    exact pair_sublist_of_sublist dom.nodup_labels (descendants_sublist_labels dom h) ha hb
      order.sublist_labels

/-- A search takes every node below its root once, through children links, and then ends. It finds
the HTML elements of the name among them in document order, and never its root or a node in the
contents of a template there. -/
theorem find_in_document_order (dom : Dom) (h : Handle) (name : String) :
    let taken := (dom.children h).visible
    let found := dom.find h name
    Search.after dom name taken.length (.start dom h) = some ⟨[], taken, found⟩ ∧
      (taken.Nodup ∧ ∀ id, id ∈ taken ↔ dom.Below h id) ∧
      found = (taken.filter fun id => dom.isHtml name (.node id)) ∧
      (∀ a b, [a, b].Sublist found ↔ a ∈ found ∧ b ∈ found ∧ dom.Precedes a b) ∧
      (∀ id, h = .node id → id ∉ found) ∧
      ∀ id inner, (h = .node id ∨ dom.Below h id) →
        inner ∈ (dom.children (.contents id)).labels → inner ∉ found := by
  intro taken found
  have filtered : found = taken.filter fun id => dom.isHtml name (.node id) := find_eq dom h name
  have kept : ∀ id, id ∈ found ↔ dom.Below h id ∧ dom.isHtml name (.node id) = true := by
    intro id
    rw [filtered, List.mem_filter]
    exact and_congr_left' (mem_descendants_iff dom h id)
  refine ⟨Search.after_start dom h name, ⟨nodup_descendants dom h, mem_descendants_iff dom h⟩,
    filtered, fun a b => ?_, ?_, ?_⟩
  · have inside : found.Sublist taken := filtered ▸ List.filter_sublist
    constructor
    · intro pair
      have order := (pair_sublist_descendants_iff dom h a b).mp (pair.trans inside)
      exact ⟨pair.subset (by simp), pair.subset (by simp), order.2.2⟩
    · rintro ⟨ha, hb, order⟩
      have pair := (pair_sublist_descendants_iff dom h a b).mpr
        ⟨inside.subset ha, inside.subset hb, order⟩
      exact pair_sublist_of_sublist (nodup_descendants dom h) inside ha hb pair
  · rintro id rfl mem
    exact not_below_self dom id ((kept id).mp mem).1
  · intro id inner reached hidden mem
    exact not_below_of_mem_contents reached hidden ((kept inner).mp mem).1

end Dom
end SafeForms
