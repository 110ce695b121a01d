/-!
Ordered forests in which a node has two kinds of trees below it: its children, and a separate
contents forest, as a template element has. The forest is written node by node: a label, what lies
below it, and the siblings that follow. Main statements: the walk with an explicit stack visits the
nodes in document order (`visits_roots`), and taking a tree out or planting one loses no label
(`labels_extract`, `labels_graft`).
-/

namespace SafeForms

universe u v

inductive Forest (α : Type u) where
  | nil
  | node (label : α) (contents children siblings : Forest α)
  deriving Repr, DecidableEq, Inhabited

namespace Forest

variable {α : Type u} {β : Type v}

def leaf (a : α) : Forest α := .node a .nil .nil .nil

protected def append : Forest α → Forest α → Forest α
  | nil, g => g
  | node a contents children siblings, g => node a contents children (siblings.append g)

instance : Append (Forest α) := ⟨Forest.append⟩

/-- The trees of the first forest, last one first, in front of the second. -/
def reverseOnto : Forest α → Forest α → Forest α
  | nil, g => g
  | node a contents children siblings, g => siblings.reverseOnto (node a contents children g)

def map (f : α → β) : Forest α → Forest β
  | nil => nil
  | node a contents children siblings =>
    node (f a) (contents.map f) (children.map f) (siblings.map f)

/-- All labels in document order, the contents of a node before its children. -/
def labels : Forest α → List α
  | nil => []
  | node a contents children siblings =>
    a :: (contents.labels ++ (children.labels ++ siblings.labels))

/-- The labels in document order that are reached through children links only. -/
def visible : Forest α → List α
  | nil => []
  | node a _ children siblings => a :: (children.visible ++ siblings.visible)

def visibleSize : Forest α → Nat
  | nil => 0
  | node _ _ children siblings => children.visibleSize + siblings.visibleSize + 1

def roots : Forest α → List (α × Forest α)
  | nil => []
  | node a _ children siblings => (a, children) :: siblings.roots

def firstChildren? : Forest α → Option (Forest α)
  | nil => none
  | node _ _ children _ => some children

def stackSize : List (α × Forest α) → Nat
  | [] => 0
  | (_, children) :: rest => children.visibleSize + 1 + stackSize rest

theorem stackSize_append (s t : List (α × Forest α)) :
    stackSize (s ++ t) = stackSize s + stackSize t := by
  induction s with
  | nil => simp [stackSize]
  | cons a s ih => simp [stackSize, ih]; omega

theorem stackSize_roots (f : Forest α) : stackSize f.roots = f.visibleSize := by
  induction f with
  | nil => rfl
  | node a contents children siblings _ _ ihs => simp [roots, stackSize, visibleSize, ihs]; omega

/-- The order in which the nodes are taken from a stack of trees, where a node taken from the
stack leaves its children there, first one on top. -/
def visits : List (α × Forest α) → List α
  | [] => []
  | (a, children) :: rest => a :: visits (children.roots ++ rest)
termination_by stack => stackSize stack
decreasing_by simp [stackSize_append, stackSize_roots, stackSize]

/-- What lies below the first node with this label: its contents and its children. -/
def below? [DecidableEq α] (a : α) : Forest α → Option (Forest α × Forest α)
  | nil => none
  | node b contents children siblings =>
    if b = a then some (contents, children)
    else (contents.below? a).orElse fun _ =>
      (children.below? a).orElse fun _ => siblings.below? a

/-- The first tree with this label, taken out, and the forest that remains. -/
def extract [DecidableEq α] (a : α) : Forest α → Option (Forest α × Forest α)
  | nil => none
  | node b contents children siblings =>
    if b = a then some (node b contents children nil, siblings)
    else match contents.extract a with
      | some (tree, rest) => some (tree, node b rest children siblings)
      | none => match children.extract a with
        | some (tree, rest) => some (tree, node b contents rest siblings)
        | none => (siblings.extract a).map fun (tree, rest) =>
          (tree, node b contents children rest)

/-- Below which of its two forests a node takes a new tree. -/
inductive Side where
  | contents
  | children
  deriving Repr, DecidableEq

/-- The trees of the second forest placed last on one side of the first node with this label. -/
def graft [DecidableEq α] (a : α) (side : Side) : Forest α → Forest α → Option (Forest α)
  | nil, _ => none
  | node b contents children siblings, g =>
    if b = a then
      match side with
      | .contents => some (node b (contents ++ g) children siblings)
      | .children => some (node b contents (children ++ g) siblings)
    else match contents.graft a side g with
      | some planted => some (node b planted children siblings)
      | none => match children.graft a side g with
        | some planted => some (node b contents planted siblings)
        | none => (siblings.graft a side g).map fun planted => node b contents children planted

theorem nil_append (g : Forest α) : (nil : Forest α) ++ g = g := rfl

theorem node_append (a : α) (contents children siblings g : Forest α) :
    node a contents children siblings ++ g = node a contents children (siblings ++ g) := rfl

@[simp] theorem labels_append (f g : Forest α) : (f ++ g).labels = f.labels ++ g.labels := by
  induction f with
  | nil => rfl
  | node a contents children siblings _ _ ihs => simp [node_append, labels, ihs]

theorem visits_append (s t : List (α × Forest α)) : visits (s ++ t) = visits s ++ visits t := by
  fun_induction visits s with
  | case1 => rfl
  | case2 a children rest ih => rw [List.cons_append, visits, ← List.append_assoc, ih]; rfl

/-- The walk with a stack of trees takes every visible node once, in document order. -/
theorem visits_roots (f : Forest α) : visits f.roots = f.visible := by
  induction f with
  | nil => rw [roots, visits]; rfl
  | node a contents children siblings _ ihk ihs =>
    rw [roots, visits, visits_append, ihk, ihs, visible]

theorem visible_sublist_labels (f : Forest α) : f.visible.Sublist f.labels := by
  induction f with
  | nil => exact List.Sublist.refl _
  | node a contents children siblings _ ihk ihs =>
    exact (((ihk.append ihs).trans (List.sublist_append_right _ _))).cons_cons a

variable [DecidableEq α]

theorem labels_extract {a : α} {f tree rest : Forest α} (h : f.extract a = some (tree, rest)) :
    (tree.labels ++ rest.labels).Perm f.labels := by
  induction f generalizing tree rest with
  | nil => simp [extract] at h
  | node b contents children siblings ihc ihk ihs =>
    simp only [extract] at h
    split at h
    · cases h; simp [labels]
    · split at h
      · next t r hc =>
        cases h
        have p := ihc hc
        simp only [labels]
        refine List.perm_middle.trans (List.Perm.cons b ?_)
        rw [← List.append_assoc]
        exact p.append_right _
      · split at h
        · next t r hk =>
          cases h
          have p := ihk hk
          simp only [labels]
          refine List.perm_middle.trans (List.Perm.cons b ?_)
          refine (List.perm_append_comm_assoc _ _ _).trans (List.Perm.append_left _ ?_)
          rw [← List.append_assoc]
          exact p.append_right _
        · obtain ⟨⟨t, r⟩, hs, e⟩ := Option.map_eq_some_iff.mp h
          cases e
          have p := ihs hs
          simp only [labels]
          refine List.perm_middle.trans (List.Perm.cons b ?_)
          refine (List.perm_append_comm_assoc _ _ _).trans (List.Perm.append_left _ ?_)
          exact (List.perm_append_comm_assoc _ _ _).trans (List.Perm.append_left _ p)

theorem labels_graft {a : α} {side : Side} {f g planted : Forest α}
    (h : f.graft a side g = some planted) : planted.labels.Perm (f.labels ++ g.labels) := by
  induction f generalizing planted with
  | nil => simp [graft] at h
  | node b contents children siblings ihc ihk ihs =>
    simp only [graft] at h
    split at h
    · cases side with
      | contents =>
        cases h
        simp only [labels, labels_append, List.cons_append, List.append_assoc]
        refine List.Perm.cons b (List.Perm.append_left _ ?_)
        refine List.perm_append_comm.trans ?_
        simp
      | children =>
        cases h
        simp only [labels, labels_append, List.cons_append, List.append_assoc]
        refine List.Perm.cons b (List.Perm.append_left _ (List.Perm.append_left _ ?_))
        exact List.perm_append_comm
    · split at h
      · next p hc =>
        cases h
        simp only [labels, List.cons_append, List.append_assoc]
        refine List.Perm.cons b (((ihc hc).append_right _).trans ?_)
        rw [List.append_assoc]
        refine List.Perm.append_left _ (List.perm_append_comm.trans ?_)
        simp
      · split at h
        · next p hk =>
          cases h
          simp only [labels, List.cons_append, List.append_assoc]
          refine List.Perm.cons b (List.Perm.append_left _ (((ihk hk).append_right _).trans ?_))
          rw [List.append_assoc]
          exact List.Perm.append_left _ List.perm_append_comm
        · obtain ⟨p, hs, e⟩ := Option.map_eq_some_iff.mp h
          cases e
          simp only [labels, List.cons_append, List.append_assoc]
          exact List.Perm.cons b (List.Perm.append_left _ (List.Perm.append_left _ (ihs hs)))

end Forest
end SafeForms
