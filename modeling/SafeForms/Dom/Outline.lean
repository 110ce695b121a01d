import SafeForms.Dom

/-!
A document as a list of lines, one for each node in document order with its depth. The contents of
a template come right below it, before its children.
-/

namespace SafeForms.Dom

inductive OutlineEntry where
  | node (id : NodeId) (n : Node)
  /-- The contents of the template above. -/
  | contents
  /-- The contents of a template, as the top of the outline. -/
  | contentsRoot
  deriving Repr, DecidableEq

structure OutlineLine where
  depth : Nat
  entry : OutlineEntry
  deriving Repr, DecidableEq

def entry (dom : Dom) (id : NodeId) : OutlineEntry :=
  .node id (dom.nodes[id]?.getD .document)

def outlineForest (dom : Dom) (depth : Nat) : Forest NodeId → List OutlineLine
  | .nil => []
  | .node id contents children siblings =>
    let inner :=
      if dom.isHtml "template" (.node id) then
        ⟨depth + 1, .contents⟩ :: outlineForest dom (depth + 2) contents
      else []
    ⟨depth, dom.entry id⟩ ::
      (inner ++ outlineForest dom (depth + 1) children ++ outlineForest dom depth siblings)

def outline (dom : Dom) : Handle → List OutlineLine
  | .node id =>
    match dom.shape.below? id with
    | some (contents, children) => outlineForest dom 0 (.node id contents children .nil)
    | none => []
  | .contents id =>
    ⟨0, .contentsRoot⟩ :: outlineForest dom 1 (dom.children (.contents id))

end SafeForms.Dom
