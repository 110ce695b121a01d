import SafeForms.Dom

/-!
Growing a document and moving its nodes. A moved node takes everything below it along, its contents
included, and a node is never moved below itself.
-/

namespace SafeForms.Dom

/-- The node under which a handle takes new nodes, and on which side. -/
def place : Handle → NodeId × Forest.Side
  | .node id => (id, .children)
  | .contents id => (id, .contents)

/-- Adds a node that stands nowhere yet; its number is the count of the nodes before. -/
def create (dom : Dom) (n : Node) : Dom where
  nodes := dom.nodes.push n
  shape := dom.shape ++ .leaf dom.nodes.size
  each_once := by
    rw [Array.size_push, List.range_succ, Forest.labels_append]
    exact dom.each_once.append_right _

/-- Takes a node from its parent; without one it stays as it is. -/
def detach (dom : Dom) (id : NodeId) : Dom :=
  match h : dom.shape.extract id with
  | none => dom
  | some (tree, rest) =>
    { dom with
      shape := rest ++ tree
      each_once := by
        rw [Forest.labels_append]
        exact (List.perm_append_comm.trans (Forest.labels_extract h)).trans dom.each_once }

/-- Moves a node to the end of what a handle holds. There is no place for it if the handle belongs
to the node itself or to one below it. -/
def append (dom : Dom) (parent : Handle) (id : NodeId) : Option Dom :=
  match h : dom.shape.extract id with
  | none => some dom
  | some (tree, rest) =>
    match g : rest.graft (place parent).1 (place parent).2 tree with
    | none => none
    | some shape =>
      some { dom with
        shape
        each_once :=
          (((Forest.labels_graft g).trans List.perm_append_comm).trans
            (Forest.labels_extract h)).trans dom.each_once }

/-- Adds all these nodes and then gives each, in order, the place that is named for it. -/
def build (entries : List (Node × Option Handle)) : Dom :=
  let grown := entries.foldl (fun dom entry => dom.create entry.1) empty
  entries.zipIdx.foldl
    (fun dom (entry, i) =>
      match entry.2 with
      | none => dom
      | some parent => (dom.append parent (i + 1)).getD dom)
    grown

end SafeForms.Dom
