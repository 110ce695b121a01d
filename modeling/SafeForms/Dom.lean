import SafeForms.Forest
import SafeForms.Node

/-!
A document as a table of nodes and a forest of their numbers. The forest holds the tree of the
document, which is node 0, and the trees of detached nodes; a template has its contents in the forest
too, apart from its children. What a node is and where it stands are kept apart, so that changing
attributes cannot move anything and moving nodes cannot change any of them.
-/

namespace SafeForms

abbrev NodeId := Nat

/-- A node of a document, or the contents of a template, which have no number of their own. -/
inductive Handle where
  | node (id : NodeId)
  | contents (id : NodeId)
  deriving Repr, DecidableEq

@[ext]
structure Dom where
  nodes : Array Node
  shape : Forest NodeId
  /-- Every node has exactly one place. -/
  each_once : shape.labels.Perm (List.range nodes.size)

namespace Dom

/-- The document node alone. -/
def empty : Dom where
  nodes := #[.document]
  shape := .leaf 0
  each_once := List.Perm.refl _

instance : Inhabited Dom := ⟨empty⟩

def root : Handle := .node 0

/-- What is found at a handle: the contents of a template are a document of their own. -/
def node? (dom : Dom) : Handle → Option Node
  | .node id => dom.nodes[id]?
  | .contents id =>
    match dom.nodes[id]? with
    | some n => if n.isTemplate then some .document else none
    | none => none

def isHtml (dom : Dom) (name : String) (h : Handle) : Bool :=
  (dom.node? h).any (·.isHtml name)

def attrs? (dom : Dom) (h : Handle) : Option Attributes := (dom.node? h).bind (·.attrs?)

def get? (dom : Dom) (h : Handle) (name : String) : Option String :=
  (dom.attrs? h).bind (·.get? name)

def has (dom : Dom) (h : Handle) (name : String) : Bool :=
  (dom.attrs? h).any (·.has name)

/-- The forest below a handle that is reached through children links. -/
def children (dom : Dom) : Handle → Forest NodeId
  | .node id => ((dom.shape.below? id).map (·.2)).getD .nil
  | .contents id => ((dom.shape.below? id).map (·.1)).getD .nil

def mapAttrs (dom : Dom) (h : Handle) (f : Attributes → Attributes) : Dom :=
  match h with
  | .node id =>
    { dom with
      nodes := dom.nodes.modify id (·.mapAttrs f)
      each_once := by simpa using dom.each_once }
  | .contents _ => dom

def set (dom : Dom) (h : Handle) (name value : String) : Dom :=
  dom.mapAttrs h (·.set name value)

def remove (dom : Dom) (h : Handle) (name : String) : Bool × Dom :=
  ((dom.attrs? h).any fun attrs => (attrs.remove name).1,
    dom.mapAttrs h fun attrs => (attrs.remove name).2)

/-- The nodes whose attributes differ between two states of a document, in ascending order, with
their attributes in the second. -/
def changes (before after : Dom) : List (NodeId × Attributes) :=
  (List.range after.nodes.size).filterMap fun id =>
    if before.attrs? (.node id) = after.attrs? (.node id) then none
    else (after.attrs? (.node id)).map (id, ·)

@[simp] theorem shape_mapAttrs (dom : Dom) (h : Handle) (f : Attributes → Attributes) :
    (dom.mapAttrs h f).shape = dom.shape := by
  cases h <;> rfl

theorem nodup_labels (dom : Dom) : dom.shape.labels.Nodup :=
  dom.each_once.nodup_iff.mpr List.nodup_range

end Dom
end SafeForms
