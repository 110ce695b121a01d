import SafeForms.Attribute

/-!
What a node of a tree is, apart from its place in the tree.
-/

namespace SafeForms

structure Element where
  ns : Namespace
  name : String
  attrs : Attributes
  deriving Repr, DecidableEq, Inhabited

def Element.isHtml (name : String) (e : Element) : Bool := e.ns = .html && e.name = name

theorem Element.isHtml_iff {name : String} {e : Element} :
    e.isHtml name = true ↔ e.ns = .html ∧ e.name = name := by
  simp [Element.isHtml]

inductive Node where
  | document
  | doctype (name publicId systemId : String)
  | text (content : String)
  | comment (content : String)
  | instruction (target data : String)
  | element (e : Element)
  deriving Repr, DecidableEq, Inhabited

namespace Node

def isHtml (name : String) : Node → Bool
  | element e => e.isHtml name
  | _ => false

/-- Whether the node has a contents forest. -/
def isTemplate (n : Node) : Bool := n.isHtml "template"

def attrs? : Node → Option Attributes
  | element e => some e.attrs
  | _ => none

def attrs (n : Node) : Attributes := n.attrs?.getD []

def mapAttrs (f : Attributes → Attributes) : Node → Node
  | element e => element ⟨e.ns, e.name, f e.attrs⟩
  | n => n

@[simp] theorem isHtml_mapAttrs (f : Attributes → Attributes) (name : String) (n : Node) :
    (n.mapAttrs f).isHtml name = n.isHtml name := by
  cases n <;> rfl

theorem attrs?_mapAttrs (f : Attributes → Attributes) (n : Node) :
    (n.mapAttrs f).attrs? = n.attrs?.map f := by
  cases n <;> rfl

theorem mapAttrs_mapAttrs (f g : Attributes → Attributes) (n : Node) :
    (n.mapAttrs f).mapAttrs g = n.mapAttrs (g ∘ f) := by
  cases n <;> rfl

end Node
end SafeForms
