/-!
Namespaces of elements and attributes. The known ones have constructors of their own, so that two
namespaces are equal exactly when their URIs are (`ofUri_uri`).
-/

namespace SafeForms

inductive Namespace where
  /-- No namespace, as for the attributes of an HTML element. -/
  | null
  | html
  | svg
  | mathml
  | xml
  | xmlns
  | xlink
  | other (uri : String)
  deriving Repr, DecidableEq, Inhabited

namespace Namespace

def uri : Namespace → String
  | null => ""
  | html => "http://www.w3.org/1999/xhtml"
  | svg => "http://www.w3.org/2000/svg"
  | mathml => "http://www.w3.org/1998/Math/MathML"
  | xml => "http://www.w3.org/XML/1998/namespace"
  | xmlns => "http://www.w3.org/2000/xmlns/"
  | xlink => "http://www.w3.org/1999/xlink"
  | other uri => uri

def known : List Namespace := [null, html, svg, mathml, xml, xmlns, xlink]

def ofUri (uri : String) : Namespace :=
  (known.find? (·.uri = uri)).getD (other uri)

theorem ofUri_uri (uri : String) : (ofUri uri).uri = uri := by
  unfold ofUri
  cases h : known.find? (·.uri = uri) with
  | none => rfl
  | some ns => simpa using List.find?_some h

end Namespace
end SafeForms
