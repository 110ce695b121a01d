import SafeForms.Proofs.FragmentRoot
import SafeForms.Proofs.ReaderInput
import SafeForms.Proofs.SearchOrder

/-!
Fragments as documents. The document of a fragment holds one element and nothing beside it, so no
node is left out when only what the element holds is served: written as a whole, the document is
that between the two tags of the element (`fragment_has_one_root`).
-/

namespace SafeForms

namespace Html

/-- Nothing around the root element changes how what is below it is written. -/
theorem write_root {attrs : Attributes} (children : Markup) :
    write {} (.node (.element ⟨.html, "html", attrs⟩) .nil children .nil) =
      startTag ⟨.html, "html", attrs⟩ ++ write {} children ++ endTag ⟨.html, "html", attrs⟩ := by
  have around : Surround.within {} ⟨.html, "html", attrs⟩ = {} := by
    simp [Surround.within, isRawText, isVoid, rawTextNames, voidNames]
  simp [write, writeStart, writeEnd, around, String.append_assoc]

end Html

namespace Dom

/-- All of the document is one tree, that of an HTML root element, and it is served without the tags
of that element. -/
structure HasRoot (dom : Dom) (id : NodeId) (e : Element) : Prop where
  html : e.isHtml "html" = true
  node : dom.node? (.node id) = some (.element e)
  only : dom.childIds root = [id]
  parent : ∀ h, id ∈ dom.childIds h → h = root
  /-- Every other node lies below the root element, or in contents of a template there. -/
  all : ∀ other < dom.nodes.size,
    .node other = root ∨ other = id ∨ other ∈ (dom.children (.node id)).labels
  served : dom.served .fragment = dom.markup (.node id)
  written : dom.serialize .document =
    Html.startTag e ++ dom.serialize .fragment ++ Html.endTag e

/-- A node comes before what it holds, be it below the node or in its contents. -/
theorem pair_sublist_of_mem_children {dom : Dom} {h : Handle} {id : NodeId}
    (inside : id ∈ (dom.children h).labels) :
    ∃ above, (h = .node above ∨ h = .contents above) ∧ [above, id].Sublist dom.shape.labels := by
  have order : ∀ {above contents children}, dom.shape.below? above = some (contents, children) →
      id ∈ contents.labels ++ children.labels → [above, id].Sublist dom.shape.labels := by
    intro above contents children found mem
    exact ((List.singleton_sublist.mpr mem).cons_cons above).trans (Forest.sublist_of_below? found)
  cases h with
  | node above =>
      cases found : dom.shape.below? above with
      | none => simp [children, found, Forest.labels] at inside
      | some parts =>
          have mem : id ∈ parts.2.labels := by simpa [children, found] using inside
          exact ⟨above, .inl rfl, order found (List.mem_append_right _ mem)⟩
  | contents above =>
      cases found : dom.shape.below? above with
      | none => simp [children, found, Forest.labels] at inside
      | some parts =>
          have mem : id ∈ parts.1.labels := by simpa [children, found] using inside
          exact ⟨above, .inr rfl, order found (List.mem_append_left _ mem)⟩

section Shape

variable {dom : Dom} {id : NodeId} {below : Forest NodeId}
  (shape : dom.shape = .node 0 .nil (.node id .nil below .nil) .nil)
include shape

theorem labels_of_shape : dom.shape.labels = 0 :: id :: below.labels := by
  simp [shape, Forest.labels]

theorem children_of_shape :
    dom.children root = .node id .nil below .nil ∧ dom.children (.node id) = below ∧
      dom.children (.contents 0) = .nil := by
  have once := dom.nodup_labels
  rw [labels_of_shape shape] at once
  have other : 0 ≠ id := fun e => (List.nodup_cons.mp once).1 (e ▸ List.mem_cons_self)
  simp [children, root, shape, Forest.below?, other]

/-- Only the document node comes before its first child. -/
theorem eq_zero_of_pair_sublist {above : NodeId} (order : [above, id].Sublist dom.shape.labels) :
    above = 0 := by
  have once := dom.nodup_labels
  rw [labels_of_shape shape] at once order
  have fresh : id ∉ below.labels := (List.nodup_cons.mp (List.nodup_cons.mp once).2).1
  rcases List.sublist_cons_iff.mp order with later | ⟨_, e, _⟩
  · refine absurd ?_ fresh
    rcases List.sublist_cons_iff.mp later with later | ⟨_, e, later⟩
    · exact later.subset (by simp)
    · obtain ⟨rfl, rfl⟩ := List.cons.inj e
      exact later.subset (by simp)
  · exact (List.cons.inj e).1

theorem eq_root_of_mem_childIds {h : Handle} (held : id ∈ dom.childIds h) : h = root := by
  have inside : id ∈ (dom.children h).labels :=
    Forest.visible_subset_labels _ (roots_subset_visible _ held)
  obtain ⟨above, place, order⟩ := pair_sublist_of_mem_children inside
  obtain rfl := eq_zero_of_pair_sublist shape order
  rcases place with rfl | rfl
  · rfl
  · simp [(children_of_shape shape).2.2, Forest.labels] at inside

theorem mem_children_of_shape {other : NodeId} (known : other < dom.nodes.size) :
    .node other = root ∨ other = id ∨ other ∈ (dom.children (.node id)).labels := by
  have mem : other ∈ dom.shape.labels := dom.each_once.mem_iff.mpr (List.mem_range.mpr known)
  rw [labels_of_shape shape, List.mem_cons, List.mem_cons] at mem
  rw [(children_of_shape shape).2.1]
  exact mem.imp_left (congrArg Handle.node)

end Shape

theorem hasRoot_ofMarkup (attrs : Attributes) (below : Markup) :
    (ofMarkup (.node (.element ⟨.html, "html", attrs⟩) .nil below .nil)).HasRoot 1
      ⟨.html, "html", attrs⟩ := by
  generalize tree : ofMarkup _ = dom
  have shape : dom.shape = .node 0 .nil (.node 1 .nil (below.number 2).1 .nil) .nil := by
    rw [← tree]
    rfl
  have whole : dom.markup root = .node (.element ⟨.html, "html", attrs⟩) .nil below .nil := by
    rw [← tree, markup_ofMarkup]
  obtain ⟨top, under, -⟩ := children_of_shape shape
  have served : dom.served .fragment = dom.markup (.node 1) := by
    simp [Dom.served, markup, top, under, Forest.map, Forest.firstChildren?]
  have lower : dom.markup (.node 1) = below := by
    rw [← served, Dom.served, whole]
    rfl
  refine ⟨rfl, ?_, ?_, fun h => eq_root_of_mem_childIds shape, fun _ => mem_children_of_shape shape,
    served, ?_⟩
  · rw [← tree]
    rfl
  · rw [childIds, top]
    rfl
  · rw [serialize, serialize, served, lower, Dom.served, whole]
    exact Html.write_root below

end Dom

namespace Page

theorem hasRoot_ofPieces {o : Options} (fragment : o.scope = .fragment)
    (pieces : List (List Char)) :
    ∃ attrs, (ofPieces o pieces).HasRoot 1 ⟨.html, "html", attrs⟩ := by
  have whole : (settings o).fragment = true := decide_eq_true fragment
  obtain ⟨attrs, children, tree⟩ :=
    Html.parse_fragment whole (.ofPieces o.parse.discardMark pieces)
  refine ⟨attrs, ?_⟩
  rw [ofPieces, tree]
  exact Dom.hasRoot_ofMarkup attrs children

/-- Whatever the text and however it comes, the document of a fragment is one HTML root element with
everything else below it. The element has no other parent than the document, and what is served is
all that it holds. -/
theorem fragment_has_one_root (parsing : ParseOptions) (request : Request) :
    let o : Options := ⟨parsing, request, .fragment⟩
    (∀ text, ∃ id e, (parse o text).HasRoot id e) ∧
      ∀ answers, Input.Readable answers →
        ∃ dom id e, parseInput o answers = .ok dom ∧ dom.HasRoot id e := by
  intro o
  have one := fun pieces => hasRoot_ofPieces (o := o) rfl pieces
  constructor
  · intro text
    obtain ⟨attrs, root⟩ := one [text.toList]
    exact ⟨_, _, root⟩
  · intro answers readable
    obtain ⟨pieces, handed, -⟩ := Input.text_of_readable readable
    obtain ⟨attrs, root⟩ := one pieces
    refine ⟨_, _, _, ?_, root⟩
    rw [parseInput, handed]
    rfl

example :
    (parse ⟨{}, {}, .fragment⟩ "</body><!--c--></html><html lang=x><!DOCTYPE html>t").serialize
      .document = "<html lang=\"x\"><!--c-->t</html>" := by
  decide +kernel

end Page
end SafeForms
