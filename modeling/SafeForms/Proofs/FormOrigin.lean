import SafeForms.Proofs.Acts

/-!
Where the forms of a page come from. Tree construction opens forms for start tags only, in whatever
mode, and never touches their attributes afterwards; elements are moved, closed, left and found
again, but the attributes of the root and of the body alone are extended. So whatever holds of the
attributes of all form start tags that are read holds of the attributes of all forms in the tree.
Nor does anything but an element ever get something below it.
-/

namespace SafeForms

namespace Forest

universe u
variable {α : Type u} {P : α → Forest α → Forest α → Prop}

/-- Every node is in this relation to what lies below it. -/
def Each (P : α → Forest α → Forest α → Prop) : Forest α → Prop
  | nil => True
  | node a contents children siblings =>
    P a contents children ∧ contents.Each P ∧ children.Each P ∧ siblings.Each P

theorem each_leaf {a : α} : (leaf a).Each P ↔ P a nil nil := by
  simp [leaf, Each]

theorem each_append {f g : Forest α} : (f ++ g).Each P ↔ f.Each P ∧ g.Each P := by
  induction f with
  | nil => simp [nil_append, Each]
  | node a contents children siblings _ _ ihs => simp only [node_append, Each, ihs, and_assoc]

theorem each_reverseOnto {f g : Forest α} : (f.reverseOnto g).Each P ↔ f.Each P ∧ g.Each P := by
  induction f generalizing g with
  | nil => simp [reverseOnto, Each]
  | node a contents children siblings _ _ ihs =>
      simp only [reverseOnto, ihs, Each]
      constructor
      · rintro ⟨hs, ha, hc, hk, hg⟩
        exact ⟨⟨ha, hc, hk, hs⟩, hg⟩
      · rintro ⟨⟨ha, hc, hk, hs⟩, hg⟩
        exact ⟨hs, ha, hc, hk, hg⟩

theorem Each.of_mem_labels {f : Forest α} (h : f.Each P) {a : α} (ha : a ∈ f.labels) :
    ∃ contents children, P a contents children := by
  induction f with
  | nil => cases ha
  | node b contents children siblings ihc ihk ihs =>
      obtain ⟨hb, hc, hk, hs⟩ := h
      simp only [labels, List.mem_cons, List.mem_append] at ha
      rcases ha with rfl | ha | ha | ha
      · exact ⟨contents, children, hb⟩
      · exact ihc hc ha
      · exact ihk hk ha
      · exact ihs hs ha

end Forest

namespace Html

variable {Q : Attributes → Prop}

/-- The property holds of all forms in these trees. -/
def FormsSatisfy (Q : Attributes → Prop) (m : Markup) : Prop := ∀ n ∈ m.labels, n.IfForm Q

/-- The property holds of a form, and only an element has something below it. -/
def Regular (Q : Attributes → Prop) (n : Node) (contents children : Markup) : Prop :=
  n.IfForm Q ∧ (n.attrs? = none → contents = .nil ∧ children = .nil)

theorem regular_leaf {n : Node} (h : n.IfForm Q) : Regular Q n .nil .nil := ⟨h, fun _ => ⟨rfl, rfl⟩⟩

theorem regular_element {e : Element} (h : (Node.element e).IfForm Q) (contents children : Markup) :
    Regular Q (.element e) contents children :=
  ⟨h, nofun⟩

theorem formsSatisfy_of_each {m : Markup} (h : m.Each (Regular Q)) : FormsSatisfy Q m := by
  intro n hn
  obtain ⟨_, _, form, _⟩ := h.of_mem_labels hn
  exact form

/-! ### At the cursor -/

def Site.Satisfies (Q : Attributes → Prop) (s : Site) : Prop :=
  s.before.Each (Regular Q) ∧ s.after.Each (Regular Q)

theorem Site.Satisfies.close {s : Site} (h : s.Satisfies Q) : s.close.Each (Regular Q) :=
  Forest.each_reverseOnto.mpr h

theorem Site.Satisfies.add {s : Site} (h : s.Satisfies Q) {n : Node} (hn : n.IfForm Q) :
    (s.add n).Satisfies Q :=
  ⟨⟨regular_leaf hn, trivial, trivial, h.1⟩, h.2⟩

theorem Site.Satisfies.addCharacter {s : Site} (h : s.Satisfies Q) (c : Char) :
    (s.addCharacter c).Satisfies Q := by
  rw [Site.addCharacter]
  split
  · next e =>
    obtain ⟨before, after⟩ := h
    rw [e] at before
    obtain ⟨⟨_, bare⟩, below⟩ := before
    exact ⟨⟨⟨trivial, bare⟩, below⟩, after⟩
  · exact h.add trivial

theorem Site.Satisfies.resume {s : Site} (h : s.Satisfies Q) {before : Markup}
    (hb : before.Each (Regular Q)) : (s.resume before).Satisfies Q :=
  ⟨Forest.each_reverseOnto.mpr ⟨h.2, hb⟩, trivial⟩

theorem site_satisfies_empty : Site.Satisfies Q {} := ⟨trivial, trivial⟩

structure Frame.Satisfies (Q : Attributes → Prop) (f : Frame) : Prop where
  element : (Node.element f.element).IfForm Q
  site : f.site.Satisfies Q

theorem Frame.Satisfies.plant {f : Frame} (h : f.Satisfies Q) {siblings : Markup}
    (hs : siblings.Each (Regular Q)) : (f.plant siblings).Each (Regular Q) := by
  rw [Frame.plant]
  split
  · exact ⟨regular_element h.element _ _, h.site.close, trivial, hs⟩
  · exact ⟨regular_element h.element _ _, trivial, h.site.close, hs⟩

structure Cursor.Satisfies (Q : Attributes → Prop) (c : Cursor) : Prop where
  frames : ∀ f ∈ c.frames, f.Satisfies Q
  root : c.root.Satisfies Q

namespace Cursor.Satisfies

variable {c : Cursor}

theorem atSite (h : c.Satisfies Q) {change : Site → Site}
    (keeps : ∀ s : Site, s.Satisfies Q → (change s).Satisfies Q) :
    (c.atSite change).Satisfies Q := by
  rw [Cursor.atSite]
  split
  · exact ⟨h.frames, keeps _ h.root⟩
  · next frame frames e =>
    have all := h.frames
    rw [e, List.forall_mem_cons] at all
    refine ⟨List.forall_mem_cons.mpr ⟨⟨all.1.element, keeps _ all.1.site⟩, all.2⟩, h.root⟩

theorem add (h : c.Satisfies Q) {n : Node} (hn : n.IfForm Q) : (c.add n).Satisfies Q :=
  h.atSite fun _ hs => hs.add hn

theorem addCharacter (h : c.Satisfies Q) (d : Char) : (c.addCharacter d).Satisfies Q :=
  h.atSite fun _ hs => hs.addCharacter d

theorem enter (h : c.Satisfies Q) {e : Element} (he : (Node.element e).IfForm Q) :
    (c.enter e).Satisfies Q :=
  ⟨List.forall_mem_cons.mpr ⟨⟨he, site_satisfies_empty⟩, h.frames⟩, h.root⟩

theorem leave (h : c.Satisfies Q) : c.leave.Satisfies Q := by
  have all := h.frames
  rw [Cursor.leave]
  split
  · exact h
  · next f e =>
    rw [e, List.forall_mem_cons] at all
    exact ⟨all.2, h.root.resume (all.1.plant h.root.1)⟩
  · next f g frames e =>
    rw [e, List.forall_mem_cons, List.forall_mem_cons] at all
    obtain ⟨hf, hg, rest⟩ := all
    have behind := hg.site.resume (hf.plant hg.site.1)
    exact ⟨List.forall_mem_cons.mpr ⟨⟨hg.element, behind⟩, rest⟩, h.root⟩

theorem settle (h : c.Satisfies Q) : c.settle.Satisfies Q := by
  fun_induction Cursor.settle c with
  | case1 => exact h
  | case2 => exact h
  | case3 c f frames e closed ih => exact ih h.leave

theorem pop (h : c.Satisfies Q) : c.pop.Satisfies Q := h.leave.settle

theorem popWhile (h : c.Satisfies Q) (test : Element → Bool) : (c.popWhile test).Satisfies Q := by
  fun_induction Cursor.popWhile test c with
  | case1 => exact h
  | case2 c f frames e passes ih => exact ih h.pop
  | case3 => exact h

theorem closeFrame (h : c.Satisfies Q) (serial : Nat) : (c.closeFrame serial).Satisfies Q := by
  refine settle ⟨fun f hf => ?_, h.root⟩
  obtain ⟨g, hg, rfl⟩ := List.mem_map.mp hf
  have := h.frames g hg
  split
  · exact ⟨this.element, this.site⟩
  · exact this

theorem findHead {after before children : Markup} {e : Element} {site : Site}
    (ha : after.Each (Regular Q)) (hb : before.Each (Regular Q))
    (found : Cursor.findHead after before = some (e, children, site)) :
    (Node.element e).IfForm Q ∧ children.Each (Regular Q) ∧ site.Satisfies Q := by
  induction before generalizing after with
  | nil => simp [Cursor.findHead] at found
  | node n contents below siblings _ _ ihs =>
      obtain ⟨hn, hc, hk, hs⟩ := hb
      -- a tree that is passed over goes to the other side
      have passed : (Forest.node n contents below after).Each (Regular Q) := ⟨hn, hc, hk, ha⟩
      have next := ihs passed hs
      unfold Cursor.findHead at found
      split at found
      · split at found
        · cases found
          exact ⟨hn.1, hk, hs, ha⟩
        · exact next found
      · exact next found

theorem reenterHead (h : c.Satisfies Q) : c.reenterHead.Satisfies Q := by
  rw [Cursor.reenterHead]
  split
  · next e children site _ found =>
    have none : (Forest.nil : Markup).Each (Regular Q) := trivial
    obtain ⟨he, hk, hs⟩ := findHead none h.root.1 found
    have inner : Site.Satisfies Q ⟨children.reverseOnto .nil, .nil⟩ :=
      ⟨Forest.each_reverseOnto.mpr ⟨hk, trivial⟩, trivial⟩
    exact ⟨by simpa using ⟨he, inner⟩, hs⟩
  · exact h

theorem addToRoot (h : c.Satisfies Q) {n : Node} (hn : n.IfForm Q) :
    (c.addToRoot n).Satisfies Q :=
  ⟨h.frames, h.root.1,
    Forest.each_append.mpr ⟨h.root.2, Forest.each_leaf.mpr (regular_leaf hn)⟩⟩

theorem extendRoot (h : c.Satisfies Q) (attrs : Attributes) : (c.extendRoot attrs).Satisfies Q :=
  ⟨h.frames, h.root⟩

/-- The outermost element must be none that the property is about. -/
theorem extendOutermost (h : c.Satisfies Q) (attrs : Attributes)
    (other : ∀ e, c.outermost? = some e → e.isHtml "form" = false) :
    (c.extendOutermost attrs).Satisfies Q := by
  refine ⟨fun f hf => ?_, h.root⟩
  rcases List.mem_append.mp hf with hf | hf
  · exact h.frames f (List.dropLast_subset _ hf)
  · cases last : c.frames.getLast? with
    | none => simp [last] at hf
    | some g =>
        rw [last, Option.toList_some, List.map_singleton, List.mem_singleton] at hf
        subst hf
        have form := other g.element (by simp [Cursor.outermost?, last])
        refine ⟨fun isForm => ?_, (h.frames g (List.mem_of_getLast? last)).site⟩
        have : g.element.isHtml "form" = true := isForm
        simp [form] at this

theorem leaveAll (h : c.Satisfies Q) : c.leaveAll.Satisfies Q := by
  fun_induction Cursor.leaveAll c with
  | case1 => exact h
  | case2 c f frames e ih => exact ih h.leave

theorem act (h : c.Satisfies Q) {d : Cursor} (act : CursorAct Q c d) : d.Satisfies Q := by
  cases act with
  | add hn => exact h.add hn
  | addCharacter d => exact h.addCharacter d
  | enter he => exact h.enter he
  | pop => exact h.pop
  | popWhile test => exact h.popWhile test
  | closeFrame serial => exact h.closeFrame serial
  | reenterHead => exact h.reenterHead
  | addToRoot content => exact h.addToRoot trivial
  | extendRoot attrs => exact h.extendRoot attrs
  | extendBody attrs body =>
      refine h.extendOutermost attrs fun e outermost => ?_
      rw [outermost] at body
      have name : e.name = "body" := by simp_all [isOneOf]
      simp [Element.isHtml, name]

theorem tree (h : c.Satisfies Q) : c.tree.Each (Regular Q) := by
  refine ⟨regular_element (fun form => ?_) _ _, trivial, h.leaveAll.root.close, trivial⟩
  simp [Element.isHtml, Cursor.rootElement] at form

end Cursor.Satisfies

/-! ### In the state of construction -/

structure Builder.Satisfies (Q : Attributes → Prop) (b : Builder) : Prop where
  prolog : b.prolog.Each (Regular Q)
  epilog : b.epilog.Each (Regular Q)
  cursor : b.cursor.Satisfies Q

theorem Builder.Satisfies.start (settings : Settings) : (Builder.start settings).Satisfies Q :=
  ⟨trivial, trivial, by simp [Builder.start], site_satisfies_empty⟩

theorem Acts.satisfies {s b : Builder} (acts : Acts Q s b) (h : s.Satisfies Q) :
    b.Satisfies Q := by
  induction acts with
  | refl => exact h
  | change _ act ih => exact ⟨ih.prolog, ih.epilog, ih.cursor.act act⟩
  | addBefore _ _ plain ih =>
      have added := Forest.each_leaf.mpr (regular_leaf (Node.ifForm_of_attrs? (Q := Q) plain))
      exact ⟨Forest.each_append.mpr ⟨ih.prolog, added⟩, ih.epilog, ih.cursor⟩
  | addBehind content _ _ ih =>
      have added := Forest.each_leaf.mpr (regular_leaf (n := .comment content) (Q := Q) trivial)
      exact ⟨ih.prolog, Forest.each_append.mpr ⟨ih.epilog, added⟩, ih.cursor⟩
  | switch _ _ ih | reset _ ih | beginText _ _ ih | endText _ ih | openTemplate _ ih
  | switchTemplate _ _ ih | closeTemplate _ ih | note _ _ _ _ _ ih | beginRoot _ _ ih
  | endRoot _ _ ih =>
      exact ⟨ih.prolog, ih.epilog, ih.cursor⟩

theorem Builder.Satisfies.markup {b : Builder} (h : b.Satisfies Q) : b.markup.Each (Regular Q) :=
  Forest.each_append.mpr ⟨h.prolog, Forest.each_append.mpr ⟨h.cursor.tree, h.epilog⟩⟩

end Html
end SafeForms
