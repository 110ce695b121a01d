import SafeForms.Dom.Markup

/-!
A tree under construction: the root element, and the path of elements from there to the place where
the next node goes. An element on the path may have been closed while one inside it is still open;
it is left as soon as nothing inside it is open any more, so the innermost element of the path is
always open. Whatever is done, the result is one tree below the root, which is never ended.
-/

namespace SafeForms.Html

/-- A place between two siblings: the trees before it, the nearest first, and the trees after it. -/
structure Site where
  before : Markup := .nil
  after : Markup := .nil
  deriving Repr, DecidableEq, Inhabited

namespace Site

def close (s : Site) : Markup := s.before.reverseOnto s.after

/-- Moves the place behind all siblings, the first of which are given, the nearest first. -/
def resume (s : Site) (before : Markup) : Site := ⟨s.after.reverseOnto before, .nil⟩

def add (s : Site) (n : Node) : Site := ⟨.node n .nil .nil s.before, s.after⟩

def addCharacter (s : Site) (c : Char) : Site :=
  match s.before with
  | .node (.text content) contents children siblings =>
    ⟨.node (.text (content.push c)) contents children siblings, s.after⟩
  | _ => s.add (.text (String.singleton c))

end Site

/-- An element on the path. Its serial number tells it from the others. -/
structure Frame where
  element : Element
  serial : Nat
  isOpen : Bool := true
  site : Site := {}
  deriving Repr, DecidableEq, Inhabited

/-- Puts the finished element before its siblings, the nearest first. What was put into a template is
its contents. -/
def Frame.plant (f : Frame) (siblings : Markup) : Markup :=
  if f.element.isHtml "template" then
    .node (.element f.element) f.site.close .nil siblings
  else .node (.element f.element) .nil f.site.close siblings

structure Cursor where
  /-- The path, innermost element first, without the root. -/
  frames : List Frame := []
  rootAttrs : Attributes := []
  root : Site := {}
  serial : Nat := 0
  deriving Repr, DecidableEq, Inhabited

namespace Cursor

def rootElement (c : Cursor) : Element := ⟨.html, "html", c.rootAttrs⟩

def current (c : Cursor) : Element :=
  match c.frames with
  | [] => c.rootElement
  | f :: _ => f.element

/-- The open elements, innermost first; the root is always open. -/
def elements (c : Cursor) : List Element :=
  (c.frames.filter (·.isOpen)).map (·.element) ++ [c.rootElement]

def atSite (c : Cursor) (f : Site → Site) : Cursor :=
  match c.frames with
  | [] => { c with root := f c.root }
  | frame :: frames => { c with frames := { frame with site := f frame.site } :: frames }

def add (c : Cursor) (n : Node) : Cursor := c.atSite (·.add n)

def addCharacter (c : Cursor) (d : Char) : Cursor := c.atSite (·.addCharacter d)

def enter (c : Cursor) (e : Element) : Cursor :=
  { c with frames := { element := e, serial := c.serial } :: c.frames, serial := c.serial + 1 }

/-- Goes from the innermost element of the path to the place behind it. -/
def leave (c : Cursor) : Cursor :=
  match c.frames with
  | [] => c
  | [f] => { c with frames := [], root := c.root.resume (f.plant c.root.before) }
  | f :: g :: frames =>
    { c with frames := { g with site := g.site.resume (f.plant g.site.before) } :: frames }

theorem length_frames_leave (c : Cursor) : c.leave.frames.length = c.frames.length - 1 := by
  unfold leave
  split <;> simp_all

/-- Leaves the elements that are closed already. -/
def settle (c : Cursor) : Cursor :=
  match _frames : c.frames with
  | [] => c
  | f :: _ => if f.isOpen then c else c.leave.settle
termination_by c.frames.length
decreasing_by
  rw [length_frames_leave, _frames]
  simp

theorem length_frames_settle_le (c : Cursor) : c.settle.frames.length ≤ c.frames.length := by
  fun_induction settle c with
  | case1 => exact Nat.le_refl _
  | case2 => exact Nat.le_refl _
  | case3 c f frames h hf ih =>
    rw [length_frames_leave] at ih
    omega

def pop (c : Cursor) : Cursor := c.leave.settle

theorem length_frames_pop_lt {c : Cursor} (h : c.frames ≠ []) :
    c.pop.frames.length < c.frames.length := by
  have bound := length_frames_settle_le c.leave
  rw [length_frames_leave] at bound
  have positive := List.length_pos_iff.mpr h
  rw [pop]
  omega

def popWhile (test : Element → Bool) (c : Cursor) : Cursor :=
  match _frames : c.frames with
  | [] => c
  | f :: _ => if test f.element then c.pop.popWhile test else c
termination_by c.frames.length
decreasing_by
  have h : c.frames ≠ [] := by simp [_frames]
  have := length_frames_pop_lt h
  simpa [_frames] using this

/-- Ends elements up to the innermost one that satisfies the test, that one included. -/
def popThrough (test : Element → Bool) (c : Cursor) : Cursor :=
  (c.popWhile fun e => !test e).pop

/-- Closes the element of this number, wherever on the path it is. -/
def closeFrame (c : Cursor) (serial : Nat) : Cursor :=
  settle { c with
    frames := c.frames.map fun f => if f.serial = serial then { f with isOpen := false } else f }

/-- Finds the head among finished siblings, the nearest first: the element, what it holds, and its
siblings before and after it. -/
def findHead (after : Markup) : Markup → Option (Element × Markup × Site)
  | .nil => none
  | .node n contents children siblings =>
    match n with
    | .element e =>
      if e.isHtml "head" then some (e, children, ⟨siblings, after⟩)
      else findHead (.node n contents children after) siblings
    | _ => findHead (.node n contents children after) siblings

/-- Goes back to the end of the head, which was left for the root. -/
def reenterHead (c : Cursor) : Cursor :=
  match c.frames, findHead .nil c.root.before with
  | [], some (e, children, site) =>
    { c with
      frames := [{ element := e, serial := c.serial, site := ⟨children.reverseOnto .nil, .nil⟩ }]
      root := site
      serial := c.serial + 1 }
  | _, _ => c

def addToRoot (c : Cursor) (n : Node) : Cursor :=
  { c with root := ⟨c.root.before, c.root.after ++ .leaf n⟩ }

def extendRoot (c : Cursor) (attrs : Attributes) : Cursor :=
  { c with rootAttrs := c.rootAttrs.addMissing attrs }

def extendFrame (attrs : Attributes) (f : Frame) : Frame :=
  { f with element := ⟨f.element.ns, f.element.name, f.element.attrs.addMissing attrs⟩ }

def extendOutermost (c : Cursor) (attrs : Attributes) : Cursor :=
  { c with
    frames := c.frames.dropLast ++ c.frames.getLast?.toList.map (extendFrame attrs) }

def outermost? (c : Cursor) : Option Element := (c.frames.getLast?).map (·.element)

def leaveAll (c : Cursor) : Cursor :=
  match _frames : c.frames with
  | [] => c
  | _ :: _ => c.leave.leaveAll
termination_by c.frames.length
decreasing_by
  rw [length_frames_leave, _frames]
  simp

def tree (c : Cursor) : Markup :=
  .node (.element c.rootElement) .nil c.leaveAll.root.close .nil

end Cursor
end SafeForms.Html
