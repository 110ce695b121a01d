import SafeForms.Namespace

/-!
Attribute lists. A list is read and written by name, through its entries without a namespace: the
first of them counts, writing keeps its place or appends a new entry, and erasing takes out every
one of them. Entries of other namespaces are left alone. Main statements: reading after writing and
after erasing (`get?_set`, `get?_erase`).
-/

namespace SafeForms

structure Attribute where
  ns : Namespace
  name : String
  value : String
  deriving Repr, DecidableEq, Inhabited

def Attribute.isNamed (name : String) (a : Attribute) : Bool :=
  a.ns = .null && a.name = name

abbrev Attributes := List Attribute

namespace Attributes

def get? (name : String) (attrs : Attributes) : Option String :=
  (attrs.find? (·.isNamed name)).map (·.value)

def has (name : String) (attrs : Attributes) : Bool := attrs.any (·.isNamed name)

/-- Writes the first entry of this name, or appends one. -/
def set (name value : String) : Attributes → Attributes
  | [] => [⟨.null, name, value⟩]
  | a :: attrs =>
    if a.isNamed name then ⟨a.ns, a.name, value⟩ :: attrs else a :: set name value attrs

/-- Takes out every entry of this name. -/
def erase (name : String) (attrs : Attributes) : Attributes :=
  attrs.filter fun a => !a.isNamed name

def remove (name : String) (attrs : Attributes) : Bool × Attributes :=
  ((erase name attrs).length ≠ attrs.length, erase name attrs)

def addMissing (attrs extra : Attributes) : Attributes :=
  attrs ++ extra.filter fun a => !attrs.any fun b => b.ns = a.ns && b.name = a.name

@[simp] theorem get?_nil (name : String) : get? name [] = none := rfl

theorem get?_cons (name : String) (a : Attribute) (attrs : Attributes) :
    get? name (a :: attrs) = if a.isNamed name then some a.value else get? name attrs := by
  by_cases h : a.isNamed name <;> simp [get?, h]

theorem isNamed_new (name value : String) : (Attribute.mk .null name value).isNamed name := by
  simp [Attribute.isNamed]

theorem isNamed_of_ne {a : Attribute} {name other : String} (h : a.isNamed name)
    (hne : other ≠ name) : a.isNamed other = false := by
  simp_all [Attribute.isNamed, Ne.symm hne]

theorem get?_set (name other value : String) (attrs : Attributes) :
    get? other (set name value attrs) = if other = name then some value else get? other attrs := by
  induction attrs with
  | nil => by_cases h : other = name <;> simp [set, get?_cons, Attribute.isNamed, h, Ne.symm]
  | cons a attrs ih =>
    by_cases ha : a.isNamed name
    · by_cases h : other = name
      · subst h
        simp [set, ha, get?_cons]
        simp_all [Attribute.isNamed]
      · have hn := isNamed_of_ne ha h
        have hn' : (Attribute.mk a.ns a.name value).isNamed other = false := hn
        simp [set, ha, get?_cons, hn, hn', h]
    · by_cases h : other = name
      · subst h
        simp [set, ha, get?_cons, ih]
      · simp [set, ha, get?_cons, ih, h]

theorem get?_erase (name other : String) (attrs : Attributes) :
    get? other (erase name attrs) = if other = name then none else get? other attrs := by
  induction attrs with
  | nil => simp [erase]
  | cons a attrs ih =>
    by_cases ha : a.isNamed name
    · rw [erase, List.filter_cons_of_neg (by simp [ha]), ← erase, ih]
      by_cases h : other = name
      · simp [h]
      · simp [h, get?_cons, isNamed_of_ne ha h]
    · rw [erase, List.filter_cons_of_pos (by simp [ha]), ← erase, get?_cons, ih, get?_cons]
      by_cases h : other = name
      · subst h; simp [ha]
      · simp [h]

theorem has_eq_isSome (name : String) (attrs : Attributes) :
    has name attrs = (get? name attrs).isSome := by
  rw [has, get?, Option.isSome_map, Bool.eq_iff_iff, List.any_eq_true, List.find?_isSome]

end Attributes
end SafeForms
