import SafeForms.Proofs.WrittenForms

/-!
Where the request shows in a served page. A form takes the address of the page only if it declares
none where it needs one; then that address is the value of one entry of its attributes, and nothing
else in the list depends on the request. So a page is one text with gaps for all requests, and the
gaps are filled with the escaped address of the page, between quotes (`request_fills_values`).
-/

namespace SafeForms

namespace Attributes

/-- A list of attributes that is the same for all values but for the value of one entry. -/
def Slot (name : String) (list : String → Attributes) : Prop :=
  ∃ before after, ∀ value, list value = before ++ ⟨.null, name, value⟩ :: after

theorem slot_set (name : String) (attrs : Attributes) :
    Slot name fun value => attrs.set name value := by
  induction attrs with
  | nil => exact ⟨[], [], fun _ => rfl⟩
  | cons a attrs ih =>
      by_cases named : a.isNamed name = true
      · refine ⟨[], attrs, fun value => ?_⟩
        have entry : a.ns = .null ∧ a.name = name := by simpa [Attribute.isNamed] using named
        simp [set, named, entry]
      · obtain ⟨before, after, same⟩ := ih
        exact ⟨a :: before, after, fun value => by simp [set, named, same]⟩

variable {name other : String} {list : String → Attributes}

theorem isNamed_slot (h : other ≠ name) (value : String) :
    (Attribute.mk .null name value).isNamed other = false :=
  isNamed_of_ne (isNamed_new name value) h

theorem Slot.get? (slot : Slot name list) (h : other ≠ name) (value : String) :
    (list value).get? other = (list "").get? other := by
  obtain ⟨before, after, same⟩ := slot
  have rest : ∀ v, Attributes.get? other (⟨.null, name, v⟩ :: after) = Attributes.get? other after :=
    fun v => by rw [get?_cons, isNamed_slot h, if_neg Bool.false_ne_true]
  rw [same, same, Html.get?_append, Html.get?_append, rest, rest]

theorem Slot.set (slot : Slot name list) (h : other ≠ name) (written : String) :
    Slot name fun value => (list value).set other written := by
  obtain ⟨before, after, same⟩ := slot
  simp only [same]
  clear same
  induction before with
  | nil =>
      refine ⟨[], Attributes.set other written after, fun value => ?_⟩
      simp [Attributes.set, isNamed_slot h]
  | cons a before ih =>
      by_cases named : a.isNamed other = true
      · refine ⟨⟨a.ns, a.name, written⟩ :: before, after, fun value => ?_⟩
        simp [Attributes.set, named]
      · obtain ⟨front, back, same⟩ := ih
        refine ⟨a :: front, back, fun value => ?_⟩
        simpa [Attributes.set, named] using same value

end Attributes

namespace Form

open Attributes (Slot)

theorem slot_reviseTarget {name : String} {list : String → Attributes} (slot : Slot name list)
    (h : "target" ≠ name) : Slot name fun value => (reviseTarget (list value)).1 := by
  have read := slot.get? h
  simp only [reviseTarget, declare, read]
  by_cases same : (list "").get? "target" =
      some (Target.coerce ((list "").get? "target")).text
  · simpa [if_pos same] using slot
  · simpa [if_neg same] using slot.set h _

/-- The form needs an address to be sent to and declares none. -/
def TakesDefault (attrs : Attributes) : Prop :=
  Endpoint.declared? (attrs.get? "action") = none ∧
    (methodOf attrs = .get ∨
      methodOf attrs = .post ∧ Endpoint.declared? (attrs.get? "action-xhr") = none)

instance : DecidablePred TakesDefault := fun _ => inferInstanceAs (Decidable (_ ∧ _))

theorem endpointOf_of_none {r : Request} {attrs : Attributes}
    (none : Endpoint.declared? (attrs.get? "action") = none) :
    endpointOf r attrs = r.defaultUrl := by
  have relative : Endpoint.isPlain true r.defaultUrl = false := by
    rw [Endpoint.isPlain_eq, Bool.eq_false_iff]
    intro plain
    have first := Endpoint.getElem?_of_beginsPlain plain 0 (by decide)
    simp [Request.defaultUrl, Endpoint.toList_plainScheme] at first
  rw [endpointOf, Endpoint.resolve, none, Option.getD_none,
    Endpoint.downgrade_of_not_isPlain relative]

theorem endpointOf_congr {r s : Request} {attrs : Attributes}
    (declared : Endpoint.declared? (attrs.get? "action") ≠ none) :
    endpointOf r attrs = endpointOf s attrs := by
  obtain ⟨url, found⟩ := Option.ne_none_iff_exists'.mp declared
  rw [endpointOf, endpointOf, Endpoint.resolve, Endpoint.resolve, found, Option.getD_some,
    Option.getD_some]

theorem reviseXhr_congr {attrs : Attributes} (endpoint other : String)
    (declared : Endpoint.declared? (attrs.get? "action-xhr") ≠ none) :
    reviseXhr endpoint attrs = reviseXhr other attrs := by
  obtain ⟨url, found⟩ := Option.ne_none_iff_exists'.mp declared
  simp only [reviseXhr, found]

theorem get?_xhr_named (attrs : Attributes) :
    ((reviseMethod attrs).1.erase "action").get? "action-xhr" = attrs.get? "action-xhr" := by
  simp [reviseMethod, get?_declare, Attributes.get?_erase]

/-- A form that does not take the address of the page is corrected alike for all requests. -/
theorem correct_congr {attrs : Attributes} (h : ¬ TakesDefault attrs) (r s : Request) :
    correct r attrs = correct s attrs := by
  have endpoints : reviseEndpoints r (methodOf attrs) (reviseMethod attrs).1 =
      reviseEndpoints s (methodOf attrs) (reviseMethod attrs).1 := by
    cases m : methodOf attrs with
    | get =>
        have declared : Endpoint.declared? (attrs.get? "action") ≠ none :=
          fun none => h ⟨none, .inl m⟩
        rw [reviseEndpoints, reviseEndpoints, endpointOf_reviseMethod, endpointOf_reviseMethod,
          endpointOf_congr declared]
    | post =>
        rw [reviseEndpoints, reviseEndpoints]
        by_cases none : Endpoint.declared? (attrs.get? "action") = none
        · refine reviseXhr_congr _ _ fun noXhr => h ⟨none, .inr ⟨m, ?_⟩⟩
          rwa [get?_xhr_named] at noXhr
        · rw [endpointOf_reviseMethod, endpointOf_reviseMethod, endpointOf_congr none]
    | other name => rfl
  rw [correct_eq, correct_eq, endpoints]

theorem slot_correct {attrs : Attributes} (h : TakesDefault attrs) :
    ∃ name ∈ ["action", "action-xhr"], ∃ list, Slot name list ∧
      ∀ r : Request, correct r attrs = list r.defaultUrl := by
  obtain ⟨none, get | ⟨post, noXhr⟩⟩ := h
  · refine ⟨"action", by decide, _,
      slot_reviseTarget (Attributes.slot_set _ (reviseMethod attrs).1) (by decide), fun r => ?_⟩
    have nonempty : r.defaultUrl ≠ "" :=
      endpointOf_of_none (r := r) none ▸ endpointOf_ne_empty r attrs
    have named : (reviseMethod attrs).1.get? "action" = attrs.get? "action" := by
      simp [reviseMethod, get?_declare]
    have differs : (reviseMethod attrs).1.get? "action" ≠ some r.defaultUrl := by
      intro same
      rw [← named, same, declared?_of_ne_empty nonempty] at none
      cases none
    rw [correct_eq, get, reviseEndpoints, endpointOf_reviseMethod, endpointOf_of_none none, declare,
      if_neg differs]
  · refine ⟨"action-xhr", by decide, _, slot_reviseTarget
      (Attributes.slot_set _ ((reviseMethod attrs).1.erase "action")) (by decide), fun r => ?_⟩
    rw [correct_eq, post, reviseEndpoints, endpointOf_reviseMethod, endpointOf_of_none none,
      reviseXhr, get?_xhr_named, noXhr]

end Form

namespace Html

/-- Undoes the escapes of a value. -/
def unescapeValueChars : List Char → List Char
  | '&' :: 'a' :: 'm' :: 'p' :: ';' :: cs => '&' :: unescapeValueChars cs
  | '&' :: 'n' :: 'b' :: 's' :: 'p' :: ';' :: cs => '\u00a0' :: unescapeValueChars cs
  | '&' :: 'q' :: 'u' :: 'o' :: 't' :: ';' :: cs => '"' :: unescapeValueChars cs
  | c :: cs => c :: unescapeValueChars cs
  | [] => []

def unescapeValue (s : String) : String := String.ofList (unescapeValueChars s.toList)

theorem unescapeValueChars_escape (cs : List Char) :
    unescapeValueChars (cs.flatMap escapeValueChar) = cs := by
  induction cs with
  | nil => rfl
  | cons c cs ih =>
      rw [List.flatMap_cons]
      by_cases h₁ : c = '&'
      · subst c; simp [escapeValueChar, unescapeValueChars, ih]
      by_cases h₂ : c = '\u00a0'
      · subst c; simp [escapeValueChar, unescapeValueChars, ih]
      by_cases h₃ : c = '"'
      · subst c; simp [escapeValueChar, unescapeValueChars, ih]
      simp [escapeValueChar, unescapeValueChars, h₁, h₂, h₃, ih]

theorem unescapeValue_escapeValue (s : String) : unescapeValue (escapeValue s) = s := by
  rw [unescapeValue, escapeValue, String.toList_ofList, unescapeValueChars_escape,
    String.ofList_toList]

theorem quote_notMem_escapeValue (s : String) : '"' ∉ (escapeValue s).toList := by
  rw [escapeValue, String.toList_ofList]
  exact quote_notMem_escape s.toList

/-- What stands before the value of an endpoint. -/
def endpointOpenings : List String := [" action=\"", " action-xhr=\""]

theorem writeAttributes_append (attrs more : Attributes) :
    writeAttributes (attrs ++ more) = writeAttributes attrs ++ writeAttributes more := by
  rw [← String.toList_inj]
  simp [writeAttributes, String.toList_join]

theorem writeAttributes_cons (a : Attribute) (attrs : Attributes) :
    writeAttributes (a :: attrs) = writeAttribute a ++ writeAttributes attrs := by
  rw [← String.toList_inj]
  simp [writeAttributes, String.toList_join]

theorem fill_slot {name : String} {list : String → Attributes} (slot : Attributes.Slot name list) :
    ∃ before after, ∀ value, writeAttributes (list value) =
      before ++ (" " ++ name ++ "=\"") ++ escapeValue value ++ ("\"" ++ after) := by
  obtain ⟨before, after, same⟩ := slot
  refine ⟨writeAttributes before, writeAttributes after, fun value => ?_⟩
  rw [same, writeAttributes_append, writeAttributes_cons, writeAttribute]
  simp only [qualifier, String.append_assoc, String.empty_append]

/-- The attributes of a corrected form, with a gap for the address of the page if the form takes
it. -/
theorem exists_gapped_correct (attrs : Attributes) :
    ∃ g : Gapped Attributes, g.gaps = (if Form.TakesDefault attrs then [attrs] else []) ∧
      g.Between endpointOpenings "\"" ∧
      ∀ r : Request, g.fill (fun _ => escapeValue r.defaultUrl) =
        writeAttributes (Form.correct r attrs) := by
  by_cases h : Form.TakesDefault attrs
  · obtain ⟨name, known, list, slot, corrected⟩ := Form.slot_correct h
    obtain ⟨before, after, written⟩ := fill_slot slot
    refine ⟨.gap (before ++ (" " ++ name ++ "=\"")) attrs (.text ("\"" ++ after)), ?_, ?_,
      fun r => ?_⟩
    · rw [if_pos h]
      rfl
    · have opens : ∀ n ∈ ["action", "action-xhr"], " " ++ n ++ "=\"" ∈ endpointOpenings := by decide
      exact ⟨⟨_, opens name known, before, rfl⟩, ⟨after, rfl⟩, trivial⟩
    · rw [corrected, written]
      rfl
  · refine ⟨.text (writeAttributes (Form.correct {} attrs)), ?_, trivial, fun r => ?_⟩
    · rw [if_neg h]
      rfl
    · rw [Form.correct_congr h r {}]
      rfl

end Html

/-- The address of the page fills gaps of the served page and does nothing else. There is a gap for
every form that takes it, inside the quotes around an endpoint, and the escaped address does not
leave them and is the address again when the escapes are undone. -/
theorem request_fills_values (dom : Dom) (scope : Scope) :
    ∃ page : Gapped Attributes,
      page.gaps = (Html.writtenForms (dom.served scope)).filter Form.TakesDefault ∧
        page.Between [" action=\"", " action-xhr=\""] "\"" ∧
        ∀ r : Request,
          let address := Html.escapeValue ("//" ++ r.host ++ r.uri)
          (dom.sanitize r).1.serialize scope = page.fill (fun _ => address) ∧
            '"' ∉ address.toList ∧ Html.unescapeValue address = "//" ++ r.host ++ r.uri := by
  choose form gaps between filled using Html.exists_gapped_correct
  refine ⟨(Html.gapped {} (dom.served scope)).bind form, ?_, Gapped.Between.bind between _,
    fun r => ⟨?_, Html.quote_notMem_escapeValue _, Html.unescapeValue_escapeValue _⟩⟩
  · rw [Gapped.gaps_bind, Html.gaps_gapped {} [], ← Html.writtenForms]
    simp only [gaps]
    induction Html.writtenForms (dom.served scope) with
    | nil => rfl
    | cons attrs rest ih => by_cases h : Form.TakesDefault attrs <;> simp [h, ih]
  · rw [dom.serialize_sanitize, Gapped.fill_bind]
    congr 1
    funext attrs
    exact (filled attrs r).symm

end SafeForms
