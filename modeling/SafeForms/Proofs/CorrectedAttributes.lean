import SafeForms.Proofs.SanitizeMap

/-!
The attributes of a corrected form, entry by entry. A correction writes its steps one after the
other, some of them only where something differs, and takes entries out in between. All of it comes
to one edit of the list: the entries keep their order, the first one of each name that is given a
value has it in its place, and the names without an entry follow at the end
(`attrs_of_normalized_form`).
-/

namespace SafeForms

namespace Attributes

/-- The value for a place: that of the name whose first entry stands there. -/
def valueAt (values : List (String × String)) (attrs : Attributes) (i : Nat) : Option String :=
  (values.find? fun v => attrs.findIdx? (·.isNamed v.1) = some i).map (·.2)

/-- The list with a new value for the first entry of every name that is given one. The names that
have no entry are appended in the order in which they are given. -/
def edit (values : List (String × String)) (attrs : Attributes) : Attributes :=
  attrs.mapIdx (fun i a => (valueAt values attrs i).elim a fun value => ⟨a.ns, a.name, value⟩) ++
    (values.filter fun v => !attrs.has v.1).map fun v => ⟨.null, v.1, v.2⟩

theorem has_eq_isSome_findIdx? (name : String) (attrs : Attributes) :
    attrs.has name = (attrs.findIdx? (·.isNamed name)).isSome :=
  List.findIdx?_isSome.symm

theorem findIdx?_set_of_ne {name other : String} (h : other ≠ name) (value : String)
    (attrs : Attributes) :
    (attrs.set name value).findIdx? (·.isNamed other) = attrs.findIdx? (·.isNamed other) := by
  induction attrs with
  | nil => simp [set, List.findIdx?_cons, Attribute.isNamed, Ne.symm h]
  | cons a attrs ih =>
      have same : (Attribute.mk a.ns a.name value).isNamed other = a.isNamed other := rfl
      by_cases named : a.isNamed name = true
      · simp [set, named, List.findIdx?_cons, same]
      · simp [set, named, List.findIdx?_cons, ih]

theorem has_set_of_ne {name other : String} (h : other ≠ name) (value : String)
    (attrs : Attributes) : (attrs.set name value).has other = attrs.has other := by
  rw [has_eq_isSome_findIdx?, findIdx?_set_of_ne h, has_eq_isSome_findIdx?]

/-- Writing a name that has an entry changes the first of them. -/
theorem set_of_findIdx? {attrs : Attributes} {name : String} {i : Nat} (value : String)
    (found : attrs.findIdx? (·.isNamed name) = some i) :
    attrs.set name value = attrs.modify i fun a => ⟨a.ns, a.name, value⟩ := by
  induction attrs generalizing i with
  | nil => simp at found
  | cons a attrs ih =>
      rw [List.findIdx?_cons] at found
      by_cases named : a.isNamed name = true
      · simp only [named, if_true, Option.some.injEq] at found
        subst found
        simp [set, named]
      · simp only [named, Bool.false_eq_true, if_false, Option.map_eq_some_iff] at found
        obtain ⟨j, later, rfl⟩ := found
        simp [set, named, ih later]

theorem set_of_findIdx?_none {attrs : Attributes} {name : String} (value : String)
    (absent : attrs.findIdx? (·.isNamed name) = none) :
    attrs.set name value = attrs ++ [⟨.null, name, value⟩] := by
  induction attrs with
  | nil => rfl
  | cons a attrs ih =>
      rw [List.findIdx?_eq_none_iff, List.forall_mem_cons] at absent
      simp [set, absent.1, ih (List.findIdx?_eq_none_iff.mpr absent.2)]

theorem valueAt_set_of_notMem {values : List (String × String)} {name : String}
    (fresh : name ∉ values.map (·.1)) (value : String) (attrs : Attributes) (i : Nat) :
    valueAt values (attrs.set name value) i = valueAt values attrs i := by
  rw [valueAt, valueAt]
  congr 1
  refine List.find?_congr fun v hv => ?_
  have other : v.1 ≠ name := fun e => fresh (e ▸ List.mem_map_of_mem hv)
  rw [findIdx?_set_of_ne other]

theorem valueAt_cons (name value : String) (values : List (String × String)) (attrs : Attributes)
    (i : Nat) : valueAt ((name, value) :: values) attrs i =
      if attrs.findIdx? (·.isNamed name) = some i then some value else valueAt values attrs i := by
  rw [valueAt, List.find?_cons, valueAt]
  by_cases here : attrs.findIdx? (·.isNamed name) = some i <;> simp [here]

theorem valueAt_eq_none {values : List (String × String)} {attrs : Attributes} {i : Nat}
    (other : ∀ a, attrs[i]? = some a → ∀ v ∈ values, a.isNamed v.1 = false) :
    valueAt values attrs i = none := by
  rw [valueAt, Option.map_eq_none_iff, List.find?_eq_none]
  intro v hv found
  obtain ⟨inside, named, -⟩ := List.findIdx?_eq_some_iff_getElem.mp (of_decide_eq_true found)
  rw [other _ (List.getElem?_eq_getElem inside) v hv] at named
  contradiction

/-- An edit writes its values one by one. -/
theorem edit_cons {name value : String} {values : List (String × String)} {attrs : Attributes}
    (fresh : name ∉ values.map (·.1)) :
    edit ((name, value) :: values) attrs = edit values (attrs.set name value) := by
  have others : ∀ v ∈ values, v.1 ≠ name := fun v hv e => fresh (e ▸ List.mem_map_of_mem hv)
  have missing : (values.filter fun v => !(attrs.set name value).has v.1) =
      values.filter fun v => !attrs.has v.1 :=
    List.filter_congr fun v hv => by rw [has_set_of_ne (others v hv)]
  simp only [edit, missing, valueAt_set_of_notMem fresh, valueAt_cons, List.filter_cons,
    has_eq_isSome_findIdx? name]
  cases found : attrs.findIdx? (·.isNamed name) with
  | some k =>
      -- the entry at this place has the name, so no other name is found there
      obtain ⟨inside, named, -⟩ := List.findIdx?_eq_some_iff_getElem.mp found
      have alone : valueAt values attrs k = none := by
        refine valueAt_eq_none fun a ha v hv => isNamed_of_ne ?_ (others v hv)
        rw [List.getElem?_eq_getElem inside, Option.some.injEq] at ha
        exact ha ▸ named
      rw [set_of_findIdx? value found]
      congr 1
      refine List.ext_getElem? fun i => ?_
      rw [List.getElem?_mapIdx, List.getElem?_mapIdx, List.getElem?_modify]
      by_cases here : k = i
      · subst here
        simp [alone, inside]
      · simp [here]
  | none =>
      have behind : valueAt values attrs attrs.length = none :=
        valueAt_eq_none fun a ha => by simp at ha
      rw [set_of_findIdx?_none value found]
      simp [List.mapIdx_append, behind]

theorem edit_eq_foldl (values : List (String × String)) (attrs : Attributes)
    (once : (values.map (·.1)).Nodup) :
    edit values attrs = values.foldl (fun attrs v => Attributes.set v.1 v.2 attrs) attrs := by
  induction values generalizing attrs with
  | nil => simp [edit, valueAt, List.mapIdx_eq_zipIdx_map]
  | cons v values ih =>
      rw [List.map_cons, List.nodup_cons] at once
      rw [edit_cons once.1, ih _ once.2, List.foldl_cons]

theorem set_of_get? {attrs : Attributes} {name value : String}
    (h : attrs.get? name = some value) : attrs.set name value = attrs := by
  induction attrs with
  | nil => cases h
  | cons a attrs ih =>
      rw [get?_cons] at h
      by_cases named : a.isNamed name = true
      · rw [if_pos named, Option.some.injEq] at h
        simp [set, named, ← h]
      · rw [if_neg named] at h
        simp [set, named, ih h]

theorem erase_set_of_ne {name other : String} (h : other ≠ name) (value : String)
    (attrs : Attributes) :
    (attrs.set name value).erase other = (attrs.erase other).set name value := by
  induction attrs with
  | nil => simp [set, erase, Attribute.isNamed, Ne.symm h]
  | cons a attrs ih =>
      rw [erase, erase] at ih
      by_cases named : a.isNamed name = true
      · have kept := isNamed_of_ne named h
        have changed : (Attribute.mk a.ns a.name value).isNamed other = false := kept
        simp [set, erase, named, kept, changed]
      · by_cases gone : a.isNamed other = true <;> simp [set, erase, named, gone, ih]

end Attributes

namespace Form

theorem declare_fst (name value : String) (report : Option String → String → Event)
    (attrs : Attributes) : (declare name value report attrs).1 = attrs.set name value := by
  by_cases same : attrs.get? name = some value
  · rw [declare_of_get? report same, Attributes.set_of_get? same]
  · simp [declare, same]

theorem reviseXhr_fst (endpoint : String) (attrs : Attributes) :
    (reviseXhr endpoint attrs).1 = attrs.set "action-xhr"
      ((Endpoint.declared? (attrs.get? "action-xhr")).elim endpoint (Endpoint.downgrade false)) := by
  rw [reviseXhr]
  cases e : Endpoint.declared? (attrs.get? "action-xhr") with
  | none => rfl
  | some declared =>
      have value := (Option.filter_eq_some_iff.mp e).1
      by_cases plain : Endpoint.isPlain false declared = true
      · have shorter := mt (Endpoint.length_downgrade_eq_iff false declared).mp (by simp [plain])
        simp [shorter]
      · rw [Bool.not_eq_true] at plain
        have same := (Endpoint.length_downgrade_eq_iff false declared).mpr plain
        rw [Option.elim_some, Endpoint.downgrade_of_not_isPlain plain, Attributes.set_of_get? value]
        simp [Endpoint.downgrade_of_not_isPlain plain]

/-- The entries that a corrected form is given. -/
def corrections (r : Request) (attrs : Attributes) : List (String × String) :=
  let target := ("target", (Target.coerce (attrs.get? "target")).text)
  match methodOf attrs with
  | .get => [("method", "get"), ("action", endpointOf r attrs), target]
  | .post => [("method", "post"), ("action-xhr", postEndpoint r attrs), target]
  | .other name => [("method", name), target]

theorem text_methodOf (attrs : Attributes) :
    (methodOf attrs).text = Text.lower ((Endpoint.declared? (attrs.get? "method")).getD "get") := by
  have get : Text.lower "get" = "get" := by decide
  rw [methodOf]
  cases attrs.get? "method" with
  | none => exact get.symm
  | some value =>
      by_cases empty : value = ""
      · rw [empty]
        exact get.symm
      · simp only [Method.resolve, empty, if_false, declared?_of_ne_empty empty, Option.getD_some]
        split
        · next e => exact e.symm
        · split
          · next e => exact e.symm
          · rfl

theorem text_coerce_eq (declared : Option String) :
    (Target.coerce declared).text =
      if (Endpoint.declared? declared).getD "_top" ∈ ["_top", "_self", "_parent"] then "_top"
      else "_blank" := by
  cases declared with
  | none => rfl
  | some value =>
      by_cases empty : value = ""
      · rw [empty]
        rfl
      · rw [declared?_of_ne_empty empty]
        simp only [Target.coerce, Target.withinWindow, Option.getD_some, List.mem_cons, empty,
          false_or, apply_ite Target.text]
        rfl

theorem postEndpoint_eq (r : Request) (attrs : Attributes) :
    postEndpoint r attrs = (Endpoint.declared? (attrs.get? "action-xhr")).elim (endpointOf r attrs)
      (Endpoint.downgrade false) := by
  rw [postEndpoint]
  cases Endpoint.declared? (attrs.get? "action-xhr") <;> rfl

theorem correct_eq_edit (r : Request) (attrs : Attributes) :
    correct r attrs = Attributes.edit (corrections r attrs)
      (if methodOf attrs = .post then attrs.erase "action" else attrs) := by
  have aimed : Attributes.get? "target"
      (reviseEndpoints r (methodOf attrs) (reviseMethod attrs).1).1 = attrs.get? "target" := by
    have named : (reviseMethod attrs).1.get? "target" = attrs.get? "target" := by
      simp [reviseMethod, get?_declare]
    rw [get?_reviseEndpoints, named]
    cases methodOf attrs <;> simp
  have once : ((corrections r attrs).map (·.1)).Nodup := by
    cases m : methodOf attrs <;> simp [corrections, m]
  rw [correct_eq, reviseTarget, declare_fst, aimed, Attributes.edit_eq_foldl _ _ once]
  cases m : methodOf attrs with
  | get =>
      rw [reviseEndpoints, declare_fst, endpointOf_reviseMethod, reviseMethod, declare_fst]
      simp [corrections, m, Method.text]
  | post =>
      rw [reviseEndpoints, reviseXhr_fst, endpointOf_reviseMethod, reviseMethod, declare_fst,
        Attributes.erase_set_of_ne (by decide), Attributes.get?_set, if_neg (by decide),
        Attributes.get?_erase, if_neg (by decide), ← postEndpoint_eq]
      simp [corrections, m, Method.text]
  | other name =>
      rw [reviseEndpoints, reviseMethod, declare_fst]
      simp [corrections, m, Method.text]

end Form

namespace Endpoint

theorem downgrade_eq (ignoreCase : Bool) (url : String) :
    downgrade ignoreCase url =
      if beginsPlain ignoreCase url.toList then String.ofList (url.toList.drop 5) else url := by
  rw [downgrade, isPlain_eq]
  rfl

end Endpoint

namespace Dom

/-- The attributes of a form after its correction are those before it, edited: its method, its
endpoint and its target are given values, and a posted form loses its actions. -/
theorem attrs_of_normalized_form (dom : Dom) (r : Request) (f : Handle) (attrs : Attributes)
    (form : dom.isHtml "form" f = true) (listed : dom.attrs? f = some attrs) :
    let declared (name : String) := (attrs.get? name).filter (· ≠ "")
    let secured (ignoreCase : Bool) (url : String) :=
      if Endpoint.beginsPlain ignoreCase url.toList then String.ofList (url.toList.drop 5) else url
    let m := Text.lower ((declared "method").getD "get")
    let url := secured true ((declared "action").getD ("//" ++ r.host ++ r.uri))
    let xhr := (declared "action-xhr").elim url (secured false)
    let t := if (declared "target").getD "_top" ∈ ["_top", "_self", "_parent"] then "_top"
      else "_blank"
    (Form.normalizeOne r dom f).1.attrs? f = some (
      if m = "get" then attrs.edit [("method", m), ("action", url), ("target", t)]
      else if m = "post" then
        Attributes.edit [("method", m), ("action-xhr", xhr), ("target", t)]
          (attrs.filter fun a => !a.isNamed "action")
      else attrs.edit [("method", m), ("target", t)]) := by
  intro declared secured m url xhr t
  obtain ⟨id, rfl⟩ := eq_node_of_isHtml form
  have method : (Form.methodOf attrs).text = m := Form.text_methodOf attrs
  have endpoint : Form.endpointOf r attrs = url := Endpoint.downgrade_eq true _
  have target : (Target.coerce (attrs.get? "target")).text = t := Form.text_coerce_eq _
  have posted : Form.postEndpoint r attrs = xhr := by
    rw [Form.postEndpoint_eq, endpoint]
    refine congrArg _ (funext fun url => ?_)
    exact Endpoint.downgrade_eq false url
  have corrected : (Form.normalizeOne r dom (.node id)).1.attrs? (.node id) =
      some (Form.correct r attrs) := by
    rw [normalizeOne_eq, attrs?_correctWhere, listed, form]
    simp
  rw [corrected, Form.correct_eq_edit, Form.corrections, endpoint, target, posted]
  have get := Method.text_resolve_eq_get_iff (attrs.get? "method")
  have post := Method.text_resolve_eq_post_iff (attrs.get? "method")
  rw [← Form.methodOf, method] at get post
  cases e : Form.methodOf attrs with
  | get =>
      rw [if_neg (by simp), if_pos (get.mpr e), get.mpr e]
  | post =>
      have named := post.mpr e
      rw [if_pos rfl, if_neg (by simp [named]), if_pos named, named]
      rfl
  | other name =>
      rw [if_neg (by simp), if_neg (mt get.mp (by simp [e])), if_neg (mt post.mp (by simp [e])),
        ← method, e, Method.text]

/-- A posted form with two actions, one of another namespace between them, and an address to post to
that is empty. -/
theorem attrs_of_normalized_posted_form :
    let attrs : Attributes := [⟨.null, "action", "HTTP://a"⟩, ⟨.xlink, "action", "b"⟩,
      ⟨.null, "action-xhr", ""⟩, ⟨.null, "method", "POST"⟩, ⟨.null, "action", "c"⟩,
      ⟨.null, "class", "d"⟩]
    let dom := ofMarkup (.leaf (.element ⟨.html, "form", attrs⟩))
    dom.isHtml "form" (.node 1) = true ∧ dom.attrs? (.node 1) = some attrs ∧
      (Form.normalizeOne ⟨"h", "/"⟩ dom (.node 1)).1.attrs? (.node 1) = some
        [⟨.xlink, "action", "b"⟩, ⟨.null, "action-xhr", "//a"⟩, ⟨.null, "method", "post"⟩,
          ⟨.null, "class", "d"⟩, ⟨.null, "target", "_top"⟩] := by
  intro attrs dom
  have form : dom.isHtml "form" (.node 1) = true := by decide
  have listed : dom.attrs? (.node 1) = some attrs := by decide
  refine ⟨form, listed, ?_⟩
  rw [attrs_of_normalized_form dom ⟨"h", "/"⟩ (.node 1) attrs form listed]
  decide +kernel

end Dom
end SafeForms
