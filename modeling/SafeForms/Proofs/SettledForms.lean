import SafeForms.Form.Correction
import SafeForms.Proofs.PlainScheme

/-!
What the correction of a form leaves behind, read by name, and the forms that it leaves alone. Four
attributes decide: whoever declares them as a corrected form does is not changed by any further
correction, whatever the request, and the other attributes do not count.
-/

namespace SafeForms

namespace Text

theorem lowerChars_lowerChars (cs : List Char) : lowerChars (lowerChars cs) = lowerChars cs := by
  simp [lowerChars]

theorem lowerChars_eq_self_iff (cs : List Char) :
    lowerChars cs = cs ↔ ∀ c ∈ cs, c.toLower = c := by
  have same := List.map_inj_left (l := cs) (f := Char.toLower) (g := id)
  rwa [List.map_id] at same

theorem lower_lower (s : String) : lower (lower s) = lower s := by
  rw [← String.toList_inj]
  simp only [toList_lower, lowerChars_lowerChars]

theorem lower_eq_empty_iff (s : String) : lower s = "" ↔ s = "" := by
  rw [← String.toList_inj, ← String.toList_inj, toList_lower, String.toList_empty, lowerChars,
    List.map_eq_nil_iff]

end Text

namespace Attributes

theorem erase_of_get?_none {name : String} {attrs : Attributes} (h : attrs.get? name = none) :
    attrs.erase name = attrs := by
  have absent : attrs.has name = false := by rw [has_eq_isSome, h]; rfl
  refine List.filter_eq_self.mpr fun a ha => ?_
  have := List.any_eq_false.mp absent a ha
  simpa using this

end Attributes

namespace Method

theorem resolve_of_lower {m : String} (nonempty : m ≠ "") (low : Text.lower m = m) :
    resolve (some m) = if m = "get" then get else if m = "post" then post else other m := by
  simp [resolve, nonempty, low]

theorem text_resolve_ne_empty (declared : Option String) : (resolve declared).text ≠ "" := by
  unfold resolve
  split
  · decide
  · next value =>
    split
    · decide
    · next h =>
      simp only
      split
      · decide
      · split
        · decide
        · rwa [text, ne_eq, Text.lower_eq_empty_iff]

theorem lower_text_resolve (declared : Option String) :
    Text.lower (resolve declared).text = (resolve declared).text := by
  unfold resolve
  split
  · decide
  · split
    · decide
    · simp only
      split
      · decide
      · split
        · decide
        · exact Text.lower_lower _

/-- A resolved method is known by its text. -/
theorem text_resolve_eq_get_iff (declared : Option String) :
    (resolve declared).text = "get" ↔ resolve declared = get := by
  unfold resolve
  split
  · simp [text]
  · simp only
    repeat' split
    all_goals simp_all [text]

theorem text_resolve_eq_post_iff (declared : Option String) :
    (resolve declared).text = "post" ↔ resolve declared = post := by
  unfold resolve
  split
  · simp [text]
  · simp only
    repeat' split
    all_goals simp_all [text]

end Method

namespace Target

theorem text_coerce (declared : Option String) :
    (coerce declared).text = "_top" ∨ (coerce declared).text = "_blank" := by
  rw [coerce]
  split
  · exact .inl rfl
  · exact .inr rfl

theorem text_coerce_of_text {value : String} (h : value = "_top" ∨ value = "_blank") :
    (coerce (some value)).text = value := by
  rcases h with rfl | rfl <;> simp [coerce, withinWindow, text]

end Target

namespace Form

/-- The value that a corrected form posts to. -/
def postEndpoint (r : Request) (attrs : Attributes) : String :=
  match Endpoint.declared? (attrs.get? "action-xhr") with
  | none => endpointOf r attrs
  | some declared => Endpoint.downgrade false declared

theorem get?_declare (name value other : String) (report : Option String → String → Event)
    (attrs : Attributes) :
    Attributes.get? other (declare name value report attrs).1 =
      if other = name then some value else attrs.get? other := by
  by_cases h : attrs.get? name = some value
  · by_cases same : other = name
    · simp [declare, same, h]
    · simp [declare, same, h]
  · simp [declare, h, Attributes.get?_set]

theorem declare_of_get? {name value : String} (report : Option String → String → Event)
    {attrs : Attributes} (h : attrs.get? name = some value) :
    declare name value report attrs = (attrs, []) := by
  simp [declare, h]

theorem get?_reviseXhr (endpoint other : String) (attrs : Attributes) :
    Attributes.get? other (reviseXhr endpoint attrs).1 =
      if other = "action-xhr" then
        some (match Endpoint.declared? (attrs.get? "action-xhr") with
          | none => endpoint
          | some declared => Endpoint.downgrade false declared)
      else attrs.get? other := by
  rw [reviseXhr]
  cases e : Endpoint.declared? (attrs.get? "action-xhr") with
  | none => simp [Attributes.get?_set]
  | some declared =>
      have value := (Option.filter_eq_some_iff.mp e).1
      by_cases h : Endpoint.isPlain false declared = false
      · have same := (Endpoint.length_downgrade_eq_iff false declared).mpr h
        by_cases hx : other = "action-xhr"
        · simp [hx, value, Endpoint.downgrade_of_not_isPlain h]
        · simp [same, hx]
      · have shorter := mt (Endpoint.length_downgrade_eq_iff false declared).mp h
        simp [shorter, Attributes.get?_set]

theorem get?_reviseEndpoints (r : Request) (m : Method) (other : String) (attrs : Attributes) :
    Attributes.get? other (reviseEndpoints r m attrs).1 =
      match m with
      | .get => if other = "action" then some (endpointOf r attrs) else attrs.get? other
      | .post =>
        if other = "action-xhr" then some (postEndpoint r attrs)
        else if other = "action" then none else attrs.get? other
      | .other _ => attrs.get? other := by
  cases m with
  | get => simp only [reviseEndpoints, get?_declare]
  | post => simp [reviseEndpoints, get?_reviseXhr, Attributes.get?_erase, postEndpoint]
  | other name => rfl

theorem correct_eq (r : Request) (attrs : Attributes) :
    correct r attrs =
      (reviseTarget (reviseEndpoints r (methodOf attrs) (reviseMethod attrs).1).1).1 := rfl

/-- The endpoints do not depend on the method attribute. -/
theorem endpointOf_reviseMethod (r : Request) (attrs : Attributes) :
    endpointOf r (reviseMethod attrs).1 = endpointOf r attrs := by
  simp [endpointOf, reviseMethod, get?_declare]

theorem postEndpoint_reviseMethod (r : Request) (attrs : Attributes) :
    postEndpoint r (reviseMethod attrs).1 = postEndpoint r attrs := by
  rw [postEndpoint, endpointOf_reviseMethod]
  simp [postEndpoint, reviseMethod, get?_declare]

/-- A corrected form, read by name. -/
def correctedValue (r : Request) (attrs : Attributes) (name : String) : Option String :=
  if name = "method" then some (methodOf attrs).text
  else if name = "target" then some (Target.coerce (attrs.get? "target")).text
  else
    match methodOf attrs with
    | .get => if name = "action" then some (endpointOf r attrs) else attrs.get? name
    | .post =>
      if name = "action-xhr" then some (postEndpoint r attrs)
      else if name = "action" then none else attrs.get? name
    | .other _ => attrs.get? name

theorem get?_correct (r : Request) (attrs : Attributes) (name : String) :
    Attributes.get? name (correct r attrs) = correctedValue r attrs name := by
  have reviseMethod_get? : ∀ other, Attributes.get? other (reviseMethod attrs).1 =
      if other = "method" then some (methodOf attrs).text else attrs.get? other := fun other =>
    get?_declare _ _ _ _ _
  rw [correct_eq, reviseTarget, get?_declare]
  simp only [get?_reviseEndpoints, reviseMethod_get?, endpointOf_reviseMethod,
    postEndpoint_reviseMethod, correctedValue]
  by_cases target : name = "target"
  · subst target
    cases methodOf attrs <;> simp
  · by_cases method : name = "method"
    · subst method
      cases methodOf attrs <;> simp
    · simp [target, method]

/-- The attributes that the correction of a form is about. -/
def submissionNames : List String := ["method", "action", "action-xhr", "target"]

/-- What a form declares that needs no correction. -/
structure Conforms (attrs : Attributes) : Prop where
  method : ∃ m, attrs.get? "method" = some m ∧ m ≠ "" ∧ Text.lower m = m
  action : attrs.get? "method" = some "get" →
    ∃ url, attrs.get? "action" = some url ∧ url ≠ "" ∧ Endpoint.isPlain true url = false
  noAction : attrs.get? "method" = some "post" → attrs.get? "action" = none
  xhr : attrs.get? "method" = some "post" →
    ∃ url, attrs.get? "action-xhr" = some url ∧ url ≠ "" ∧ Endpoint.isPlain false url = false
  target : attrs.get? "target" = some "_top" ∨ attrs.get? "target" = some "_blank"

theorem Conforms.congr {attrs other : Attributes}
    (same : ∀ name ∈ submissionNames, Attributes.get? name other = attrs.get? name)
    (h : Conforms attrs) : Conforms other := by
  have method := same "method" (by decide)
  have action := same "action" (by decide)
  have xhr := same "action-xhr" (by decide)
  have target := same "target" (by decide)
  exact ⟨method ▸ h.method, fun m => action ▸ h.action (method ▸ m),
    fun m => action ▸ h.noAction (method ▸ m), fun m => xhr ▸ h.xhr (method ▸ m),
    target ▸ h.target⟩

theorem endpointOf_ne_empty (r : Request) (attrs : Attributes) : endpointOf r attrs ≠ "" := by
  rw [endpointOf, Endpoint.resolve, ne_eq, Endpoint.downgrade_eq_empty_iff]
  cases e : Endpoint.declared? (attrs.get? "action") with
  | none =>
      intro h
      have := congrArg String.toList h
      simp [Request.defaultUrl] at this
  | some url =>
      have := (Option.filter_eq_some_iff.mp e).2
      simpa using this

theorem isPlain_endpointOf (r : Request) (attrs : Attributes) :
    Endpoint.isPlain true (endpointOf r attrs) = false :=
  Endpoint.isPlain_downgrade true _

theorem isPlain_false_of_true {url : String} (h : Endpoint.isPlain true url = false) :
    Endpoint.isPlain false url = false := by
  rw [Bool.eq_false_iff] at h ⊢
  intro plain
  rw [Endpoint.isPlain_eq] at h plain
  exact h (Endpoint.beginsPlain_true_of plain)

theorem postEndpoint_ne_empty (r : Request) (attrs : Attributes) : postEndpoint r attrs ≠ "" := by
  rw [postEndpoint]
  cases e : Endpoint.declared? (attrs.get? "action-xhr") with
  | none => exact endpointOf_ne_empty r attrs
  | some url =>
      have := (Option.filter_eq_some_iff.mp e).2
      rw [ne_eq, Endpoint.downgrade_eq_empty_iff]
      simpa using this

theorem isPlain_postEndpoint (r : Request) (attrs : Attributes) :
    Endpoint.isPlain false (postEndpoint r attrs) = false := by
  rw [postEndpoint]
  cases Endpoint.declared? (attrs.get? "action-xhr") with
  | none => exact isPlain_false_of_true (isPlain_endpointOf r attrs)
  | some url => exact Endpoint.isPlain_downgrade false url

theorem get?_method_correct (r : Request) (attrs : Attributes) :
    Attributes.get? "method" (correct r attrs) = some (methodOf attrs).text := by
  rw [get?_correct]
  rfl

theorem methodOf_of_get?_correct {r : Request} {attrs : Attributes} :
    (Attributes.get? "method" (correct r attrs) = some "get" → methodOf attrs = .get) ∧
      (Attributes.get? "method" (correct r attrs) = some "post" → methodOf attrs = .post) := by
  rw [get?_method_correct, Option.some.injEq, Option.some.injEq]
  exact ⟨(Method.text_resolve_eq_get_iff _).mp, (Method.text_resolve_eq_post_iff _).mp⟩

theorem conforms_correct (r : Request) (attrs : Attributes) : Conforms (correct r attrs) where
  method :=
    ⟨_, get?_method_correct r attrs, Method.text_resolve_ne_empty _, Method.lower_text_resolve _⟩
  action m := by
    refine ⟨endpointOf r attrs, ?_, endpointOf_ne_empty r attrs, isPlain_endpointOf r attrs⟩
    simp [get?_correct, correctedValue, methodOf_of_get?_correct.1 m]
  noAction m := by simp [get?_correct, correctedValue, methodOf_of_get?_correct.2 m]
  xhr m := by
    refine ⟨postEndpoint r attrs, ?_, postEndpoint_ne_empty r attrs, isPlain_postEndpoint r attrs⟩
    simp [get?_correct, correctedValue, methodOf_of_get?_correct.2 m]
  target := by
    rw [get?_correct]
    exact (Target.text_coerce _).imp (congrArg some) (congrArg some)

theorem declared?_of_ne_empty {url : String} (h : url ≠ "") :
    Endpoint.declared? (some url) = some url := by
  simp [Endpoint.declared?, h]

theorem reviseEndpoints_of_conforms (r : Request) {attrs : Attributes} (h : Conforms attrs) :
    (reviseEndpoints r (methodOf attrs) attrs).1 = attrs := by
  obtain ⟨m, declared, nonempty, low⟩ := h.method
  rw [methodOf, declared, Method.resolve_of_lower nonempty low]
  by_cases get : m = "get"
  · obtain ⟨url, action, hu, secure⟩ := h.action (get ▸ declared)
    have endpoint : endpointOf r attrs = url := by
      rw [endpointOf, action, Endpoint.resolve, declared?_of_ne_empty hu, Option.getD_some,
        Endpoint.downgrade_of_not_isPlain secure]
    simp [get, reviseEndpoints, declare, action, endpoint]
  · by_cases post : m = "post"
    · obtain ⟨url, xhr, hu, secure⟩ := h.xhr (post ▸ declared)
      have noAction := Attributes.erase_of_get?_none (h.noAction (post ▸ declared))
      simp [post, reviseEndpoints, reviseXhr, noAction, xhr, declared?_of_ne_empty hu,
        Endpoint.downgrade_of_not_isPlain secure]
    · simp [get, post, reviseEndpoints]

theorem correct_of_conforms (r : Request) {attrs : Attributes} (h : Conforms attrs) :
    correct r attrs = attrs := by
  obtain ⟨m, declared, nonempty, low⟩ := h.method
  have method : (reviseMethod attrs).1 = attrs := by
    have text : (methodOf attrs).text = m := by
      rw [methodOf, declared, Method.resolve_of_lower nonempty low]
      split
      · simp_all [Method.text]
      · split
        · simp_all [Method.text]
        · rfl
    rw [reviseMethod, text, declare_of_get? _ declared]
  have target : (reviseTarget attrs).1 = attrs := by
    obtain ⟨value, t, known⟩ : ∃ value, attrs.get? "target" = some value ∧
        (value = "_top" ∨ value = "_blank") :=
      h.target.elim (fun t => ⟨_, t, .inl rfl⟩) fun t => ⟨_, t, .inr rfl⟩
    rw [reviseTarget, t, Target.text_coerce_of_text known, declare_of_get? _ t]
  rw [correct_eq, method, reviseEndpoints_of_conforms r h, target]

/-- A form is left alone by a correction exactly if it declares what a corrected form does. -/
theorem correct_eq_self_iff (r : Request) (attrs : Attributes) :
    correct r attrs = attrs ↔ Conforms attrs := by
  constructor
  · intro h
    exact h ▸ conforms_correct r attrs
  · exact correct_of_conforms r

@[simp] theorem correct_correct (r s : Request) (attrs : Attributes) :
    correct s (correct r attrs) = correct r attrs :=
  correct_of_conforms s (conforms_correct r attrs)

end Form
end SafeForms
