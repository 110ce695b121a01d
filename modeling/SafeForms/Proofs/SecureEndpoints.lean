import SafeForms.Proofs.SanitizeMap

/-!
Where the forms of a corrected document are sent. A form that is fetched has an address that is not
a plaintext one in any spelling; a form that is posted has no action, and the address it posts to
can be a plaintext one only in the spelling with capitals in which the form declared it; a form of
another method keeps what it declared.
-/

namespace SafeForms

namespace Attributes

/-- Every value that is declared under a name, in order. -/
def values (name : String) (attrs : Attributes) : List String :=
  (attrs.filter (·.isNamed name)).map (·.value)

theorem values_set_of_ne {name other value : String} (h : other ≠ name) (attrs : Attributes) :
    values other (attrs.set name value) = values other attrs := by
  induction attrs with
  | nil => simp [set, values, Attribute.isNamed, Ne.symm h]
  | cons a attrs ih =>
      simp only [values] at ih
      by_cases ha : a.isNamed name
      · have before := isNamed_of_ne ha h
        have after : (Attribute.mk a.ns a.name value).isNamed other = false := before
        simp [set, values, ha, before, after]
      · by_cases ho : a.isNamed other <;> simp [set, values, ha, ho, ih]

theorem has_eq_false_iff (name : String) (attrs : Attributes) :
    attrs.has name = false ↔ attrs.get? name = none := by
  rw [has_eq_isSome, Option.isSome_eq_false_iff, Option.isNone_iff_eq_none]

end Attributes

namespace Form

theorem values_declare_of_ne {name other value : String} (h : other ≠ name)
    (report : Option String → String → Event) (attrs : Attributes) :
    Attributes.values other (declare name value report attrs).1 = attrs.values other := by
  by_cases same : attrs.get? name = some value
  · simp [declare, same]
  · simp [declare, same, Attributes.values_set_of_ne h]

theorem values_correct_of_other {r : Request} {attrs : Attributes} {m name : String}
    (other : methodOf attrs = .other m) (notMethod : name ≠ "method") (notTarget : name ≠ "target") :
    Attributes.values name (correct r attrs) = attrs.values name := by
  rw [correct_eq, other, reviseTarget, values_declare_of_ne notTarget, reviseEndpoints, reviseMethod,
    values_declare_of_ne notMethod]

/-- The address that a form posts to begins with the scheme in some spelling exactly if the form
declared one that does, but not in lower case. -/
theorem isPlain_true_postEndpoint_iff (r : Request) (attrs : Attributes) :
    Endpoint.isPlain true (postEndpoint r attrs) = true ↔
      ∃ declared, attrs.get? "action-xhr" = some declared ∧
        Endpoint.isPlain true declared = true ∧ Endpoint.isPlain false declared = false := by
  have secure := isPlain_endpointOf r attrs
  rw [postEndpoint]
  cases e : Endpoint.declared? (attrs.get? "action-xhr") with
  | none =>
      simp only [secure, Bool.false_eq_true, false_iff, not_exists, not_and]
      intro declared found plain
      rw [found] at e
      have empty : declared = "" := by simpa [Endpoint.declared?] using e
      subst empty
      simp [Endpoint.isPlain_eq, Endpoint.beginsPlain_true_iff, Endpoint.toList_plainScheme] at plain
  | some declared =>
      have found := (Option.filter_eq_some_iff.mp e).1
      simp only [found, Option.some.injEq, exists_eq_left']
      by_cases lower : Endpoint.isPlain false declared = true
      · simp [lower, Endpoint.isPlain_downgrade_of_isPlain true lower]
      · rw [Bool.not_eq_true] at lower
        simp [lower, Endpoint.downgrade_of_not_isPlain lower]

end Form

namespace Endpoint

theorem isUpper_of_toLower {c d : Char} (h : c.toLower = d) (mark : d.isLower = false) :
    c.isUpper = false := by
  rw [Bool.eq_false_iff]
  intro upper
  have letter : c.toLower.isLower = true := by
    rw [Char.isLower_toLower_eq_isAlpha]
    simp [Char.isAlpha, upper]
  rw [h, mark] at letter
  contradiction

theorem eq_folded_iff {cs folded : List Char} (h : cs.map Char.toLower = folded) :
    cs = folded ↔ ∀ c ∈ cs, c.isUpper = false := by
  constructor
  · rintro rfl c hc
    rw [← h] at hc
    obtain ⟨d, _, rfl⟩ := List.mem_map.mp hc
    exact Char.isUpper_toLower_eq_false d
  · intro small
    rw [← h]
    have kept : cs.map Char.toLower = cs.map id :=
      List.map_congr_left fun c hc => Char.toLower_eq_of_not_isUpper (by simp [small c hc])
    rw [kept, List.map_id]

/-- Of the spellings of the scheme only the one without capitals is the plain one. -/
theorem isPlain_false_eq_false_iff {url : String} (plain : isPlain true url = true) :
    isPlain false url = false ↔ ∃ c ∈ url.toList.take 4, c.isUpper = true := by
  rw [isPlain_eq] at plain ⊢
  have folded := (beginsPlain_true_iff _).mp plain
  have cut : url.toList.take 7 = url.toList.take 4 ++ (url.toList.drop 4).take 3 := by
    rw [← List.take_add]
  -- the colon and the slashes have no capitals
  have marks : ∀ c ∈ (url.toList.drop 4).take 3, c.isUpper = false := by
    intro c hc
    rw [cut, toList_plainScheme, List.map_append] at folded
    have tail : ((url.toList.drop 4).take 3).map Char.toLower = [':', '/', '/'] := by
      have length := congrArg List.length folded
      simp only [List.length_append, List.length_map, List.length_take, List.length_drop,
        List.length_cons, List.length_nil] at length
      have := congrArg (List.drop 4) folded
      rwa [List.drop_left' (by simp only [List.length_map, List.length_take]; omega)] at this
    have mem := List.mem_map_of_mem (f := Char.toLower) hc
    rw [tail] at mem
    simp only [List.mem_cons, List.not_mem_nil, or_false] at mem
    rcases mem with e | e | e <;> exact isUpper_of_toLower e (by decide)
  rw [← Bool.not_eq_true, beginsPlain_false_iff, eq_folded_iff folded, cut]
  constructor
  · intro capital
    by_contra none
    refine capital fun c hc => ?_
    rcases List.mem_append.mp hc with hc | hc
    · rw [Bool.eq_false_iff]
      exact fun upper => none ⟨c, hc, upper⟩
    · exact marks c hc
  · rintro ⟨c, hc, upper⟩ small
    rw [small c (List.mem_append_left _ hc)] at upper
    contradiction

end Endpoint

namespace Dom

/-- Every value that a node declares under a name, in order. -/
def values (dom : Dom) (h : Handle) (name : String) : List String :=
  ((dom.attrs? h).getD []).values name

/-- What a form below the document declares after the correction: a method, the endpoint that goes
with it, and a target. -/
theorem endpoints_of_sanitized_form (dom : Dom) (r : Request) (id : NodeId)
    (below : dom.Below root id) (form : dom.isHtml "form" (.node id) = true) :
    let after := (dom.sanitize r).1
    ∃ m, after.get? (.node id) "method" = some m ∧ m ≠ "" ∧
      (m = "get" → ∃ url, after.get? (.node id) "action" = some url ∧ url ≠ "" ∧
        Endpoint.beginsPlain true url.toList = false) ∧
      (m = "post" → after.has (.node id) "action" = false ∧
        ∃ url, after.get? (.node id) "action-xhr" = some url ∧ url ≠ "" ∧
          Endpoint.beginsPlain false url.toList = false ∧
          (Endpoint.beginsPlain true url.toList = true ↔
            ∃ declared, dom.get? (.node id) "action-xhr" = some declared ∧
              Endpoint.beginsPlain true declared.toList = true ∧
              ∃ c ∈ declared.toList.take 4, c.isUpper = true)) ∧
      (m ≠ "get" → m ≠ "post" →
        after.values (.node id) "action" = dom.values (.node id) "action" ∧
          after.values (.node id) "action-xhr" = dom.values (.node id) "action-xhr") ∧
      (after.get? (.node id) "target" = some "_top" ∨
        after.get? (.node id) "target" = some "_blank") := by
  intro after
  obtain ⟨attrs, declared⟩ := attrs?_of_isHtml form
  have corrected : after.attrs? (.node id) = some (Form.correct r attrs) := by
    rw [attrs?_sanitize, declared, Option.map_some, if_pos ⟨below, form⟩]
  have conforms := Form.conforms_correct r attrs
  have read : ∀ name, after.get? (.node id) name = (Form.correct r attrs).get? name := by
    intro name
    rw [get?, corrected, Option.bind_some]
  have before : ∀ name, dom.get? (.node id) name = attrs.get? name := by
    intro name
    rw [get?, declared, Option.bind_some]
  have shown : ∀ name, after.has (.node id) name = (Form.correct r attrs).has name := by
    intro name
    rw [has, corrected, Option.any_some]
  obtain ⟨m, method, nonempty, low⟩ := conforms.method
  simp only [read, before, shown]
  refine ⟨m, method, nonempty, ?_, ?_, ?_, conforms.target⟩
  · rintro rfl
    obtain ⟨url, action, hu, secure⟩ := conforms.action method
    exact ⟨url, action, hu, Endpoint.isPlain_eq true url ▸ secure⟩
  · rintro rfl
    have post := Form.methodOf_of_get?_correct.2 method
    obtain ⟨url, xhr, hu, secure⟩ := conforms.xhr method
    refine ⟨(Attributes.has_eq_false_iff _ _).mpr (conforms.noAction method), url, xhr, hu,
      Endpoint.isPlain_eq false url ▸ secure, ?_⟩
    have given : url = Form.postEndpoint r attrs := by
      have : some url = some (Form.postEndpoint r attrs) := by
        rw [← xhr, Form.get?_correct]
        simp [Form.correctedValue, post]
      exact Option.some.inj this
    rw [← Endpoint.isPlain_eq, given, Form.isPlain_true_postEndpoint_iff]
    refine exists_congr fun value => and_congr_right fun _ => ?_
    rw [← Endpoint.isPlain_eq]
    exact and_congr_right Endpoint.isPlain_false_eq_false_iff
  · intro notGet notPost
    have other : Form.methodOf attrs = .other m := by
      have text := (Form.get?_method_correct r attrs).symm.trans method
      cases e : Form.methodOf attrs with
      | get => simp_all [Method.text]
      | post => simp_all [Method.text]
      | other name => simp_all [Method.text]
    rw [values, values, values, values, corrected, declared, Option.getD_some, Option.getD_some]
    exact ⟨Form.values_correct_of_other other (by decide) (by decide),
      Form.values_correct_of_other other (by decide) (by decide)⟩

/-- A posted form in a block, with two actions and a shouted address. -/
theorem endpoints_of_posted_form :
    let dom := ofMarkup (.node (.element ⟨.html, "div", []⟩) .nil
      (.leaf (.element ⟨.html, "form", [⟨.null, "method", "POST"⟩, ⟨.null, "action", "/a"⟩,
        ⟨.null, "action-xhr", "HTTP://b"⟩, ⟨.null, "action", "/c"⟩]⟩)) .nil)
    let after := (dom.sanitize {}).1
    dom.Below root 2 ∧ dom.isHtml "form" (.node 2) = true ∧
      after.has (.node 2) "action" = false ∧
      ∃ url, after.get? (.node 2) "action-xhr" = some url ∧ url ≠ "" ∧
        Endpoint.beginsPlain false url.toList = false := by
  intro dom after
  have below : dom.Below root 2 := by decide
  have form : dom.isHtml "form" (.node 2) = true := by decide
  obtain ⟨m, method, _, _, posted, _⟩ := endpoints_of_sanitized_form dom {} 2 below form
  have post : after.get? (.node 2) "method" = some "post" := by decide +kernel
  obtain ⟨gone, url, xhr, nonempty, secure, _⟩ := posted (Option.some.inj (method.symm.trans post))
  exact ⟨below, form, gone, url, xhr, nonempty, secure⟩

end Dom
end SafeForms
