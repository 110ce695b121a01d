import SafeForms.Proofs.DefaultEndpoint

/-!
When the request that a page is served for matters. It comes into a form in one place only, the
address of the page, and only into a form that needs an address and declares none. So two requests
lead to the same page exactly if their addresses are the same text, however it is divided into host
and path, or no form of the page takes it (`sanitize_eq_sanitize_iff`).
-/

namespace SafeForms

namespace Form

theorem defaultUrl_eq_iff (r s : Request) :
    r.defaultUrl = s.defaultUrl ↔ r.host ++ r.uri = s.host ++ s.uri := by
  rw [Request.defaultUrl, Request.defaultUrl, ← String.toList_inj, ← String.toList_inj]
  simp

theorem declared?_eq_none_iff (value : Option String) :
    Endpoint.declared? value = none ↔ value = none ∨ value = some "" := by
  cases value with
  | none => simp [Endpoint.declared?]
  | some url => simp [Endpoint.declared?]

/-- Two corrections of one form agree exactly if it does not take the address of the page, or the
page has one address. -/
theorem correct_eq_correct_iff (r s : Request) (attrs : Attributes) :
    correct r attrs = correct s attrs ↔ (TakesDefault attrs → r.defaultUrl = s.defaultUrl) := by
  constructor
  · intro same takes
    obtain ⟨name, -, list, ⟨before, after, written⟩, corrected⟩ := slot_correct takes
    rw [corrected, corrected, written, written, List.append_cancel_left_eq, List.cons.injEq] at same
    exact congrArg Attribute.value same.1
  · intro agree
    by_cases takes : TakesDefault attrs
    · obtain ⟨name, -, list, -, corrected⟩ := slot_correct takes
      rw [corrected, corrected, agree takes]
    · exact correct_congr takes r s

end Form

namespace Dom

/-- Two corrections of the chosen nodes agree exactly if they agree on the forms among them. -/
theorem correctWhere_request_iff (dom : Dom) (r s : Request) (chosen : NodeId → Bool) :
    dom.correctWhere r chosen = dom.correctWhere s chosen ↔
      ∀ id attrs, chosen id = true → dom.isHtml "form" (.node id) = true →
        dom.attrs? (.node id) = some attrs → Form.correct r attrs = Form.correct s attrs := by
  constructor
  · intro same id attrs picked form found
    have left := attrs?_correctWhere dom r chosen id
    rw [same, attrs?_correctWhere, found, picked, form] at left
    simpa using left.symm
  · intro agree
    refine ext_nodes rfl fun id => ?_
    rw [getElem?_correctWhere, getElem?_correctWhere]
    refine Option.map_congr fun n hn => ?_
    by_cases picked : chosen id = true
    · by_cases form : n.isHtml "form" = true
      · have isForm : dom.isHtml "form" (.node id) = true := by simp [isHtml, node?, hn, form]
        rw [if_pos picked, if_pos picked, Node.correctForm_of_isHtml form,
          Node.correctForm_of_isHtml form]
        cases n with
        | element e =>
            have found : dom.attrs? (.node id) = some e.attrs := by
              simp [attrs?, node?, hn, Node.attrs?]
            rw [Node.mapAttrs, Node.mapAttrs, agree id e.attrs picked isForm found]
        | _ => cases form
      · rw [Bool.not_eq_true] at form
        rw [Node.correctForm_of_not_isHtml form, Node.correctForm_of_not_isHtml form]
    · rw [if_neg picked, if_neg picked]

/-- The request that a page is served for shows in its forms exactly through its address, and only
if some form of the page takes it. A form that does not is the same for all requests. -/
theorem sanitize_eq_sanitize_iff (dom : Dom) (r s : Request) :
    let empty (id : NodeId) (name : String) := dom.get? (.node id) name ∈ [none, some ""]
    let method (id : NodeId) := Method.resolve (dom.get? (.node id) "method")
    let takes (id : NodeId) := dom.Below root id ∧ dom.isHtml "form" (.node id) = true ∧
      empty id "action" ∧ (method id = .get ∨ method id = .post ∧ empty id "action-xhr")
    ((dom.sanitize r).1 = (dom.sanitize s).1 ↔
      r.host ++ r.uri = s.host ++ s.uri ∨ ¬ ∃ id, takes id) ∧
      ∀ id, ¬ takes id →
        (dom.sanitize r).1.attrs? (.node id) = (dom.sanitize s).1.attrs? (.node id) := by
  intro empty method takes
  have needs : ∀ id attrs, dom.attrs? (.node id) = some attrs →
      (takes id ↔ dom.Below root id ∧ dom.isHtml "form" (.node id) = true ∧
        Form.TakesDefault attrs) := by
    intro id attrs found
    have read : ∀ name, dom.get? (.node id) name = attrs.get? name := fun name => by
      rw [get?, found, Option.bind_some]
    simp only [takes, empty, method, Form.TakesDefault, Form.methodOf, read,
      Form.declared?_eq_none_iff, List.mem_cons, List.not_mem_nil, or_false]
  refine ⟨?_, fun id apart => ?_⟩
  · rw [sanitize, sanitize, sanitize_eq_correctBelow, sanitize_eq_correctBelow, correctBelow,
      correctBelow, correctWhere_request_iff]
    simp only [decide_eq_true_eq, Form.correct_eq_correct_iff, Form.defaultUrl_eq_iff]
    constructor
    · intro agree
      by_cases any : ∃ id, takes id
      · obtain ⟨id, taking⟩ := any
        obtain ⟨attrs, found⟩ := attrs?_of_isHtml taking.2.1
        obtain ⟨below, form, default⟩ := (needs id attrs found).mp taking
        exact .inl (agree id attrs below form found default)
      · exact .inr any
    · rintro (same | nowhere) id attrs below form found default
      · exact same
      · exact absurd ⟨id, (needs id attrs found).mpr ⟨below, form, default⟩⟩ nowhere
  · rw [attrs?_sanitize, attrs?_sanitize]
    refine Option.map_congr fun attrs found => ?_
    by_cases corrected : dom.Below root id ∧ dom.isHtml "form" (.node id) = true
    · rw [if_pos corrected, if_pos corrected]
      refine Form.correct_congr (fun default => apart ?_) r s
      exact (needs id attrs found).mpr ⟨corrected.1, corrected.2, default⟩
    · rw [if_neg corrected, if_neg corrected]

/-- A form that takes the address of the page, beside one that declares where it is sent. -/
theorem sanitize_eq_sanitize_of_split :
    let dom := ofMarkup (.node (.element ⟨.html, "form", [⟨.null, "action", "/c"⟩]⟩) .nil .nil
      (.leaf (.element ⟨.html, "form", [⟨.null, "method", "POST"⟩, ⟨.null, "action", ""⟩]⟩)))
    let page := fun r => (dom.sanitize r).1
    page ⟨"a", "/b"⟩ = page ⟨"a/", "b"⟩ ∧ page ⟨"a", "/b"⟩ ≠ page ⟨"a", "/"⟩ ∧
      (page ⟨"a", "/b"⟩).attrs? (.node 1) = (page ⟨"a", "/"⟩).attrs? (.node 1) := by
  intro dom page
  obtain ⟨differ, kept⟩ := sanitize_eq_sanitize_iff dom ⟨"a", "/b"⟩ ⟨"a", "/"⟩
  refine ⟨?_, ?_, kept 1 (by decide)⟩
  · exact (sanitize_eq_sanitize_iff dom ⟨"a", "/b"⟩ ⟨"a/", "b"⟩).1.mpr (.inl (by decide))
  · refine fun same => (differ.mp same).elim (by decide) fun nowhere => nowhere ⟨2, ?_⟩
    decide

end Dom
end SafeForms
