import SafeForms.Proofs.SanitizeMap

/-!
Which candidates a correction is given. The document it leaves tells nothing of their order or of how
often each of them came: it is the same for two lists exactly if they agree on the forms that need a
correction (`normalize_eq_iff`), and two lists together do what the one and then the other does.
-/

namespace SafeForms

namespace Node

theorem correctForm_of_conforms {r : Request} {n : Node}
    (h : ∀ attrs, n.attrs? = some attrs → Form.Conforms attrs) : n.correctForm r = n := by
  rw [correctForm]
  split
  · cases n with
    | element e => rw [mapAttrs, Form.correct_of_conforms r (h e.attrs rfl)]
    | _ => rfl
  · rfl

end Node

namespace Dom

variable (dom : Dom) (r : Request)

/-- An HTML form that a correction changes, whatever the request. -/
def NeedsCorrection (h : Handle) : Prop :=
  dom.isHtml "form" h = true ∧ ∃ attrs, dom.attrs? h = some attrs ∧ ¬ Form.Conforms attrs

theorem correctWhere_eq_iff (chosen other : NodeId → Bool) :
    dom.correctWhere r chosen = dom.correctWhere r other ↔
      ∀ id, dom.NeedsCorrection (.node id) → chosen id = other id := by
  constructor
  · rintro same id ⟨form, attrs, found, faulty⟩
    have left := attrs?_correctWhere dom r chosen id
    rw [same, attrs?_correctWhere, found, form] at left
    have changed : Form.correct r attrs ≠ attrs := mt (Form.correct_eq_self_iff r attrs).mp faulty
    cases c : chosen id <;> cases o : other id <;> simp_all [changed.symm]
  · intro same
    refine ext_nodes rfl fun id => ?_
    rw [getElem?_correctWhere, getElem?_correctWhere]
    refine Option.map_congr fun n hn => ?_
    by_cases faulty : dom.NeedsCorrection (.node id)
    · rw [same id faulty]
    · have stays : n.correctForm r = n := by
        by_cases form : n.isHtml "form" = true
        · refine Node.correctForm_of_conforms fun attrs found => ?_
          by_contra wrong
          exact faulty ⟨by simp [isHtml, node?, hn, form],
            attrs, by simp [attrs?, node?, hn, found], wrong⟩
        · exact Node.correctForm_of_not_isHtml (by simpa using form)
      rw [stays, ite_self, ite_self]

/-- Two lists of candidates leave the same document exactly if they agree on the forms that need a
correction. -/
theorem normalize_eq_iff (hs others : List Handle) :
    (Form.normalize r dom hs).1 = (Form.normalize r dom others).1 ↔
      ∀ h, dom.NeedsCorrection h → (h ∈ hs ↔ h ∈ others) := by
  rw [normalize_eq, normalize_eq, correctWhere_eq_iff]
  constructor
  · intro same h faulty
    obtain ⟨id, rfl⟩ := eq_node_of_isHtml faulty.1
    simpa using same id faulty
  · intro same id faulty
    simpa using same (.node id) faulty

theorem normalize_append (hs others : List Handle) :
    (Form.normalize r dom (hs ++ others)).1 =
      (Form.normalize r (Form.normalize r dom hs).1 others).1 := by
  simp only [normalize_eq, correctWhere_correctWhere, List.mem_append, Bool.decide_or]

/-- Only the forms among the candidates count, and each of them once. -/
theorem normalize_by_forms (hs others : List Handle) :
    let run (dom : Dom) (hs : List Handle) := (Form.normalize r dom hs).1
    ((∀ h, dom.isHtml "form" h = true → (h ∈ hs ↔ h ∈ others)) → run dom hs = run dom others) ∧
      (run dom hs = run dom others ↔ ∀ h, dom.NeedsCorrection h → (h ∈ hs ↔ h ∈ others)) ∧
      run dom (hs ++ others) = run (run dom hs) others ∧
      run dom (hs ++ others) = run (run dom others) hs := by
  intro run
  have agree := normalize_eq_iff dom r hs others
  refine ⟨fun same => agree.mpr fun h faulty => same h faulty.1, agree,
    normalize_append dom r hs others, ?_⟩
  have swapped : run dom (hs ++ others) = run dom (others ++ hs) :=
    (normalize_eq_iff dom r _ _).mpr fun h _ => by rw [List.mem_append, List.mem_append, or_comm]
  rw [swapped]
  exact normalize_append dom r others hs

/-- Nested forms given twice and in another order, among a block, a text, the document and the
contents of a template. -/
theorem normalize_by_nested_forms :
    let dom := ofMarkup (.node (.element ⟨.html, "div", []⟩) .nil
      (.node (.element ⟨.html, "form", [⟨.null, "target", "x"⟩]⟩) .nil
        (.node (.text "a") .nil .nil (.leaf (.element ⟨.html, "form", []⟩))) .nil) .nil)
    let hs : List Handle := [.node 4, .node 2, .node 4, .node 3, .node 0]
    let others : List Handle := [.contents 1, .node 2, .node 1, .node 4]
    (∀ h, dom.isHtml "form" h = true → (h ∈ hs ↔ h ∈ others)) ∧
      (Form.normalize ⟨"h", "/"⟩ dom hs).1 = (Form.normalize ⟨"h", "/"⟩ dom others).1 := by
  intro dom hs others
  have same : ∀ h, dom.isHtml "form" h = true → (h ∈ hs ↔ h ∈ others) := by
    intro h form
    obtain ⟨id, rfl⟩ := eq_node_of_isHtml form
    have apart : id ≠ 0 ∧ id ≠ 1 ∧ id ≠ 3 := by
      refine ⟨?_, ?_, ?_⟩ <;> rintro rfl <;> exact absurd form (by decide)
    simp only [hs, others, List.mem_cons, Handle.node.injEq, reduceCtorEq, List.not_mem_nil,
      apart, or_false, false_or]
    exact or_iff_right_of_imp .inr
  exact ⟨same, (normalize_by_forms dom ⟨"h", "/"⟩ hs others).1 same⟩

end Dom
end SafeForms
