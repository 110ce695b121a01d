import SafeForms.Form.Pass
import SafeForms.Proofs.CorrectedAttributes
import SafeForms.Proofs.FormHistory

/-!
Form passes among other passes. A pass changes nodes apart from each other, so a run of passes is,
for every node, a run on its attributes alone (`attrs?_runAll`). Passes that leave the four
attributes of forms to the form passes commute with them outside of these, and do not unsettle a
corrected form; so the first form pass decides on the four, and for all else the form passes might
as well be left out (`first_form_pass_decides`).
-/

namespace SafeForms

namespace Dom

/-- Whether a node is an HTML element of this name below a handle. -/
def meets (dom : Dom) (root : Handle) (id : NodeId) (name : String) : Bool :=
  decide (dom.Below root id) && dom.isHtml name (.node id)

theorem mem_find_iff (dom : Dom) (root : Handle) (id : NodeId) (name : String) :
    id ∈ dom.find root name ↔ dom.meets root id name = true := by
  simp [find_eq, meets, mem_descendants_iff]

theorem nodup_find (dom : Dom) (root : Handle) (name : String) : (dom.find root name).Nodup := by
  rw [find_eq]
  exact (nodup_descendants dom root).filter _

/-- The documents differ in attributes only. -/
structure Alike (dom other : Dom) : Prop where
  shape : other.shape = dom.shape
  isHtml : ∀ name id, other.isHtml name (.node id) = dom.isHtml name (.node id)

theorem Alike.trans {a b c : Dom} (ab : Alike a b) (bc : Alike b c) : Alike a c where
  shape := bc.shape.trans ab.shape
  isHtml name id := (bc.isHtml name id).trans (ab.isHtml name id)

theorem Alike.meets {dom other : Dom} (alike : Alike dom other) (root : Handle) (id : NodeId) :
    other.meets root id = dom.meets root id := by
  have children : other.children root = dom.children root := by
    cases root <;> simp only [Dom.children, alike.shape]
  have below : other.Below root id ↔ dom.Below root id := by
    rw [← mem_descendants_iff, ← mem_descendants_iff, descendants, descendants, children]
  funext name
  simp only [Dom.meets, below, alike.isHtml]

theorem alike_mapAttrs (dom : Dom) (h : Handle) (change : Attributes → Attributes) :
    Alike dom (dom.mapAttrs h change) :=
  ⟨shape_mapAttrs dom h change, isHtml_mapAttrs dom h change⟩

theorem alike_foldl {step : Dom → NodeId → Dom} (each : ∀ dom id, Alike dom (step dom id))
    (ids : List NodeId) (dom : Dom) : Alike dom (ids.foldl step dom) := by
  induction ids generalizing dom with
  | nil => exact ⟨rfl, fun _ _ => rfl⟩
  | cons id ids ih => exact (each dom id).trans (ih (step dom id))

/-- Each node of a list is changed once. -/
theorem attrs?_foldl {step : Dom → NodeId → Dom} {change : Attributes → Attributes}
    (each : ∀ dom id other, (step dom id).attrs? (.node other) =
      if id = other then (dom.attrs? (.node other)).map change else dom.attrs? (.node other))
    {ids : List NodeId} (once : ids.Nodup) (dom : Dom) (other : NodeId) :
    (ids.foldl step dom).attrs? (.node other) =
      (dom.attrs? (.node other)).map fun attrs => if other ∈ ids then change attrs else attrs := by
  induction ids generalizing dom with
  | nil => simp
  | cons id ids ih =>
      obtain ⟨fresh, once⟩ := List.nodup_cons.mp once
      rw [List.foldl_cons, ih once, each]
      by_cases here : id = other
      · subst here
        cases dom.attrs? (.node id) <;> simp [fresh]
      · simp [here, Ne.symm here]

end Dom

namespace Pass

/-- What a pass does to the attributes of a node, where it is known which elements the node counts
among. -/
def effect (meets : String → Bool) (attrs : Attributes) : Pass → Attributes
  | form request => if meets "form" then Form.correct request attrs else attrs
  | stamp tag attr text =>
    if meets tag then attrs.set attr ((attrs.get? attr).getD "" ++ text) else attrs
  | strip tag attr => if meets tag then attrs.erase attr else attrs

/-- What the passes of a list do to the attributes of a node one after the other. -/
def effects (meets : String → Bool) (ps : List Pass) (attrs : Attributes) : Attributes :=
  ps.foldl (effect meets) attrs

theorem alike_run (p : Pass) (dom : Dom) (root : Handle) : dom.Alike (p.run dom root).1 := by
  cases p with
  | form request =>
      have run : ((form request).run dom root).1 = dom.correctBelow request root :=
        Dom.sanitize_eq_correctBelow dom request root
      rw [run]
      exact ⟨rfl, fun name id => Dom.isHtml_correctWhere dom request _ name (.node id)⟩
  | stamp tag attr text =>
      have each : ∀ dom id, Dom.Alike dom (stampOne attr text dom id) :=
        fun dom id => Dom.alike_mapAttrs dom (.node id) _
      exact Dom.alike_foldl each _ dom
  | strip tag attr =>
      have each : ∀ dom id, Dom.Alike dom (stripOne attr dom id) :=
        fun dom id => Dom.alike_mapAttrs dom (.node id) _
      exact Dom.alike_foldl each _ dom

theorem attrs?_run (p : Pass) (dom : Dom) (root : Handle) (id : NodeId) :
    (p.run dom root).1.attrs? (.node id) =
      (dom.attrs? (.node id)).map fun attrs => p.effect (dom.meets root id) attrs := by
  cases p with
  | form request =>
      have run : ((form request).run dom root).1 = dom.correctBelow request root :=
        Dom.sanitize_eq_correctBelow dom request root
      rw [run, Dom.correctBelow, Dom.attrs?_correctWhere]
      rfl
  | stamp tag attr text =>
      have each : ∀ (dom : Dom) (id other : NodeId),
          (stampOne attr text dom id).attrs? (.node other) =
            if id = other then (dom.attrs? (.node other)).map fun attrs =>
              attrs.set attr ((attrs.get? attr).getD "" ++ text)
            else dom.attrs? (.node other) := by
        intro dom id other
        rw [stampOne, Dom.set, Dom.attrs?_mapAttrs]
        by_cases here : id = other
        · subst here
          cases found : dom.attrs? (.node id) <;> simp [Dom.get?, found]
        · simp [here]
      rw [run, Dom.attrs?_foldl each (Dom.nodup_find dom root tag)]
      simp only [Dom.mem_find_iff, effect]
  | strip tag attr =>
      have each : ∀ (dom : Dom) (id other : NodeId),
          (stripOne attr dom id).attrs? (.node other) =
            if id = other then (dom.attrs? (.node other)).map fun attrs => attrs.erase attr
            else dom.attrs? (.node other) := by
        intro dom id other
        rw [stripOne, Dom.remove, Dom.attrs?_mapAttrs]
        simp only [Handle.node.injEq]
        rfl
      rw [run, Dom.attrs?_foldl each (Dom.nodup_find dom root tag)]
      simp only [Dom.mem_find_iff, effect]

/-- A run of passes, seen from one node. -/
theorem attrs?_runAll (ps : List Pass) (dom : Dom) (root : Handle) (id : NodeId) :
    (runAll dom root ps).1.attrs? (.node id) =
      (dom.attrs? (.node id)).map (effects (dom.meets root id) ps) := by
  induction ps generalizing dom with
  | nil => exact Option.map_id.symm ▸ rfl
  | cons p ps ih =>
      have first : (runAll dom root (p :: ps)).1 = (runAll (p.run dom root).1 root ps).1 := rfl
      rw [first, ih, attrs?_run, (alike_run p dom root).meets, Option.map_map]
      rfl

end Pass

namespace Form

/-- An entry that a correction is not about. -/
def isOutside (a : Attribute) : Bool := a.ns ≠ .null || a.name ∉ submissionNames

/-- The entries that a correction is not about. -/
def outside (attrs : Attributes) : Attributes := attrs.filter isOutside

theorem isOutside_of_isNamed {a : Attribute} {name : String} (named : a.isNamed name = true) :
    isOutside a = decide (name ∉ submissionNames) := by
  obtain ⟨null, rfl⟩ : a.ns = .null ∧ a.name = name := by simpa [Attribute.isNamed] using named
  simp [isOutside, null]

variable {name : String}

theorem get?_outside (spared : name ∉ submissionNames) (attrs : Attributes) :
    (outside attrs).get? name = attrs.get? name := by
  induction attrs with
  | nil => rfl
  | cons a attrs ih =>
      rw [outside] at ih
      by_cases named : a.isNamed name = true
      · have kept : isOutside a = true := by simp [isOutside_of_isNamed named, spared]
        simp [outside, kept, Attributes.get?_cons, named]
      · rw [outside, List.filter_cons, Attributes.get?_cons, if_neg named]
        split
        · rw [Attributes.get?_cons, if_neg named, ih]
        · exact ih

theorem outside_set (spared : name ∉ submissionNames) (value : String) (attrs : Attributes) :
    outside (attrs.set name value) = (outside attrs).set name value := by
  induction attrs with
  | nil => simp [outside, Attributes.set, isOutside, spared]
  | cons a attrs ih =>
      rw [outside, outside] at ih
      by_cases named : a.isNamed name = true
      · have kept : isOutside a = true := by simp [isOutside_of_isNamed named, spared]
        have changed : isOutside ⟨a.ns, a.name, value⟩ = true := kept
        simp [outside, Attributes.set, named, kept, changed]
      · by_cases kept : isOutside a = true <;> simp [outside, Attributes.set, named, kept, ih]

theorem outside_set_of_mem (known : name ∈ submissionNames) (value : String)
    (attrs : Attributes) : outside (attrs.set name value) = outside attrs := by
  induction attrs with
  | nil => simp [outside, Attributes.set, isOutside, known]
  | cons a attrs ih =>
      rw [outside, outside] at ih
      by_cases named : a.isNamed name = true
      · have dropped : isOutside a = false := by simp [isOutside_of_isNamed named, known]
        have changed : isOutside ⟨a.ns, a.name, value⟩ = false := dropped
        simp [outside, Attributes.set, named, dropped, changed]
      · by_cases kept : isOutside a = true <;> simp [outside, Attributes.set, named, kept, ih]

theorem outside_erase (name : String) (attrs : Attributes) :
    outside (attrs.erase name) = (outside attrs).erase name := by
  rw [outside, outside, Attributes.erase, Attributes.erase, List.filter_comm]

theorem outside_erase_of_mem (known : name ∈ submissionNames) (attrs : Attributes) :
    outside (attrs.erase name) = outside attrs := by
  rw [outside_erase, Attributes.erase, List.filter_eq_self]
  intro a ha
  rw [outside, List.mem_filter] at ha
  by_contra named
  rw [isOutside_of_isNamed (by simpa using named)] at ha
  simp [known] at ha

theorem outside_correct (r : Request) (attrs : Attributes) :
    outside (correct r attrs) = outside attrs := by
  have endpoints : ∀ list, outside (reviseEndpoints r (methodOf attrs) list).1 = outside list := by
    intro list
    cases methodOf attrs with
    | get => rw [reviseEndpoints, declare_fst, outside_set_of_mem (by decide)]
    | post =>
        rw [reviseEndpoints, reviseXhr_fst, outside_set_of_mem (by decide),
          outside_erase_of_mem (by decide)]
    | other name => rfl
  rw [correct_eq, reviseTarget, declare_fst, outside_set_of_mem (by decide), endpoints,
    reviseMethod, declare_fst, outside_set_of_mem (by decide)]

end Form

namespace Pass

def isForm : Pass → Bool
  | form _ => true
  | stamp _ _ _ | strip _ _ => false

/-- A pass that writes one of the four attributes of forms only by correcting them. -/
def Spares : Pass → Prop
  | form _ => True
  | stamp tag attr _ | strip tag attr => tag = "form" → attr ∉ Form.submissionNames

variable {meets : String → Bool}

theorem effects_cons (p : Pass) (ps : List Pass) (attrs : Attributes) :
    effects meets (p :: ps) attrs = effects meets ps (p.effect meets attrs) := rfl

theorem effects_append (ps more : List Pass) (attrs : Attributes) :
    effects meets (ps ++ more) attrs = effects meets more (effects meets ps attrs) :=
  List.foldl_append

/-- Where there is no form, the form passes do nothing. -/
theorem effects_of_not_form (other : meets "form" = false) (ps : List Pass) (attrs : Attributes) :
    effects meets ps attrs = effects meets (ps.filter fun p => !p.isForm) attrs := by
  induction ps generalizing attrs with
  | nil => rfl
  | cons p ps ih =>
      cases p with
      | form request =>
          have idle : effect meets attrs (form request) = attrs := by simp [effect, other]
          rw [effects_cons, idle, ih]
          rfl
      | stamp _ _ _ | strip _ _ => exact ih _

section Form

variable (alone : ∀ tag, meets tag = true → tag = "form")
include alone

/-- One pass over a form, outside of the four attributes. -/
theorem outside_effect {p : Pass} (spares : p.Spares) (attrs : Attributes) :
    Form.outside (p.effect meets attrs) =
      if p.isForm then Form.outside attrs else p.effect meets (Form.outside attrs) := by
  cases p with
  | form request =>
      simp only [effect, isForm, if_true]
      split
      · exact Form.outside_correct request attrs
      · rfl
  | stamp tag attr text =>
      simp only [effect, isForm, Bool.false_eq_true, if_false]
      split
      · next here =>
        have spared := spares (alone tag here)
        rw [Form.outside_set spared, Form.get?_outside spared]
      · rfl
  | strip tag attr =>
      simp only [effect, isForm, Bool.false_eq_true, if_false]
      split
      · exact Form.outside_erase attr attrs
      · rfl

theorem outside_effects {ps : List Pass} (spares : ∀ p ∈ ps, p.Spares) (attrs : Attributes) :
    Form.outside (effects meets ps attrs) =
      effects meets (ps.filter fun p => !p.isForm) (Form.outside attrs) := by
  induction ps generalizing attrs with
  | nil => rfl
  | cons p ps ih =>
      rw [List.forall_mem_cons] at spares
      rw [effects_cons, ih spares.2, outside_effect alone spares.1]
      cases e : p.isForm with
      | true => simp [e]
      | false => simp [e, effects_cons]

/-- A pass that is no form pass leaves the four attributes of a form alone. -/
theorem get?_effect {p : Pass} (spares : p.Spares) (kind : p.isForm = false) (attrs : Attributes)
    {name : String} (known : name ∈ Form.submissionNames) :
    Attributes.get? name (p.effect meets attrs) = attrs.get? name := by
  have apart : ∀ tag attr, meets tag = true → (tag = "form" → attr ∉ Form.submissionNames) →
      name ≠ attr := fun tag attr here spared e => spared (alone tag here) (e ▸ known)
  cases p with
  | form request => cases kind
  | stamp tag attr text =>
      rw [effect]
      split
      · next here => rw [Attributes.get?_set, if_neg (apart tag attr here spares)]
      · rfl
  | strip tag attr =>
      rw [effect]
      split
      · next here => rw [Attributes.get?_erase, if_neg (apart tag attr here spares)]
      · rfl

theorem get?_effects {ps : List Pass} (spares : ∀ p ∈ ps, p.Spares)
    (kinds : ∀ p ∈ ps, p.isForm = false) (attrs : Attributes)
    {name : String} (known : name ∈ Form.submissionNames) :
    Attributes.get? name (effects meets ps attrs) = attrs.get? name := by
  induction ps generalizing attrs with
  | nil => rfl
  | cons p ps ih =>
      rw [List.forall_mem_cons] at spares kinds
      rw [effects_cons, ih spares.2 kinds.2, get?_effect alone spares.1 kinds.1 attrs known]

/-- A form that conforms goes on to do so with the same four attributes. -/
theorem conforms_effects {ps : List Pass} (spares : ∀ p ∈ ps, p.Spares) {attrs : Attributes}
    (conforms : Form.Conforms attrs) :
    Form.Conforms (effects meets ps attrs) ∧ ∀ name ∈ Form.submissionNames,
      Attributes.get? name (effects meets ps attrs) = attrs.get? name := by
  induction ps generalizing attrs with
  | nil => exact ⟨conforms, fun _ _ => rfl⟩
  | cons p ps ih =>
      rw [List.forall_mem_cons] at spares
      have same : ∀ name ∈ Form.submissionNames,
          Attributes.get? name (p.effect meets attrs) = attrs.get? name := by
        intro name known
        cases e : p.isForm with
        | false => exact get?_effect alone spares.1 e attrs known
        | true =>
            cases p with
            | form request => rw [effect, Form.correct_of_conforms request conforms, ite_self]
            | _ => cases e
      obtain ⟨still, kept⟩ := ih spares.2 (conforms.congr same)
      exact ⟨still, fun name known => (kept name known).trans (same name known)⟩

end Form
end Pass

namespace Form

/-- The corrected values of the four attributes depend on these four alone. -/
theorem get?_correct_congr (r : Request) {attrs other : Attributes}
    (same : ∀ name ∈ submissionNames, Attributes.get? name other = attrs.get? name) {name : String}
    (known : name ∈ submissionNames) :
    Attributes.get? name (correct r other) = Attributes.get? name (correct r attrs) := by
  have method := same "method" (by decide)
  have action := same "action" (by decide)
  have xhr := same "action-xhr" (by decide)
  have target := same "target" (by decide)
  rw [get?_correct, get?_correct]
  simp only [correctedValue, methodOf, endpointOf, postEndpoint, method, action, xhr, target,
    same name known]

end Form
namespace Pass

theorem eq_form_of_meets {dom : Dom} {id : NodeId} (root : Handle)
    (form : dom.isHtml "form" (.node id) = true) (tag : String)
    (here : dom.meets root id tag = true) : tag = "form" := by
  have isTag : dom.isHtml tag (.node id) = true := (Bool.and_eq_true_iff.mp here).2
  rw [Dom.isHtml, Option.any_eq_true] at form isTag
  obtain ⟨n, found, isForm⟩ := form
  obtain ⟨m, again, isTag⟩ := isTag
  rw [found, Option.some.injEq] at again
  subst again
  cases n with
  | element e => exact (Element.isHtml_iff.mp isTag).2.symm.trans (Element.isHtml_iff.mp isForm).2
  | _ => cases isForm

/-- A form below the root after all passes: it conforms, with the values that the first form pass
would have given it before any other pass. -/
theorem conforms_runAll {dom : Dom} {root : Handle} {ps : List Pass} {first : Pass}
    (spares : ∀ p ∈ ps, p.Spares) (found : ps.find? isForm = some first) {id : NodeId}
    (below : dom.Below root id) (form : dom.isHtml "form" (.node id) = true) :
    ∃ attrs, (runAll dom root ps).1.attrs? (.node id) = some attrs ∧ Form.Conforms attrs ∧
      ∀ name ∈ Form.submissionNames,
        attrs.get? name = (first.run dom root).1.get? (.node id) name := by
  obtain ⟨kind, before, after, rfl, none⟩ := List.find?_eq_some_iff_append.mp found
  obtain ⟨attrs, declared⟩ := Dom.attrs?_of_isHtml form
  have here : dom.meets root id "form" = true := by simp [Dom.meets, below, form]
  have alone := eq_form_of_meets root form
  rw [List.forall_mem_append, List.forall_mem_cons] at spares
  obtain ⟨early, -, late⟩ := spares
  cases first with
  | form request =>
      have start : ∀ name ∈ Form.submissionNames,
          Attributes.get? name (effects (dom.meets root id) before attrs) = attrs.get? name :=
        fun _ known => get?_effects alone early (fun p hp => by simpa using none p hp) attrs known
      have corrected := Form.conforms_correct request (effects (dom.meets root id) before attrs)
      obtain ⟨conforms, kept⟩ := conforms_effects alone late corrected
      refine ⟨_, ?_, conforms, fun name known => ?_⟩
      · rw [attrs?_runAll, declared, Option.map_some, effects_append, effects_cons, effect,
          if_pos here]
      · rw [kept name known, Dom.get?, attrs?_run, declared, Option.map_some, Option.bind_some,
          effect, if_pos here]
        exact Form.get?_correct_congr request start known
  | _ => cases kind

/-- In a run of passes the first form pass decides on the forms below the root, and all else is as
without any form pass. -/
theorem first_form_pass_decides (dom : Dom) (root : Handle) (ps : List Pass) (first : Pass)
    (spares : ∀ p ∈ ps, p.Spares) (found : ps.find? isForm = some first) :
    let final := (runAll dom root ps).1
    let corrected := (first.run dom root).1
    let plain := (runAll dom root (ps.filter fun p => !p.isForm)).1
    (∀ id, dom.Below root id → dom.isHtml "form" (.node id) = true →
      (∀ name ∈ Form.submissionNames,
        final.get? (.node id) name = corrected.get? (.node id) name) ∧
      ∀ request other, ((form request).run final other).1.attrs? (.node id) =
        final.attrs? (.node id)) ∧
    ∀ id, (dom.isHtml "form" (.node id) = false →
        final.attrs? (.node id) = plain.attrs? (.node id)) ∧
      (final.attrs? (.node id)).map Form.outside = (plain.attrs? (.node id)).map Form.outside ∧
      ∀ name ∉ Form.submissionNames, final.get? (.node id) name = plain.get? (.node id) name := by
  intro final corrected plain
  refine ⟨fun id below form => ?_, fun id => ?_⟩
  · obtain ⟨attrs, after, conforms, same⟩ := conforms_runAll spares found below form
    refine ⟨fun name known => ?_, fun request other => ?_⟩
    · rw [Dom.get?, after, Option.bind_some, same name known]
    · rw [attrs?_run, after, Option.map_some, effect, Form.correct_of_conforms request conforms,
        ite_self]
  · have elsewhere : dom.isHtml "form" (.node id) = false →
        final.attrs? (.node id) = plain.attrs? (.node id) := by
      intro other
      rw [attrs?_runAll, attrs?_runAll]
      congr 1
      funext attrs
      exact effects_of_not_form (by simp [Dom.meets, other]) ps attrs
    have outside : (final.attrs? (.node id)).map Form.outside =
        (plain.attrs? (.node id)).map Form.outside := by
      by_cases form : dom.isHtml "form" (.node id) = true
      · have alone := eq_form_of_meets root form
        have fewer : ∀ p ∈ ps.filter fun p => !p.isForm, p.Spares :=
          fun p hp => spares p (List.mem_of_mem_filter hp)
        rw [attrs?_runAll, attrs?_runAll, Option.map_map, Option.map_map]
        congr 1
        funext attrs
        rw [Function.comp_apply, Function.comp_apply, outside_effects alone spares,
          outside_effects alone fewer, List.filter_filter]
        simp only [Bool.and_self]
      · rw [elsewhere (by simpa using form)]
    refine ⟨elsewhere, outside, fun name spared => ?_⟩
    have read : ∀ dom : Dom, dom.get? (.node id) name =
        ((dom.attrs? (.node id)).map Form.outside).bind (·.get? name) := by
      intro dom
      rw [Dom.get?, Option.bind_map]
      congr 1
      funext attrs
      exact (Form.get?_outside spared attrs).symm
    rw [read, outside, ← read]

/-- A block gets an action of its own and a form a class before two form passes for two pages. -/
theorem first_form_pass_decides_over_stamps :
    let dom := Dom.ofMarkup (.node (.element ⟨.html, "div", []⟩) .nil
      (.leaf (.element ⟨.html, "form", [⟨.null, "class", "a"⟩]⟩)) .nil)
    let first : Pass := .form ⟨"h", "/"⟩
    let ps : List Pass := [.stamp "div" "action" "x", .stamp "form" "class" "b", first,
      .strip "div" "method", .form ⟨"other", "/"⟩, .stamp "form" "class" "c", .strip "form" "id"]
    (∀ p ∈ ps, p.Spares) ∧ ps.find? isForm = some first ∧
      (runAll dom Dom.root ps).1.get? (.node 2) "action" =
        (first.run dom Dom.root).1.get? (.node 2) "action" ∧
      (runAll dom Dom.root ps).1.get? (.node 2) "class" =
        (runAll dom Dom.root (ps.filter fun p => !p.isForm)).1.get? (.node 2) "class" := by
  intro dom first ps
  have spares : ∀ p ∈ ps, p.Spares := by simp [ps, first, Spares, Form.submissionNames]
  have found : ps.find? isForm = some first := rfl
  obtain ⟨forms, others⟩ := first_form_pass_decides dom Dom.root ps first spares found
  exact ⟨spares, found, (forms 2 (by decide) (by decide)).1 "action" (by decide),
    (others 2).2.2 "class" (by decide)⟩

end Pass
end SafeForms
