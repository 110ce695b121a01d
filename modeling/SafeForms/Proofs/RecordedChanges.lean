import SafeForms.Proofs.AttributeMap
import SafeForms.Proofs.CorrectedAttributes

/-!
The events of a correction as a record of what it did. There is an event for an attribute exactly if
its value changed, apart from the action that a posted form loses; it has the value before and the
one after; and doing again what the events say leaves the same document. A run over candidates puts
such blocks one behind the other (`events_record_changes`).
-/

namespace SafeForms

namespace Attributes

/-- The values that names are still to be given. -/
def lacking (values : List (String × String)) (attrs : Attributes) : List (String × String) :=
  values.filter fun v => attrs.get? v.1 ≠ some v.2

/-- Values that are there already need not be written. -/
theorem foldl_set_lacking {values : List (String × String)} (once : (values.map (·.1)).Nodup)
    {attrs other : Attributes} (same : ∀ v ∈ values, other.get? v.1 = attrs.get? v.1) :
    (attrs.lacking values).foldl (fun attrs v => Attributes.set v.1 v.2 attrs) other =
      values.foldl (fun attrs v => Attributes.set v.1 v.2 attrs) other := by
  induction values generalizing other with
  | nil => rfl
  | cons v values ih =>
      rw [List.map_cons, List.nodup_cons] at once
      rw [List.forall_mem_cons] at same
      rw [lacking] at ih ⊢
      rw [List.foldl_cons]
      by_cases there : attrs.get? v.1 = some v.2
      · rw [List.filter_cons_of_neg (by simp [there]), ih once.2 same.2,
          set_of_get? (same.1.trans there)]
      · rw [List.filter_cons_of_pos (by simp [there]), List.foldl_cons]
        refine ih once.2 fun w hw => ?_
        have apart : w.1 ≠ v.1 := fun e => once.1 (e ▸ List.mem_map_of_mem hw)
        rw [get?_set, if_neg apart, same.2 w hw]

theorem erase_foldl_set {name : String} {values : List (String × String)}
    (apart : ∀ v ∈ values, name ≠ v.1) (attrs : Attributes) :
    Attributes.erase name (values.foldl (fun attrs v => Attributes.set v.1 v.2 attrs) attrs) =
      values.foldl (fun attrs v => Attributes.set v.1 v.2 attrs) (attrs.erase name) := by
  induction values generalizing attrs with
  | nil => rfl
  | cons v values ih =>
      rw [List.forall_mem_cons] at apart
      rw [List.foldl_cons, ih apart.2, erase_set_of_ne apart.1, List.foldl_cons]

end Attributes

namespace Update

/-- The calls that give names these values. -/
def sets (values : List (String × String)) : List Update := values.map fun v => set v.1 v.2

theorem sets_lacking_append (values more : List (String × String)) (attrs : Attributes) :
    sets (attrs.lacking (values ++ more)) =
      sets (attrs.lacking values) ++ sets (attrs.lacking more) := by
  rw [Attributes.lacking, List.filter_append, sets, List.map_append]
  rfl

theorem exists_of_append_eq_sets {early late : List Update} {values : List (String × String)}
    (h : early ++ late = sets values) :
    ∃ first last, values = first ++ last ∧ early = sets first ∧ late = sets last := by
  obtain ⟨first, last, split, hf, hl⟩ := List.append_eq_map_iff.mp h
  exact ⟨first, last, split, hf.symm, hl.symm⟩

theorem foldl_run_sets (values : List (String × String)) (attrs : Attributes) :
    (sets values).foldl run attrs =
      values.foldl (fun attrs v => Attributes.set v.1 v.2 attrs) attrs := by
  rw [sets, List.foldl_map]
  rfl

end Update

namespace Event

/-- What an event says was written. -/
def update? : Event → Option Update
  | method _ value => some (.set "method" value)
  | action _ value => some (.set "action" value)
  | xhrSet value | xhrDowngraded _ value => some (.set "action-xhr" value)
  | target _ value => some (.set "target" value)
  | running _ | skipped | endpointsKept _ | normalized _ _ => none

/-- The value that an event says was there before, if it says that. -/
def previous? : Event → Option (Option String)
  | method declared _ | action declared _ | target declared _ => some declared
  | xhrDowngraded declared _ => some (some declared)
  | xhrSet _ | running _ | skipped | endpointsKept _ | normalized _ _ => none

/-- An event reports the change of this value: it tells the value, or there was none to tell. -/
def Replaces (declared : Option String) (event : Event) : Prop :=
  match event.previous? with
  | some told => declared = told
  | none => declared = none ∨ declared = some ""

/-- The report of a new address to post to. -/
def xhr (declared : Option String) (endpoint : String) : Event :=
  (Endpoint.declared? declared).elim (xhrSet endpoint) (xhrDowngraded · endpoint)

/-- A way to report that an attribute of this name is given a value in place of another. -/
def Reports (name : String) (report : Option String → String → Event) : Prop :=
  ∀ declared value, (report declared value).update? = some (.set name value) ∧
    (report declared value).Replaces declared

theorem reports_method : Reports "method" method := fun _ _ => ⟨rfl, rfl⟩

theorem reports_action : Reports "action" action := fun _ _ => ⟨rfl, rfl⟩

theorem reports_target : Reports "target" target := fun _ _ => ⟨rfl, rfl⟩

theorem reports_xhr : Reports "action-xhr" xhr := by
  intro declared value
  rw [xhr]
  cases e : Endpoint.declared? declared with
  | none =>
      refine ⟨rfl, ?_⟩
      cases declared with
      | none => exact .inl rfl
      | some url =>
          have empty : url = "" := by simpa [Endpoint.declared?] using e
          exact .inr (congrArg some empty)
  | some url => exact ⟨rfl, (Option.filter_eq_some_iff.mp e).1⟩

end Event

namespace Form

/-- The report of an attribute that is given a value, if it does not have it already. -/
def reported (attrs : Attributes) (report : Option String → String → Event)
    (name value : String) : List Event :=
  if attrs.get? name = some value then [] else [report (attrs.get? name) value]

section

variable {attrs : Attributes} {name : String} {report : Option String → String → Event}

theorem declare_snd (value : String) :
    (declare name value report attrs).2 = reported attrs report name value := by
  rw [declare, reported]
  split <;> rfl

theorem eq_of_mem_reported {value : String} {event : Event}
    (mem : event ∈ reported attrs report name value) : event = report (attrs.get? name) value := by
  rw [reported] at mem
  split at mem
  · cases mem
  · exact List.mem_singleton.mp mem

theorem updates_reported (h : Event.Reports name report) (value : String) :
    (reported attrs report name value).filterMap Event.update? =
      Update.sets (attrs.lacking [(name, value)]) := by
  rw [reported, Attributes.lacking]
  by_cases same : attrs.get? name = some value
  · simp [same, Update.sets]
  · simp [same, Update.sets, (h _ value).1]

theorem others_reported (h : Event.Reports name report) (value : String) :
    (reported attrs report name value).filter (·.update?.isNone) = [] := by
  rw [List.filter_eq_nil_iff]
  intro event mem
  rw [eq_of_mem_reported mem, (h _ value).1]
  simp

end

theorem reviseXhr_snd {endpoint : String} (nonempty : endpoint ≠ "") (attrs : Attributes) :
    (reviseXhr endpoint attrs).2 = reported attrs .xhr "action-xhr"
      ((Endpoint.declared? (attrs.get? "action-xhr")).elim endpoint
        (Endpoint.downgrade false)) := by
  rw [reviseXhr, reported, Event.xhr]
  cases e : Endpoint.declared? (attrs.get? "action-xhr") with
  | none =>
      have other : attrs.get? "action-xhr" ≠ some endpoint := by
        intro same
        rw [same, declared?_of_ne_empty nonempty] at e
        cases e
      simp [other]
  | some declared =>
      have there := (Option.filter_eq_some_iff.mp e).1
      by_cases plain : Endpoint.isPlain false declared = true
      · have shorter := mt (Endpoint.length_downgrade_eq_iff false declared).mp (by simp [plain])
        have other : declared ≠ Endpoint.downgrade false declared := fun same =>
          shorter (congrArg String.length same.symm)
        simp [shorter, there, other]
      · rw [Bool.not_eq_true] at plain
        simp [there, Endpoint.downgrade_of_not_isPlain plain]

theorem revise_snd (r : Request) (attrs : Attributes) :
    (revise r attrs).2 = reported attrs .method "method" (methodOf attrs).text ++
      (match methodOf attrs with
        | .get => reported attrs .action "action" (endpointOf r attrs)
        | .post => reported attrs .xhr "action-xhr" (postEndpoint r attrs)
        | .other name => [.endpointsKept name]) ++
      reported attrs .target "target" (Target.coerce (attrs.get? "target")).text := by
  have named : ∀ {name}, name ≠ "method" → (reviseMethod attrs).1.get? name = attrs.get? name :=
    fun other => by rw [reviseMethod, get?_declare, if_neg other]
  have aimed : Attributes.get? "target"
      (reviseEndpoints r (methodOf attrs) (reviseMethod attrs).1).1 = attrs.get? "target" := by
    rw [get?_reviseEndpoints, named (by decide)]
    cases methodOf attrs <;> simp
  have split : (revise r attrs).2 = (reviseMethod attrs).2 ++
      (reviseEndpoints r (methodOf attrs) (reviseMethod attrs).1).2 ++
      (reviseTarget (reviseEndpoints r (methodOf attrs) (reviseMethod attrs).1).1).2 := rfl
  have congr : ∀ {other : Attributes} {name report value}, other.get? name = attrs.get? name →
      reported other report name value = reported attrs report name value :=
    fun same => by rw [reported, reported, same]
  rw [split, reviseTarget, declare_snd, congr aimed, aimed, reviseMethod, declare_snd,
    ← reviseMethod]
  congr 2
  cases methodOf attrs with
  | get =>
      rw [reviseEndpoints, declare_snd, endpointOf_reviseMethod, congr (named (by decide))]
  | post =>
      have kept : Attributes.get? "action-xhr" ((reviseMethod attrs).1.erase "action") =
          attrs.get? "action-xhr" := by
        rw [Attributes.get?_erase, if_neg (by decide), named (by decide)]
      rw [reviseEndpoints, endpointOf_reviseMethod, reviseXhr_snd (endpointOf_ne_empty r attrs),
        congr kept, kept, ← postEndpoint_eq]
  | other name => rfl

theorem updates_revise (r : Request) (attrs : Attributes) :
    (revise r attrs).2.filterMap Event.update? =
      Update.sets (attrs.lacking (corrections r attrs)) := by
  rw [revise_snd, corrections, List.filterMap_append, List.filterMap_append,
    updates_reported Event.reports_method, updates_reported Event.reports_target]
  cases methodOf attrs with
  | get =>
      rw [updates_reported Event.reports_action, ← Update.sets_lacking_append,
        ← Update.sets_lacking_append]
      rfl
  | post =>
      rw [updates_reported Event.reports_xhr, ← Update.sets_lacking_append,
        ← Update.sets_lacking_append]
      rfl
  | other name =>
      rw [List.filterMap_cons_none rfl, List.filterMap_nil, List.append_nil,
        ← Update.sets_lacking_append]
      rfl

/-- Only a form with another method is reported without a change. -/
theorem others_revise (r : Request) (attrs : Attributes) :
    (revise r attrs).2.filter (·.update?.isNone) =
      match methodOf attrs with
      | .other name => [.endpointsKept name]
      | _ => [] := by
  rw [revise_snd, List.filter_append, List.filter_append, others_reported Event.reports_method,
    others_reported Event.reports_target]
  cases methodOf attrs with
  | get => rw [others_reported Event.reports_action]; rfl
  | post => rw [others_reported Event.reports_xhr]; rfl
  | other name => rfl

theorem replaces_of_mem_revise {r : Request} {attrs : Attributes} {event : Event}
    (mem : event ∈ (revise r attrs).2) {name value : String}
    (written : event.update? = some (.set name value)) : event.Replaces (attrs.get? name) := by
  have read : ∀ {name' report value'}, Event.Reports name' report →
      event ∈ reported attrs report name' value' → event.Replaces (attrs.get? name) := by
    intro name' report value' reports mem
    obtain rfl := eq_of_mem_reported mem
    obtain ⟨update, replaces⟩ := reports (attrs.get? name') value'
    obtain ⟨rfl, -⟩ : name' = name ∧ value' = value := by simpa [update] using written
    exact replaces
  rw [revise_snd, List.mem_append, List.mem_append] at mem
  obtain (mem | mem) | mem := mem
  · exact read Event.reports_method mem
  · cases m : methodOf attrs with
    | get => rw [m] at mem; exact read Event.reports_action mem
    | post => rw [m] at mem; exact read Event.reports_xhr mem
    | other other =>
        rw [m, List.mem_singleton] at mem
        rw [mem] at written
        cases written
  · exact read Event.reports_target mem

theorem nodup_corrections (r : Request) (attrs : Attributes) :
    ((corrections r attrs).map (·.1)).Nodup := by
  cases m : methodOf attrs <;> simp [corrections, m]

theorem names_corrections (r : Request) (attrs : Attributes) :
    (corrections r attrs).map (·.1) =
      submissionNames.filter fun name => name ∈ (corrections r attrs).map (·.1) := by
  rw [corrections]
  cases methodOf attrs <;> rfl

theorem get?_of_mem_corrections (r : Request) (attrs : Attributes) :
    ∀ v ∈ corrections r attrs, Attributes.get? v.1 (correct r attrs) = some v.2 := by
  simp only [get?_correct]
  cases m : methodOf attrs <;> simp [corrections, correctedValue, m, Method.text]

/-- What a correction gives no value keeps the one it has, but for the action of a posted form. -/
theorem get?_correct_of_notMem {r : Request} {attrs : Attributes} {name : String}
    (unlisted : name ∉ (corrections r attrs).map (·.1))
    (kept : ¬(name = "action" ∧ methodOf attrs = .post)) :
    Attributes.get? name (correct r attrs) = attrs.get? name := by
  rw [get?_correct]
  cases m : methodOf attrs <;> simp_all [corrections, correctedValue]

theorem not_lost_of_mem_corrections (r : Request) (attrs : Attributes) :
    ∀ v ∈ corrections r attrs, ¬(v.1 = "action" ∧ methodOf attrs = .post) := by
  cases m : methodOf attrs <;> simp [corrections, m]

/-- The values that a form lacks are those that its correction changes, but an action that a posted
form loses is not among them. -/
theorem names_lacking_corrections (r : Request) (attrs : Attributes) :
    (attrs.lacking (corrections r attrs)).map (·.1) = submissionNames.filter fun name =>
      Attributes.get? name (correct r attrs) ≠ attrs.get? name ∧
        ¬(name = "action" ∧ methodOf attrs = .post) := by
  let changed (name : String) : Bool :=
    Attributes.get? name (correct r attrs) ≠ attrs.get? name ∧
      ¬(name = "action" ∧ methodOf attrs = .post)
  have missed : attrs.lacking (corrections r attrs) =
      (corrections r attrs).filter (changed ∘ Prod.fst) := by
    refine List.filter_congr fun v hv => ?_
    simp only [changed, Function.comp_apply, get?_of_mem_corrections r attrs v hv,
      not_lost_of_mem_corrections r attrs v hv, not_false_eq_true, and_true, ne_comm]
  calc (attrs.lacking (corrections r attrs)).map (·.1)
    _ = ((corrections r attrs).map (·.1)).filter changed := by rw [missed, List.filter_map]
    _ = submissionNames.filter fun name =>
          changed name && decide (name ∈ (corrections r attrs).map (·.1)) :=
        (congrArg (List.filter changed) (names_corrections r attrs)).trans List.filter_filter
    _ = submissionNames.filter changed := by
        refine List.filter_congr fun name _ => ?_
        by_cases listed : name ∈ (corrections r attrs).map (·.1)
        · simp [listed]
        · have kept := get?_correct_of_notMem (r := r) listed
          have still : changed name = false := by
            simp only [changed, decide_eq_false_iff_not, not_and_or, not_not]
            tauto
          simp [still]

theorem value_of_mem_revise {r : Request} {attrs : Attributes} {event : Event}
    (mem : event ∈ (revise r attrs).2) {name value : String}
    (written : event.update? = some (.set name value)) :
    Attributes.get? name (correct r attrs) = some value := by
  have update : Update.set name value ∈ (revise r attrs).2.filterMap Event.update? :=
    List.mem_filterMap.mpr ⟨event, mem, written⟩
  rw [updates_revise, Update.sets, List.mem_map] at update
  obtain ⟨v, lacking, same⟩ := update
  obtain ⟨rfl, rfl⟩ := Update.set.inj same
  exact get?_of_mem_corrections r attrs v (List.mem_of_mem_filter lacking)

/-- Doing what the events say and, for a posted form, taking out the action at any point between
them is the whole correction. -/
theorem foldl_run_events (r : Request) (attrs : Attributes) {early late : List Event}
    (cut : (revise r attrs).2 = early ++ late) :
    (early.filterMap Event.update? ++
      (if methodOf attrs = .post then [Update.remove "action"] else []) ++
        late.filterMap Event.update?).foldl Update.run attrs = correct r attrs := by
  have updates := updates_revise r attrs
  rw [cut, List.filterMap_append] at updates
  obtain ⟨es, ls, split, first, last⟩ := Update.exists_of_append_eq_sets updates
  rw [first, last, List.foldl_append, List.foldl_append, Update.foldl_run_sets,
    Update.foldl_run_sets, correct_eq_edit,
    Attributes.edit_eq_foldl _ _ (nodup_corrections r attrs)]
  by_cases post : methodOf attrs = .post
  · have apart : ∀ v ∈ corrections r attrs, "action" ≠ v.1 := fun v hv action =>
      not_lost_of_mem_corrections r attrs v hv ⟨action.symm, post⟩
    have lost : ∀ v ∈ corrections r attrs, (attrs.erase "action").get? v.1 = attrs.get? v.1 :=
      fun v hv => by rw [Attributes.get?_erase, if_neg (apart v hv).symm]
    have early : ∀ v ∈ es, "action" ≠ v.1 := fun v hv =>
      apart v (List.mem_of_mem_filter (split ▸ List.mem_append_left _ hv))
    rw [if_pos post, if_pos post, ← Attributes.foldl_set_lacking (nodup_corrections r attrs) lost,
      split, List.foldl_append, ← Attributes.erase_foldl_set early]
    rfl
  · rw [if_neg post, if_neg post, List.foldl_nil, ← List.foldl_append, ← split,
      Attributes.foldl_set_lacking (nodup_corrections r attrs) fun _ _ => rfl]

end Form

namespace Dom

/-- A block of events says what became of a form, whose state is given before and after. -/
structure Records (before : Dom) (h : Handle) (block : List Event) (after : Dom) : Prop where
  /-- What is written is what changes, one attribute after the other. Only the action that a posted
  form loses is not reported. -/
  written : (block.filterMap Event.update?).map Update.name =
    Form.submissionNames.filter fun name => after.get? h name ≠ before.get? h name ∧
      ¬(name = "action" ∧ Method.resolve (before.get? h "method") = .post)
  values : ∀ event ∈ block, ∀ name value, event.update? = some (.set name value) →
    after.get? h name = some value ∧ event.Replaces (before.get? h name)
  others : block.filter (·.update?.isNone) =
    match Method.resolve (before.get? h "method") with
    | .other name => [.endpointsKept name]
    | _ => []
  /-- The action may be taken out at any point. -/
  replayed : ∀ early late, block = early ++ late →
    (early.filterMap Event.update? ++
      (if Method.resolve (before.get? h "method") = .post then [Update.remove "action"] else []) ++
        late.filterMap Event.update?).foldl (update h) before = after

/-- The events of a run that meets these candidates one after the other, so many of which are
forms. -/
inductive Trace : Dom → List Handle → List Event → Nat → Dom → Prop where
  | done (dom : Dom) : Trace dom [] [] 0 dom
  | skip {dom final : Dom} {h : Handle} {hs : List Handle} {events : List Event} {forms : Nat}
      (other : dom.isHtml "form" h = false) (rest : Trace dom hs events forms final) :
      Trace dom (h :: hs) (.skipped :: events) forms final
  | form {before after final : Dom} {h : Handle} {hs : List Handle} {block events : List Event}
      {forms : Nat} (found : before.isHtml "form" h = true) (records : Records before h block after)
      (rest : Trace after hs events forms final) :
      Trace before (h :: hs) (block ++ events) (forms + 1) final

theorem records_normalizeOne (r : Request) {dom : Dom} {h : Handle}
    (form : dom.isHtml "form" h = true) :
    Records dom h (Form.normalizeOne r dom h).2 (Form.normalizeOne r dom h).1 := by
  obtain ⟨id, rfl⟩ := eq_node_of_isHtml form
  obtain ⟨attrs, listed⟩ := attrs?_of_isHtml form
  have block : (Form.normalizeOne r dom (.node id)).2 = (Form.revise r attrs).2 := by
    rw [Form.normalizeOne, if_pos form, listed, Option.getD_some]
  have after : (Form.normalizeOne r dom (.node id)).1 =
      dom.mapAttrs (.node id) (Form.correct r) := by
    rw [Form.normalizeOne, if_pos form]
  have old : ∀ name, dom.get? (.node id) name = attrs.get? name := fun name => by
    rw [get?, listed, Option.bind_some]
  have new : ∀ name, (dom.mapAttrs (.node id) (Form.correct r)).get? (.node id) name =
      Attributes.get? name (Form.correct r attrs) := fun name => by
    rw [get?, attrs?_mapAttrs, if_pos rfl, listed, Option.map_some, Option.bind_some]
  rw [block, after]
  refine ⟨?_, ?_, ?_, ?_⟩
  · simp only [old, new]
    rw [Form.updates_revise, Update.sets, List.map_map]
    exact Form.names_lacking_corrections r attrs
  · intro event mem name value written
    rw [new, old]
    exact ⟨Form.value_of_mem_revise mem written, Form.replaces_of_mem_revise mem written⟩
  · rw [old]
    exact Form.others_revise r attrs
  · intro early late cut
    rw [old, foldl_update]
    refine mapAttrs_congr fun there found => ?_
    obtain rfl : attrs = there := Option.some.inj (listed.symm.trans found)
    exact Form.foldl_run_events r attrs cut

theorem trace_normalizeEach (r : Request) (dom : Dom) (hs : List Handle) :
    Trace dom hs (Form.normalizeEach r dom hs).2 (hs.countP (dom.isHtml "form"))
      (Form.normalizeEach r dom hs).1 := by
  induction hs generalizing dom with
  | nil => exact .done dom
  | cons h hs ih =>
      have rest := ih (Form.normalizeOne r dom h).1
      have kept : (Form.normalizeOne r dom h).1.isHtml "form" = dom.isHtml "form" := by
        funext other
        rw [normalizeOne_eq, isHtml_correctWhere]
      rw [kept] at rest
      by_cases form : dom.isHtml "form" h = true
      · rw [List.countP_cons_of_pos form]
        exact .form form (records_normalizeOne r form) rest
      · have idle : Form.normalizeOne r dom h = (dom, [.skipped]) := by
          rw [Form.normalizeOne, if_neg form]
        rw [idle] at rest
        rw [List.countP_cons_of_neg form, Form.normalizeEach, idle]
        exact .skip (Bool.eq_false_iff.mpr form) rest

/-- The log of a run over candidates is a record of what it did. Taken last to first, they are
skipped if they are no forms, and the others leave blocks of events that say which attributes got
which values in place of which, so that the same state comes of doing that again. The last line has
the number of the candidates, counted as often as they are given, and that of the forms among
them. -/
theorem events_record_changes (r : Request) (dom : Dom) (candidates : List Handle) :
    ∃ events final,
      Trace dom candidates.reverse events (candidates.countP (dom.isHtml "form")) final ∧
      Form.normalize r dom candidates =
        (final, events ++
          [.normalized (candidates.countP (dom.isHtml "form")) candidates.length]) := by
  refine ⟨_, _, ?_, rfl⟩
  rw [← List.countP_reverse]
  exact trace_normalizeEach r dom candidates.reverse

/-- A form that is met again has nothing left to report, but it is counted again. -/
example :
    let attrs : Attributes := [⟨.null, "action", "http://a"⟩, ⟨.null, "method", "POST"⟩]
    let dom := ofMarkup (.leaf (.element ⟨.html, "form", attrs⟩))
    (Form.normalize ⟨"h", "/"⟩ dom [.node 1, root, .node 1]).2 =
      [.method (some "POST") "post", .xhrSet "//a", .target none "_top", .skipped,
        .normalized 2 3] := by
  decide

end Dom
end SafeForms
