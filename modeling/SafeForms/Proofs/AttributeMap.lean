import SafeForms.Proofs.FormHistory

/-!
Attribute lists as maps. Through any sequence of writes and removals the values that a list gives
for names are those of a map with the same insertions and erasures, and its entries stand in the
order of a list of names with the same history: a new one is put last, the others keep their places.
Entries under names that no call mentions, or in a namespace, are not touched
(`attributes_refine_map`).
-/

namespace SafeForms

/-- A call that changes the attributes of a node. -/
inductive Update where
  | set (name value : String)
  | remove (name : String)
  deriving Repr, DecidableEq

namespace Update

def name : Update → String
  | set name _ | remove name => name

def run (attrs : Attributes) : Update → Attributes
  | set name value => attrs.set name value
  | remove name => (attrs.remove name).2

/-- The same insertion or erasure in a map from names to values. -/
def onMap (values : String → Option String) : Update → String → Option String
  | set name value => Function.update values name (some value)
  | remove name => Function.update values name none

/-- What happens to the names of the entries, in order. -/
def onKeys (keys : List (Namespace × String)) : Update → List (Namespace × String)
  | set name _ => if (.null, name) ∈ keys then keys else keys ++ [(.null, name)]
  | remove name => keys.filter (· ≠ (.null, name))

/-- An entry that none of the calls names. -/
def spares (updates : List Update) (a : Attribute) : Bool :=
  a.ns ≠ .null || a.name ∉ updates.map name

end Update

/-- Under which name an entry stands, and in which namespace. -/
def Attribute.key (a : Attribute) : Namespace × String := (a.ns, a.name)

theorem Attribute.isNamed_eq (name : String) (a : Attribute) :
    a.isNamed name = decide (a.key = (.null, name)) := by
  simp [isNamed, key]

namespace Attributes

/-- A list as a map: every name has the value of its first entry without a namespace. -/
def toMap (attrs : Attributes) (name : String) : Option String :=
  (attrs.find? fun a => a.ns = .null ∧ a.name = name).map (·.value)

theorem get?_eq_toMap (name : String) (attrs : Attributes) :
    attrs.get? name = attrs.toMap name := by
  simp [get?, toMap, Attribute.isNamed]

theorem remove_fst (name : String) (attrs : Attributes) :
    (attrs.remove name).1 = attrs.has name := by
  rw [remove, erase, has, Bool.eq_iff_iff, decide_eq_true_eq, ne_eq,
    List.length_filter_eq_length_iff, List.any_eq_true]
  simp

theorem toMap_run (attrs : Attributes) (u : Update) :
    (u.run attrs).toMap = u.onMap attrs.toMap := by
  funext name
  rw [← get?_eq_toMap]
  cases u with
  | set other value =>
      rw [Update.run, get?_set, Update.onMap, Function.update_apply, get?_eq_toMap]
  | remove other =>
      rw [Update.run, remove, get?_erase, Update.onMap, Function.update_apply, get?_eq_toMap]

theorem keys_set (name value : String) (attrs : Attributes) :
    (attrs.set name value).map Attribute.key =
      if (.null, name) ∈ attrs.map Attribute.key then attrs.map Attribute.key
      else attrs.map Attribute.key ++ [(.null, name)] := by
  induction attrs with
  | nil => rfl
  | cons a attrs ih =>
      by_cases named : a.isNamed name = true
      · have here : a.key = (.null, name) := by simpa [Attribute.isNamed_eq] using named
        have kept : Attribute.key ⟨a.ns, a.name, value⟩ = a.key := rfl
        simp [set, named, kept, here]
      · have other : (Namespace.null, name) ≠ a.key := by
          simpa [Attribute.isNamed_eq, eq_comm] using named
        rw [set, if_neg named, List.map_cons, ih]
        simp only [List.map_cons, List.mem_cons, other, false_or]
        split <;> rfl

theorem keys_run (attrs : Attributes) (u : Update) :
    (u.run attrs).map Attribute.key = u.onKeys (attrs.map Attribute.key) := by
  cases u with
  | set name value => exact keys_set name value attrs
  | remove name =>
      rw [Update.run, remove, erase, Update.onKeys, List.filter_map]
      congr 1
      refine List.filter_congr fun a _ => ?_
      simp [Attribute.isNamed_eq]

theorem countP_isNamed (name : String) (attrs : Attributes) :
    attrs.countP (·.isNamed name) = (attrs.map Attribute.key).count (.null, name) := by
  rw [List.count, List.countP_map]
  refine List.countP_congr fun a _ => ?_
  simp [Attribute.isNamed_eq]

theorem countP_run_le (attrs : Attributes) (u : Update) (name : String) :
    (u.run attrs).countP (·.isNamed name) ≤ max 1 (attrs.countP (·.isNamed name)) := by
  rw [countP_isNamed, countP_isNamed, keys_run]
  generalize attrs.map Attribute.key = keys
  cases u with
  | set other value =>
      rw [Update.onKeys]
      split
      · exact Nat.le_max_right _ _
      · next absent =>
        rw [List.count_append]
        by_cases same : other = name
        · simp [← same, List.count_eq_zero.mpr absent]
        · simp [same]
  | remove other =>
      exact (List.filter_sublist.count_le _).trans (Nat.le_max_right _ _)

theorem filter_set {name : String} {p : Attribute → Bool}
    (hidden : ∀ a, a.isNamed name = true → p a = false) (value : String) (attrs : Attributes) :
    (attrs.set name value).filter p = attrs.filter p := by
  induction attrs with
  | nil => simp [set, hidden _ (isNamed_new name value)]
  | cons a attrs ih =>
      by_cases named : a.isNamed name = true
      · have changed : p ⟨a.ns, a.name, value⟩ = false := hidden _ named
        simp [set, named, hidden a named, changed]
      · simp [set, named, List.filter_cons, ih]

theorem filter_run {u : Update} {p : Attribute → Bool}
    (hidden : ∀ a, a.isNamed u.name = true → p a = false) (attrs : Attributes) :
    (u.run attrs).filter p = attrs.filter p := by
  cases u with
  | set name value => exact filter_set hidden value attrs
  | remove name =>
      rw [Update.run, remove, erase, List.filter_filter]
      refine List.filter_congr fun a _ => ?_
      by_cases named : a.isNamed name = true
      · simp [hidden a named]
      · simp [named]

/-! ### Sequences of calls -/

theorem toMap_foldl_run (updates : List Update) (attrs : Attributes) :
    (updates.foldl Update.run attrs).toMap = updates.foldl Update.onMap attrs.toMap :=
  (List.foldl_hom toMap fun attrs u => (toMap_run attrs u).symm).symm

theorem keys_foldl_run (updates : List Update) (attrs : Attributes) :
    (updates.foldl Update.run attrs).map Attribute.key =
      updates.foldl Update.onKeys (attrs.map Attribute.key) :=
  (List.foldl_hom (List.map Attribute.key) fun attrs u => (keys_run attrs u).symm).symm

theorem countP_foldl_run_le (updates : List Update) (attrs : Attributes) (name : String) :
    (updates.foldl Update.run attrs).countP (·.isNamed name) ≤
      max 1 (attrs.countP (·.isNamed name)) := by
  induction updates generalizing attrs with
  | nil => exact Nat.le_max_right _ _
  | cons u updates ih =>
      have first := countP_run_le attrs u name
      have rest := ih (u.run attrs)
      rw [List.foldl_cons]
      omega

theorem filter_spares_foldl_run (updates all : List Update) (known : updates ⊆ all)
    (attrs : Attributes) :
    (updates.foldl Update.run attrs).filter (Update.spares all) =
      attrs.filter (Update.spares all) := by
  induction updates generalizing attrs with
  | nil => rfl
  | cons u updates ih =>
      obtain ⟨mem, known⟩ := List.cons_subset.mp known
      have hidden : ∀ a, Attribute.isNamed u.name a = true → Update.spares all a = false := by
        intro a named
        obtain ⟨null, same⟩ : a.ns = .null ∧ a.name = u.name := by
          simpa [Attribute.isNamed] using named
        have listed : a.name ∈ all.map Update.name := same ▸ List.mem_map_of_mem mem
        simpa [Update.spares, null] using listed
      rw [List.foldl_cons, ih known, filter_run hidden]

end Attributes

namespace Dom

/-- The document after a call on one of its nodes. -/
def update (h : Handle) (dom : Dom) : Update → Dom
  | .set name value => dom.set h name value
  | .remove name => (dom.remove h name).2

theorem update_eq (h : Handle) (dom : Dom) (u : Update) :
    dom.update h u = dom.mapAttrs h fun attrs => u.run attrs := by
  cases u <;> rfl

theorem eq_node_of_attrs? {dom : Dom} {h : Handle} {attrs : Attributes}
    (found : dom.attrs? h = some attrs) : ∃ id, h = .node id := by
  cases h with
  | node id => exact ⟨id, rfl⟩
  | contents id =>
      rw [attrs?, node?] at found
      split at found
      · split at found <;> cases found
      · cases found

theorem mapAttrs_congr {dom : Dom} {h : Handle} {change other : Attributes → Attributes}
    (same : ∀ attrs, dom.attrs? h = some attrs → change attrs = other attrs) :
    dom.mapAttrs h change = dom.mapAttrs h other := by
  cases h with
  | contents id => rfl
  | node id =>
      refine ext_nodes rfl fun place => ?_
      simp only [mapAttrs, Array.getElem?_modify]
      split
      · next here =>
        subst here
        refine Option.map_congr fun n hn => ?_
        cases n with
        | element e =>
            have listed : dom.attrs? (.node id) = some e.attrs := by
              simp [attrs?, node?, hn, Node.attrs?]
            rw [Node.mapAttrs, Node.mapAttrs, same e.attrs listed]
        | _ => rfl
      · rfl

theorem mapAttrs_id (dom : Dom) (h : Handle) : dom.mapAttrs h (fun attrs => attrs) = dom := by
  cases h with
  | contents id => rfl
  | node id =>
      refine ext_nodes rfl fun place => ?_
      rw [mapAttrs, Array.getElem?_modify]
      split
      · cases dom.nodes[place]? with
        | none => rfl
        | some n => cases n <;> rfl
      · rfl

theorem mapAttrs_mapAttrs (dom : Dom) (h : Handle) (change more : Attributes → Attributes) :
    (dom.mapAttrs h change).mapAttrs h more = dom.mapAttrs h fun attrs => more (change attrs) := by
  cases h with
  | contents id => rfl
  | node id =>
      refine ext_nodes rfl fun place => ?_
      simp only [mapAttrs, Array.getElem?_modify]
      split
      · rw [Option.map_map]
        congr 1
        funext n
        exact Node.mapAttrs_mapAttrs change more n
      · rfl

theorem foldl_update (h : Handle) (updates : List Update) (dom : Dom) :
    updates.foldl (update h) dom =
      dom.mapAttrs h fun attrs => updates.foldl Update.run attrs := by
  induction updates generalizing dom with
  | nil => exact (mapAttrs_id dom h).symm
  | cons u updates ih => rw [List.foldl_cons, ih, update_eq, mapAttrs_mapAttrs]; rfl

/-- After any sequence of calls on an element its values are those of a map with the same insertions
and erasures, its entries stand as in a list of keys with the same history, no name has got a second
entry, and the entries that no call names are as before. Calls on anything else change nothing and
report nothing. -/
theorem attributes_refine_map (dom : Dom) (h : Handle) (updates : List Update) :
    let after := updates.foldl (update h) dom
    (∀ attrs, dom.attrs? h = some attrs → ∃ now, after.attrs? h = some now ∧
      (∀ name, let value := updates.foldl Update.onMap attrs.toMap name
        after.get? h name = value ∧ after.has h name = value.isSome ∧
          (after.remove h name).1 = value.isSome) ∧
      now.map Attribute.key = updates.foldl Update.onKeys (attrs.map Attribute.key) ∧
      (∀ name, now.countP (·.isNamed name) ≤ max 1 (attrs.countP (·.isNamed name))) ∧
      now.filter (Update.spares updates) = attrs.filter (Update.spares updates)) ∧
    (dom.attrs? h = none → after = dom ∧ ∀ name, after.get? h name = none ∧
      after.has h name = false ∧ (after.remove h name).1 = false) := by
  intro after
  have run : after = dom.mapAttrs h fun attrs => updates.foldl Update.run attrs :=
    foldl_update h updates dom
  constructor
  · intro attrs found
    have listed : after.attrs? h = some (updates.foldl Update.run attrs) := by
      obtain ⟨id, rfl⟩ := eq_node_of_attrs? found
      rw [run, attrs?_mapAttrs, if_pos rfl, found, Option.map_some]
    refine ⟨_, listed, fun name => ?_, Attributes.keys_foldl_run updates attrs,
      Attributes.countP_foldl_run_le updates attrs,
      Attributes.filter_spares_foldl_run updates updates (List.Subset.refl _) attrs⟩
    intro value
    have read : value = (updates.foldl Update.run attrs).get? name := by
      rw [Attributes.get?_eq_toMap, Attributes.toMap_foldl_run]
    rw [read, ← Attributes.has_eq_isSome]
    simp [get?, has, remove, listed, Attributes.remove_fst]
  · intro none
    have idle : dom.mapAttrs h (fun attrs => updates.foldl Update.run attrs) =
        dom.mapAttrs h fun attrs => attrs := mapAttrs_congr (by simp [none])
    have same : after = dom := by rw [run, idle, mapAttrs_id]
    rw [same]
    exact ⟨rfl, fun name => by simp [get?, has, remove, none]⟩

/-- An element that declares an attribute twice and in a namespace as well: the first declaration is
written, both are removed, and the attribute comes back behind all others. -/
theorem attributes_refine_map_of_repeated_name :
    let attrs : Attributes := [⟨.null, "id", "a"⟩, ⟨.xlink, "id", "b"⟩, ⟨.null, "id", "c"⟩,
      ⟨.null, "class", "d"⟩]
    let updates : List Update := [.set "id" "e", .set "class" "f", .remove "id", .set "id" "g"]
    let dom := ofMarkup (.leaf (.element ⟨.html, "p", attrs⟩))
    let after := updates.foldl (update (.node 1)) dom
    dom.attrs? (.node 1) = some attrs ∧ after.get? (.node 1) "id" = some "g" ∧
      (after.remove (.node 1) "id").1 = true ∧ ∃ now, after.attrs? (.node 1) = some now ∧
        now.map Attribute.key = [(.xlink, "id"), (.null, "class"), (.null, "id")] := by
  intro attrs updates dom after
  have found : dom.attrs? (.node 1) = some attrs := by decide
  obtain ⟨now, listed, values, keys, -⟩ :=
    (attributes_refine_map dom (.node 1) updates).1 attrs found
  obtain ⟨value, -, reported⟩ := values "id"
  exact ⟨found, value, reported, now, listed, keys⟩

end Dom
end SafeForms
