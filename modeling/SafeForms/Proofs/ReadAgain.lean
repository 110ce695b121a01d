import Mathlib
import SafeForms.Html.Lexer
import SafeForms.Html.Serialize
import SafeForms.Html.Source
import SafeForms.Proofs.SettledForms

/-!
What becomes of names and values that are written and read again. The names that a reader gives are
read as they are written. Values lose their carriage returns and their NULs, but neither the words
that the correction of forms looks for nor the scheme of an address can come or go with them.
-/

namespace SafeForms.Html.Lexer

open Text
open Text.Utf8 (replacement)

/-! ### Names -/

/-- Names as a reader gives them. Only the first character may be an equals sign. -/
structure IsName (cs : List Char) : Prop where
  begins : ∃ c rest, cs = c :: rest ∧ endsTagName c = false ∧ ∀ d ∈ rest, endsAttributeName d = false
  kept : ∀ c ∈ cs, clean c.toLower = c

/-- Folding makes no mark of what was none. -/
theorem clean_toLower_eq_iff {c d : Char} (mark : d.isAlpha = false) (other : d ≠ replacement)
    (nul : d ≠ '\x00') : clean c.toLower = d ↔ c = d := by
  have low : c.toLower = d ↔ c = d := by
    cases upper : c.isUpper with
    | false => rw [Char.toLower_eq_of_not_isUpper (by simp [upper])]
    | true =>
        have apart : ∀ e : Char, e.isAlpha = true → e ≠ d := by
          rintro e letter rfl
          simp [mark] at letter
        refine iff_of_false (apart _ ?_) (apart _ ?_)
        · rw [Char.isAlpha_toLower_eq_isAlpha, Char.isAlpha, upper, Bool.true_or]
        · rw [Char.isAlpha, upper, Bool.true_or]
  rw [← low, clean]
  split
  · next e => exact iff_of_false other.symm fun h => nul (h.symm.trans e)
  · rfl

theorem endsTagName_clean_toLower (c : Char) : endsTagName (clean c.toLower) = endsTagName c := by
  simp (disch := decide) only [endsTagName, isBlank, clean_toLower_eq_iff]

theorem endsAttributeName_clean_toLower (c : Char) :
    endsAttributeName (clean c.toLower) = endsAttributeName c := by
  simp (disch := decide) only [endsAttributeName, endsTagName_clean_toLower, clean_toLower_eq_iff]

theorem clean_toLower_idem (c : Char) : clean (clean c.toLower).toLower = clean c.toLower := by
  unfold clean
  split
  · decide
  · next other => rw [Char.toLower_toLower_eq_toLower, if_neg other]

theorem toList_cleanName (cs : List Char) :
    (cleanName cs).toList = cs.map fun c => clean c.toLower := by
  rw [cleanName, String.toList_ofList, lowerChars, List.map_map]
  rfl

theorem isName_cleanName {c : Char} {rest : List Char} (first : endsTagName c = false)
    (more : ∀ d ∈ rest, endsAttributeName d = false) : IsName (cleanName (c :: rest)).toList := by
  rw [toList_cleanName, List.map_cons]
  refine ⟨⟨_, _, rfl, ?_, fun d hd => ?_⟩, fun d hd => ?_⟩
  · rwa [endsTagName_clean_toLower]
  · obtain ⟨e, he, rfl⟩ := List.mem_map.mp hd
    rw [endsAttributeName_clean_toLower]
    exact more e he
  · rw [← List.map_cons (f := fun c : Char => clean c.toLower)] at hd
    obtain ⟨e, _, rfl⟩ := List.mem_map.mp hd
    exact clean_toLower_idem e

theorem cleanName_of_isName {name : String} (h : IsName name.toList) :
    cleanName name.toList = name := by
  rw [← String.toList_inj, toList_cleanName]
  exact (List.map_congr_left h.kept).trans (List.map_id _)

theorem isName_of_letters {cs : List Char} (nonempty : cs ≠ [])
    (letters : ∀ c ∈ cs, c.isLower = true ∨ c = '-') : IsName cs := by
  have inside : ∀ c ∈ cs, endsAttributeName c = false := by
    intro c hc
    rw [Bool.eq_false_iff]
    intro mark
    simp only [endsAttributeName, endsTagName, isBlank, Bool.or_eq_true, decide_eq_true_eq] at mark
    rcases mark with (((((((rfl | rfl) | rfl) | rfl) | rfl) | rfl) | rfl) | rfl) <;>
      exact absurd (letters _ hc) (by decide)
  refine ⟨?_, fun c hc => ?_⟩
  · cases cs with
    | nil => contradiction
    | cons c rest =>
        have first := inside c List.mem_cons_self
        rw [endsAttributeName, Bool.or_eq_false_iff] at first
        exact ⟨c, rest, rfl, first.1, fun d hd => inside d (List.mem_cons_of_mem c hd)⟩
  · rcases letters c hc with low | rfl
    · have nul : c ≠ '\x00' := fun e => absurd low (by rw [e]; decide)
      rw [Char.toLower_eq_of_not_isUpper (Char.not_isUpper_of_isLower low), clean, if_neg nul]
    · decide

/-- Every name that a tag is read with is a name. -/
theorem isName_of_scanAttributes {attrs read : List (String × String)} {closing : Bool}
    {cs rest : List Char} (h : scanAttributes attrs cs = some (read, closing, rest))
    (before : ∀ a ∈ attrs, IsName a.1.toList) : ∀ a ∈ read, IsName a.1.toList := by
  fun_induction scanAttributes attrs cs with
  | case1 => contradiction
  | case2 attrs cs after e =>
      cases h
      exact before
  | case3 attrs cs after _ e =>
      cases h
      exact before
  | case4 attrs cs after _ e _ ih => exact ih h before
  | case5 => contradiction
  | case6 attrs cs c after e close slash value remaining g ih =>
      refine ih h ?_
      have blank : isBlank c = false := by
        have head := List.head_dropWhile_not isBlank (l := cs)
        simp only [e] at head
        simpa using head
      have name : IsName (cleanName (c :: after.takeWhile (!endsAttributeName ·))).toList := by
        refine isName_cleanName (by simp [endsTagName, blank, close, slash]) fun d hd => ?_
        simpa using List.mem_takeWhile_imp hd
      unfold addAttribute
      simp only
      split
      · exact before
      · exact List.forall_mem_append.mpr ⟨before, by simpa using name⟩

/-! ### Values -/

/-- What is read of the characters of a value that was written. -/
def rereadChars (cs : List Char) : List Char := (Source.normalizeLines false cs).1.map clean

def reread (value : String) : String := String.ofList (rereadChars value.toList)

/-- The characters that may come and go. -/
def unsteady : List Char := ['\r', '\n', '\x00', replacement]

theorem toLower_of_unsteady : ∀ c ∈ unsteady, c.toLower = c := by
  intro c h
  fin_cases h <;> decide

theorem rereadChars_cons_of_steady {c : Char} (h : c ∉ unsteady) (cs : List Char) :
    rereadChars (c :: cs) = c :: rereadChars cs := by
  simp only [unsteady, List.mem_cons, List.not_mem_nil, or_false, not_or] at h
  simp [rereadChars, Source.normalizeLines, clean, h]

theorem rereadChars_cons_of_unsteady {c : Char} (h : c ∈ unsteady) (cs : List Char) :
    ∃ d ∈ unsteady, ∃ ds, rereadChars (c :: cs) = d :: ds := by
  simp only [rereadChars, Source.normalizeLines, Bool.and_false, Bool.false_eq_true, if_false,
    List.map_cons]
  refine ⟨_, ?_, _, rfl⟩
  fin_cases h <;> decide

theorem mem_normalizeLines {afterReturn : Bool} {cs : List Char} {d : Char}
    (h : d ∈ (Source.normalizeLines afterReturn cs).1) : d ∈ cs ∨ d = '\n' := by
  induction cs generalizing afterReturn with
  | nil => simp [Source.normalizeLines] at h
  | cons c cs ih =>
      rw [Source.normalizeLines] at h
      split at h
      · exact (ih h).imp_left (List.mem_cons_of_mem c)
      · rcases List.mem_cons.mp h with rfl | h
        · split <;> simp
        · exact (ih h).imp_left (List.mem_cons_of_mem c)

theorem mem_rereadChars {cs : List Char} {d : Char} (h : d ∈ rereadChars cs) :
    d ∈ cs ∨ d ∈ unsteady := by
  obtain ⟨c, hc, rfl⟩ := List.mem_map.mp h
  rw [clean]
  split
  · exact Or.inr (by decide)
  · rcases mem_normalizeLines hc with hc | rfl
    · exact Or.inl hc
    · exact Or.inr (by decide)

/-- A word is neither made nor lost. -/
theorem rereadChars_eq_iff {word : List Char} (steady : ∀ k ∈ word, k ∉ unsteady) (cs : List Char) :
    rereadChars cs = word ↔ cs = word := by
  induction cs generalizing word with
  | nil => rfl
  | cons c cs ih =>
      by_cases hc : c ∈ unsteady
      · obtain ⟨d, hd, ds, e⟩ := rereadChars_cons_of_unsteady hc cs
        rw [e]
        refine iff_of_false ?_ ?_
        · rintro rfl
          exact steady d List.mem_cons_self hd
        · rintro rfl
          exact steady c List.mem_cons_self hc
      · rw [rereadChars_cons_of_steady hc]
        cases word with
        | nil => simp
        | cons k word =>
            rw [List.cons.injEq, List.cons.injEq,
              ih fun k hk => steady k (List.mem_cons_of_mem _ hk)]

/-- A beginning is neither made nor lost, even where letters are folded. -/
theorem map_take_rereadChars {fold : Char → Char} (fixed : ∀ c ∈ unsteady, fold c = c)
    {word : List Char} (steady : ∀ k ∈ word, k ∉ unsteady) (cs : List Char) :
    ((rereadChars cs).take word.length).map fold = word ↔
      (cs.take word.length).map fold = word := by
  induction word generalizing cs with
  | nil => simp
  | cons k word ih =>
      cases cs with
      | nil => rfl
      | cons c cs =>
          rw [List.length_cons, List.take_succ_cons, List.map_cons, List.cons.injEq]
          have head := steady k List.mem_cons_self
          -- an unsteady character becomes another one, and neither of them begins the word
          by_cases hc : c ∈ unsteady
          · obtain ⟨d, hd, ds, e⟩ := rereadChars_cons_of_unsteady hc cs
            rw [e, List.take_succ_cons, List.map_cons, List.cons.injEq, fixed c hc, fixed d hd]
            refine iff_of_false ?_ ?_
            · rintro ⟨rfl, _⟩
              exact head hd
            · rintro ⟨rfl, _⟩
              exact head hc
          · rw [rereadChars_cons_of_steady hc, List.take_succ_cons, List.map_cons,
              List.cons.injEq, ih fun k hk => steady k (List.mem_cons_of_mem _ hk)]

theorem reread_eq_iff {word : String} (steady : ∀ k ∈ word.toList, k ∉ unsteady) (value : String) :
    reread value = word ↔ value = word := by
  rw [← String.toList_inj, ← String.toList_inj, reread, String.toList_ofList]
  exact rereadChars_eq_iff steady _

theorem lower_reread {value : String} (low : lower value = value) :
    lower (reread value) = reread value := by
  rw [← String.toList_inj, toList_lower, lowerChars_eq_self_iff] at low ⊢
  intro c hc
  rw [reread, String.toList_ofList] at hc
  rcases mem_rereadChars hc with hc | hc
  · exact low c hc
  · exact toLower_of_unsteady c hc

theorem isPlain_reread (ignoreCase : Bool) (url : String) :
    Endpoint.isPlain ignoreCase (reread url) = Endpoint.isPlain ignoreCase url := by
  have steady : ∀ k ∈ Endpoint.plainScheme.toList, k ∉ unsteady := by
    simp [Endpoint.toList_plainScheme, unsteady, replacement]
  have length : Endpoint.plainScheme.toList.length = 7 := by decide
  rw [Endpoint.isPlain_eq, Endpoint.isPlain_eq, reread, String.toList_ofList, Bool.eq_iff_iff]
  cases ignoreCase with
  | false =>
      have same := map_take_rereadChars (fun c _ => id_eq c) steady url.toList
      simpa only [List.map_id, length, Endpoint.beginsPlain_false_iff] using same
  | true =>
      have same := map_take_rereadChars toLower_of_unsteady steady url.toList
      simpa only [length, Endpoint.beginsPlain_true_iff] using same

/-- A form that needs no correction needs none with its values read again. -/
theorem conforms_reread {attrs other : Attributes} (h : Form.Conforms attrs)
    (same : ∀ name, other.get? name = (attrs.get? name).map reread) : Form.Conforms other := by
  have word : ∀ name value : String, (∀ k ∈ value.toList, k ∉ unsteady) →
      (other.get? name = some value ↔ attrs.get? name = some value) := by
    intro name value steady
    rw [same, Option.map_eq_some_iff]
    simp only [reread_eq_iff steady, exists_eq_right]
  have get := word "method" "get" (by simp [unsteady, replacement])
  have post := word "method" "post" (by simp [unsteady, replacement])
  have top := word "target" "_top" (by simp [unsteady, replacement])
  have blank := word "target" "_blank" (by simp [unsteady, replacement])
  have nonempty : ∀ value, reread value = "" ↔ value = "" := reread_eq_iff (by simp)
  refine ⟨?_, fun m => ?_, fun m => ?_, fun m => ?_, ?_⟩
  · obtain ⟨m, found, full, low⟩ := h.method
    exact ⟨reread m, by rw [same, found]; rfl, mt (nonempty m).mp full, lower_reread low⟩
  · obtain ⟨url, found, full, plain⟩ := h.action (get.mp m)
    exact ⟨reread url, by rw [same, found]; rfl, mt (nonempty url).mp full,
      (isPlain_reread true url).trans plain⟩
  · rw [same, h.noAction (post.mp m)]
    rfl
  · obtain ⟨url, found, full, plain⟩ := h.xhr (post.mp m)
    exact ⟨reread url, by rw [same, found]; rfl, mt (nonempty url).mp full,
      (isPlain_reread false url).trans plain⟩
  · exact h.target.imp top.mpr blank.mpr

end SafeForms.Html.Lexer
