import SafeForms.Html.Builder
import SafeForms.Proofs.ReadAgain

/-!
Reading a start tag where it was written. The quotes around a value end it, since quotes inside are
escaped; the references in it are those of the escapes; and a name ends with its equals sign. So the
attributes are read in order, the first one of each name counts as it does in an attribute list, and
only the values are changed by what reading does to lines and NULs (`get?_of_metTag`).
-/

namespace SafeForms.Html

open Text.Utf8 (replacement)

/-! ### Lines -/

namespace Source

theorem normalizeLines_of_notMem {cs : List Char} (h : '\r' ∉ cs) (more : List Char) :
    (normalizeLines false (cs ++ more)).1 = cs ++ (normalizeLines false more).1 := by
  induction cs with
  | nil => rfl
  | cons c cs ih =>
      have other : c ≠ '\r' := fun e => h (e ▸ List.mem_cons_self)
      have rest := ih fun mem => h (List.mem_cons_of_mem c mem)
      simp [normalizeLines, other, rest]

/-- What stands in quotes has its lines to itself. -/
theorem normalizeLines_quoted (cs more : List Char) :
    (normalizeLines false (cs ++ '"' :: more)).1 =
      (normalizeLines false cs).1 ++ '"' :: (normalizeLines false more).1 := by
  rw [normalizeLines_append]
  simp [normalizeLines]

theorem normalizeLines_escape (afterReturn : Bool) (cs : List Char) :
    normalizeLines afterReturn (cs.flatMap escapeValueChar) =
      ((normalizeLines afterReturn cs).1.flatMap escapeValueChar,
        (normalizeLines afterReturn cs).2) := by
  induction cs generalizing afterReturn with
  | nil => rfl
  | cons c cs ih =>
      rw [List.flatMap_cons]
      by_cases h₁ : c = '&'
      · subst c; simp [escapeValueChar, normalizeLines, ih]
      by_cases h₂ : c = '\u00a0'
      · subst c; simp [escapeValueChar, normalizeLines, ih]
      by_cases h₃ : c = '"'
      · subst c; simp [escapeValueChar, normalizeLines, ih]
      by_cases h₄ : c = '\n'
      · subst c; cases afterReturn <;> simp [escapeValueChar, normalizeLines, ih]
      by_cases h₅ : c = '\r'
      · subst c; simp [escapeValueChar, normalizeLines, ih]
      simp [escapeValueChar, normalizeLines, h₁, h₂, h₃, h₄, h₅, ih]

end Source

/-! ### References -/

namespace Reference

theorem resolveFrom_reference {cs : List Char} {c : Char} {n : Nat}
    (h : scan true cs = some (c, n)) : resolveFrom 0 ('&' :: cs) = c :: resolveFrom n cs := by
  simp [resolveFrom, h]

/-- The name of a reference that is given with its semicolon is recognized. -/
theorem scan_amp (cs : List Char) : scan true ('a' :: 'm' :: 'p' :: ';' :: cs) = some ('&', 4) := by
  have length : "amp".length = 3 := by decide
  simp [scan, scanName, named, semicolon, List.isPrefixOf, length]

theorem scan_nbsp (cs : List Char) :
    scan true ('n' :: 'b' :: 's' :: 'p' :: ';' :: cs) = some ('\u00a0', 5) := by
  have length : "nbsp".length = 4 := by decide
  simp [scan, scanName, named, semicolon, List.isPrefixOf, length]

theorem scan_quot (cs : List Char) :
    scan true ('q' :: 'u' :: 'o' :: 't' :: ';' :: cs) = some ('"', 5) := by
  have length : "quot".length = 4 := by decide
  simp [scan, scanName, named, semicolon, List.isPrefixOf, length]

theorem resolve_escape (cs : List Char) : resolve (cs.flatMap escapeValueChar) = cs := by
  rw [resolve]
  induction cs with
  | nil => rfl
  | cons c cs ih =>
      rw [List.flatMap_cons]
      by_cases h₁ : c = '&'
      · subst c
        simp [escapeValueChar, resolveFrom_reference (scan_amp _), resolveFrom, ih]
      by_cases h₂ : c = '\u00a0'
      · subst c
        simp [escapeValueChar, resolveFrom_reference (scan_nbsp _), resolveFrom, ih]
      by_cases h₃ : c = '"'
      · subst c
        simp [escapeValueChar, resolveFrom_reference (scan_quot _), resolveFrom, ih]
      simp [escapeValueChar, resolveFrom, h₁, h₂, h₃, ih]

end Reference

theorem quote_notMem_escape (cs : List Char) : '"' ∉ cs.flatMap escapeValueChar := by
  intro h
  obtain ⟨c, _, hc⟩ := List.mem_flatMap.mp h
  rw [escapeValueChar] at hc
  split at hc
  · exact absurd hc (by decide)
  · split at hc
    · exact absurd hc (by decide)
    · split at hc
      · exact absurd hc (by decide)
      · next other => exact other (List.mem_singleton.mp hc).symm

/-! ### Attributes in a tag -/

namespace Lexer

theorem scanAttributes_close (attrs : List (String × String)) (rest : List Char) :
    scanAttributes attrs ('>' :: rest) = some (attrs, false, rest) := by
  rw [scanAttributes]
  split
  · next e => simp [Text.isBlank] at e
  · next e =>
    rw [List.dropWhile_cons_of_neg (by decide)] at e
    cases e
    rfl

theorem scanAttributes_next {attrs : List (String × String)} {cs rest value after : List Char}
    {c : Char} (head : cs.dropWhile Text.isBlank = c :: rest) (close : c ≠ '>') (slash : c ≠ '/')
    (scanned : scanValue (rest.dropWhile (!endsAttributeName ·)) = some (value, after)) :
    scanAttributes attrs cs =
      scanAttributes (addAttribute attrs (c :: rest.takeWhile (!endsAttributeName ·)) value)
        after := by
  conv_lhs => rw [scanAttributes]
  split
  · next e =>
    rw [head] at e
    contradiction
  · next d more e =>
    obtain ⟨rfl, rfl⟩ := List.cons.inj (head.symm.trans e)
    rw [if_neg close, if_neg slash]
    split
    · next e =>
      rw [scanned] at e
      contradiction
    · next e =>
      rw [scanned] at e
      cases e
      rfl

theorem scanValue_quoted {value : List Char} (h : '"' ∉ value) (rest : List Char) :
    scanValue ('=' :: '"' :: (value ++ '"' :: rest)) = some (value, rest) := by
  have inside : ∀ c ∈ value, decide (c ≠ '"') = true := by
    intro c hc
    exact decide_eq_true fun e => h (e ▸ hc)
  have cut : (value ++ '"' :: rest).dropWhile (· ≠ '"') = '"' :: rest := by
    rw [List.dropWhile_append_of_pos inside]
    simp
  have taken : (value ++ '"' :: rest).takeWhile (· ≠ '"') = value := by
    rw [List.takeWhile_append_of_pos inside]
    simp
  have scanned : scanQuoted '"' (value ++ '"' :: rest) = some (value, rest) := by
    simp only [scanQuoted, cut, taken]
  rw [scanValue, List.dropWhile_cons_of_neg (by decide)]
  simp only
  rw [List.dropWhile_cons_of_neg (by decide)]
  exact scanned

/-- An attribute is read as it is written. -/
theorem scanAttributes_quoted {name value : List Char} (hn : IsName name) (hv : '"' ∉ value)
    (attrs : List (String × String)) (rest : List Char) :
    scanAttributes attrs (' ' :: (name ++ '=' :: '"' :: (value ++ '"' :: rest))) =
      scanAttributes (addAttribute attrs name value) rest := by
  obtain ⟨c, more, rfl, first, others⟩ := hn.begins
  simp only [endsTagName, Bool.or_eq_false_iff, decide_eq_false_iff_not] at first
  obtain ⟨⟨blank, slash⟩, close⟩ := first
  have inside : ∀ d ∈ more, (!endsAttributeName d) = true := fun d hd => by simp [others d hd]
  have stop : (!endsAttributeName '=') = false := by decide
  have head : (' ' :: (c :: more ++ '=' :: '"' :: (value ++ '"' :: rest))).dropWhile Text.isBlank =
      c :: (more ++ '=' :: '"' :: (value ++ '"' :: rest)) := by
    rw [List.dropWhile_cons_of_pos (by decide), List.cons_append,
      List.dropWhile_cons_of_neg (by simp [blank])]
  have cut : (more ++ '=' :: '"' :: (value ++ '"' :: rest)).dropWhile (!endsAttributeName ·) =
      '=' :: '"' :: (value ++ '"' :: rest) := by
    rw [List.dropWhile_append_of_pos inside]
    simp [stop]
  have taken : (more ++ '=' :: '"' :: (value ++ '"' :: rest)).takeWhile (!endsAttributeName ·) =
      more := by
    rw [List.takeWhile_append_of_pos inside]
    simp [stop]
  have scanned := scanValue_quoted hv rest
  rw [← cut] at scanned
  rw [scanAttributes_next head close slash scanned, taken]

end Lexer

/-! ### Lists of attributes -/

/-- An attribute whose name is written as it was read. -/
structure WrittenPlainly (a : Attribute) : Prop where
  ns : a.ns = .null
  name : Lexer.IsName a.name.toList

/-- The characters of a value between its quotes, as a reader meets them. -/
def quotedValue (a : Attribute) : List Char :=
  (Source.normalizeLines false a.value.toList).1.flatMap escapeValueChar

/-- The characters of an attribute, as a reader meets them. -/
def metAttribute (a : Attribute) : List Char :=
  ' ' :: (a.name.toList ++ '=' :: '"' :: (quotedValue a ++ ['"']))

theorem Lexer.IsName.return_notMem {cs : List Char} (h : IsName cs) : '\r' ∉ cs := by
  obtain ⟨c, rest, rfl, first, others⟩ := h.begins
  intro mem
  rcases List.mem_cons.mp mem with rfl | mem
  · exact absurd first (by decide)
  · exact absurd (others _ mem) (by decide)

theorem normalizeLines_writeAttribute {a : Attribute} (h : WrittenPlainly a) (more : List Char) :
    (Source.normalizeLines false ((writeAttribute a).toList ++ more)).1 =
      metAttribute a ++ (Source.normalizeLines false more).1 := by
  have written : (writeAttribute a).toList ++ more = (' ' :: (a.name.toList ++ ['=', '"'])) ++
      (a.value.toList.flatMap escapeValueChar ++ '"' :: more) := by
    simp [writeAttribute, qualifier, h.ns, escapeValue]
  have plain : '\r' ∉ ' ' :: (a.name.toList ++ ['=', '"']) := by
    simp [h.name.return_notMem]
  rw [written, Source.normalizeLines_of_notMem plain, Source.normalizeLines_quoted,
    Source.normalizeLines_escape]
  simp [metAttribute, quotedValue]

theorem normalizeLines_writeAttributes {attrs : Attributes} (h : ∀ a ∈ attrs, WrittenPlainly a)
    (more : List Char) :
    (Source.normalizeLines false ((writeAttributes attrs).toList ++ more)).1 =
      attrs.flatMap metAttribute ++ (Source.normalizeLines false more).1 := by
  rw [writeAttributes, String.toList_join]
  induction attrs with
  | nil => rfl
  | cons a attrs ih =>
      rw [List.forall_mem_cons] at h
      rw [List.map_cons, List.flatMap_cons, List.append_assoc, normalizeLines_writeAttribute h.1,
        ih h.2, List.flatMap_cons, List.append_assoc]

def addWritten (attrs : List (String × String)) (a : Attribute) : List (String × String) :=
  Lexer.addAttribute attrs a.name.toList (quotedValue a)

theorem addWritten_eq {a : Attribute} (h : WrittenPlainly a) (attrs : List (String × String)) :
    addWritten attrs a =
      if attrs.any (·.1 = a.name) then attrs else attrs ++ [(a.name, Lexer.reread a.value)] := by
  rw [addWritten, Lexer.addAttribute, Lexer.cleanName_of_isName h.name, quotedValue,
    Reference.resolve_escape]
  rfl

theorem scanAttributes_met {attrs : Attributes} (h : ∀ a ∈ attrs, WrittenPlainly a)
    (before : List (String × String)) (rest : List Char) :
    Lexer.scanAttributes before (attrs.flatMap metAttribute ++ '>' :: rest) =
      some (attrs.foldl addWritten before, false, rest) := by
  induction attrs generalizing before with
  | nil => exact Lexer.scanAttributes_close before rest
  | cons a attrs ih =>
      rw [List.forall_mem_cons] at h
      have next := Lexer.scanAttributes_quoted h.1.name
        (quote_notMem_escape (Source.normalizeLines false a.value.toList).1) before
        (attrs.flatMap metAttribute ++ '>' :: rest)
      have met : (a :: attrs).flatMap metAttribute ++ '>' :: rest =
          ' ' :: (a.name.toList ++ '=' :: '"' :: (quotedValue a ++
            '"' :: (attrs.flatMap metAttribute ++ '>' :: rest))) := by
        simp [metAttribute]
      rw [met]
      exact next.trans (ih h.2 _)

theorem get?_append (name : String) (attrs more : Attributes) :
    Attributes.get? name (attrs ++ more) =
      (attrs.get? name).or (more.get? name) := by
  rw [Attributes.get?, List.find?_append, Option.map_or]
  rfl

theorem has_attributes (tag : Tag) (name : String) :
    (Builder.attributes tag).has name = tag.attrs.any (·.1 = name) := by
  simp [Attributes.has, Builder.attributes, List.any_map, Attribute.isNamed, Function.comp_def]

/-- An attribute counts if none of its name came before. -/
theorem get?_addWritten {a : Attribute} (h : WrittenPlainly a) (tag : Tag) (name : String) :
    (Builder.attributes { tag with attrs := addWritten tag.attrs a }).get? name =
      ((Builder.attributes tag).get? name).or
        ((Attributes.get? name [a]).map Lexer.reread) := by
  have named : a.isNamed name = decide (a.name = name) := by
    simp [Attribute.isNamed, h.ns]
  rw [addWritten_eq h, Attributes.get?_cons, named]
  -- a further attribute of a name is dropped, but the first of them counted already
  by_cases known : tag.attrs.any (·.1 = a.name) = true
  · rw [if_pos known]
    by_cases same : a.name = name
    · rw [← has_attributes, Attributes.has_eq_isSome, same, Option.isSome_iff_exists] at known
      obtain ⟨value, found⟩ := known
      rw [found, Option.some_or]
    · simp [same]
  · have appended : Builder.attributes
        { tag with attrs := tag.attrs ++ [(a.name, Lexer.reread a.value)] } =
        Builder.attributes tag ++ [⟨.null, a.name, Lexer.reread a.value⟩] := by
      simp [Builder.attributes]
    rw [if_neg known, appended, get?_append, Attributes.get?_cons]
    by_cases same : a.name = name <;> simp [same, Attribute.isNamed]

/-- Of the attributes of a name the first is read, as it is the first that counts. -/
theorem get?_foldl_addWritten {attrs : Attributes} (h : ∀ a ∈ attrs, WrittenPlainly a) (tag : Tag)
    (name : String) :
    (Builder.attributes { tag with attrs := attrs.foldl addWritten tag.attrs }).get? name =
      ((Builder.attributes tag).get? name).or ((attrs.get? name).map Lexer.reread) := by
  induction attrs generalizing tag with
  | nil => simp
  | cons a attrs ih =>
      rw [List.forall_mem_cons] at h
      have first := get?_addWritten h.1 tag name
      have rest := ih h.2 { tag with attrs := addWritten tag.attrs a }
      have parts : Attributes.get? name (a :: attrs) =
          (Attributes.get? name [a]).or (Attributes.get? name attrs) := get?_append name [a] attrs
      rw [parts, Option.map_or, ← Option.or_assoc, ← first]
      exact rest

/-! ### Start tags -/

/-- The characters of the start tag of an element, as a reader meets them. -/
def metTag (e : Element) : List Char := (Source.normalizeLines false (startTag e).toList).1

theorem metTag_eq {e : Element} (name : ∀ c ∈ e.name.toList, Lexer.endsTagName c = false)
    (plain : ∀ a ∈ e.attrs, WrittenPlainly a) :
    metTag e = '<' :: (e.name.toList ++ (e.attrs.flatMap metAttribute ++ ['>'])) := by
  have written : (startTag e).toList =
      ('<' :: e.name.toList) ++ ((writeAttributes e.attrs).toList ++ ['>']) := by
    simp [startTag]
  have whole : '\r' ∉ '<' :: e.name.toList := by
    intro mem
    rcases List.mem_cons.mp mem with h | mem
    · exact absurd h (by decide)
    · exact absurd (name _ mem) (by decide)
  rw [metTag, written, Source.normalizeLines_of_notMem whole,
    normalizeLines_writeAttributes plain]
  rfl

example : metTag ⟨.html, "form", [⟨.null, "action", "/a\r\n\"b\""⟩]⟩ =
    "<form action=\"/a\n&quot;b&quot;\">".toList := by decide +kernel

/-- Where the start tag of an element was written, the reader finds its attributes. -/
theorem get?_of_metTag {e : Element} {tag : Tag} {cs rest : List Char}
    (name : ∀ c ∈ e.name.toList, Lexer.endsTagName c = false)
    (plain : ∀ a ∈ e.attrs, WrittenPlainly a) (met : metTag e <+: '<' :: cs)
    (scanned : Lexer.scanAttributes [] (cs.dropWhile (!Lexer.endsTagName ·)) =
      some (tag.attrs, tag.selfClosing, rest)) (key : String) :
    (Builder.attributes tag).get? key = (e.attrs.get? key).map Lexer.reread := by
  obtain ⟨more, split⟩ := met
  rw [metTag_eq name plain, List.cons_append, List.cons.injEq] at split
  obtain ⟨-, rfl⟩ := split
  have inside : ∀ c ∈ e.name.toList, (!Lexer.endsTagName c) = true := fun c hc => by
    simp [name c hc]
  -- behind the name comes the blank before an attribute or the closing bracket
  have stops : (e.attrs.flatMap metAttribute ++ '>' :: more).dropWhile (!Lexer.endsTagName ·) =
      e.attrs.flatMap metAttribute ++ '>' :: more := by
    cases e.attrs with
    | nil => exact List.dropWhile_cons_of_neg (by decide)
    | cons a attrs => exact List.dropWhile_cons_of_neg (by decide)
  have behind : (e.name.toList ++ (e.attrs.flatMap metAttribute ++ ['>']) ++ more).dropWhile
      (!Lexer.endsTagName ·) = e.attrs.flatMap metAttribute ++ '>' :: more := by
    rw [List.append_assoc, List.append_assoc, List.dropWhile_append_of_pos inside]
    exact stops
  rw [behind, scanAttributes_met plain] at scanned
  obtain ⟨attrs, -, -⟩ := by simpa using scanned
  have read := get?_foldl_addWritten plain { tag with attrs := [] } key
  rw [attrs] at read
  exact read

/-! ### Tags in a text -/

/-- The elements whose start tags are written, each with the text from its start tag on. -/
def writtenTags (s : Surround) (after : List Char) : Markup → List (Element × List Char)
  | .nil => []
  | .node n _ children siblings =>
    let behind := (write s siblings).toList ++ after
    let inside :=
      match n with
      | .element e =>
        let ended := (writeEnd s e).toList ++ behind
        let tag := (startTag e).toList ++ ((write (s.within e) children).toList ++ ended)
        (if s.untagged then [] else [(e, tag)]) ++ writtenTags (s.within e) ended children
      | _ => []
    inside ++ writtenTags s after siblings

end SafeForms.Html
