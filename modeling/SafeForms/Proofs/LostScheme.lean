import Mathlib
import SafeForms.Proofs.EncodedText
import SafeForms.Proofs.PlainScheme

/-!
What an address loses with the plaintext scheme. The scheme is looked for in the first seven bytes
and cut off behind the fifth; since no character of it needs a second byte, the cut is the same in
bytes and in characters (`bytes_downgrade`). So what is left is an end of the address, and it is
shorter in either count exactly if anything was cut off (`downgrade_loses_scheme`).
-/

namespace SafeForms

theorem length_lt_iff_of_suffix {α : Type} {part whole : List α} (h : part <:+ whole) :
    part.length < whole.length ↔ part ≠ whole := by
  constructor
  · rintro shorter rfl
    exact Nat.lt_irrefl _ shorter
  · intro other
    exact Nat.lt_of_le_of_ne h.length_le fun same => other (h.eq_of_length same)

namespace Endpoint

open Text

theorem bytes_eq (s : String) : bytes s = s.toUTF8.data.toList := (Utf8.toUTF8_eq s).symm

theorem length_bytes (s : String) : (bytes s).length = s.utf8ByteSize := by
  rw [bytes_eq]
  rfl

theorem bytes_inj {s t : String} : bytes s = bytes t ↔ s = t := by
  constructor
  · intro same
    have decoded := congrArg Utf8.decode same
    rw [bytes, bytes, Utf8.decode_utf8Encode, Utf8.decode_utf8Encode] at decoded
    exact String.toList_inj.mp decoded
  · rintro rfl
    rfl

/-- In front of characters of one byte each, bytes are counted as characters are. -/
theorem drop_flatMap_utf8EncodeChar (n : Nat) (cs : List Char)
    (ascii : ∀ c ∈ cs.take n, c.toNat < 0x80) :
    (cs.flatMap String.utf8EncodeChar).drop n = (cs.drop n).flatMap String.utf8EncodeChar := by
  induction n generalizing cs with
  | zero => rfl
  | succ n ih =>
      cases cs with
      | nil => rfl
      | cons c cs =>
          rw [List.take_succ_cons, List.forall_mem_cons] at ascii
          rw [List.flatMap_cons, utf8EncodeChar_ascii ascii.1, List.singleton_append,
            List.drop_succ_cons, List.drop_succ_cons, ih cs ascii.2]

/-- No character of the scheme is written in another way than in ASCII. -/
theorem ascii_of_beginsPlain {ignoreCase : Bool} {cs : List Char}
    (h : beginsPlain ignoreCase cs = true) : ∀ c ∈ cs.take 7, c.toNat < 0x80 := by
  intro c mem
  have folded := (beginsPlain_true_iff cs).mp (beginsPlain_true_of h)
  have letter : c.toLower ∈ plainScheme.toList := folded ▸ List.mem_map_of_mem mem
  by_contra wide
  rw [toLower_wide (Nat.le_of_not_lt wide)] at letter
  exact wide (plainScheme_ascii c letter)

theorem bytes_downgrade (ignoreCase : Bool) (url : String) :
    bytes (downgrade ignoreCase url) =
      if isPlain ignoreCase url then (bytes url).drop 5 else bytes url := by
  split
  · next plain =>
    have left : dropped.length = 5 := by decide
    have ascii := ascii_of_beginsPlain ((isPlain_eq ignoreCase url).symm.trans plain)
    rw [bytes, bytes, toList_downgrade_of_isPlain plain, left]
    refine (drop_flatMap_utf8EncodeChar 5 _ fun c mem => ascii c ?_).symm
    exact (List.take_sublist_take_left (by decide)).subset mem
  · next other => rw [downgrade_of_not_isPlain (Bool.not_eq_true _ ▸ other)]

theorem toList_downgrade_suffix (ignoreCase : Bool) (url : String) :
    (downgrade ignoreCase url).toList <:+ url.toList := by
  by_cases h : isPlain ignoreCase url = true
  · rw [toList_downgrade_of_isPlain h]
    exact List.drop_suffix _ _
  · rw [downgrade_of_not_isPlain (Bool.eq_false_iff.mpr h)]

theorem bytes_downgrade_suffix (ignoreCase : Bool) (url : String) :
    bytes (downgrade ignoreCase url) <:+ bytes url := by
  rw [bytes_downgrade]
  split
  · exact List.drop_suffix _ _
  · exact List.suffix_rfl

/-- What is lost if case counts is also lost if it does not. -/
theorem downgrade_true_of_changed {url : String} (changed : downgrade false url ≠ url) :
    downgrade true url = downgrade false url := by
  have plain : isPlain false url = true := by
    by_contra other
    exact changed (downgrade_of_not_isPlain (Bool.eq_false_iff.mpr other))
  have folded : isPlain true url = true := by
    rw [isPlain_eq] at plain ⊢
    exact beginsPlain_true_of plain
  rw [← String.toList_inj, toList_downgrade_of_isPlain plain, toList_downgrade_of_isPlain folded]

/-- The bytes of an address show the plaintext scheme exactly if its characters do. Such an address
loses its first five characters, which are its first five bytes, and any other stays as it is. What
is left never shows the scheme again and is not empty unless the address was, and its length tells
whether anything was lost. -/
theorem downgrade_loses_scheme (ignoreCase : Bool) (url : String) :
    (isPlain ignoreCase url = true ↔
      (if ignoreCase then (url.toList.take 7).map Char.toLower else url.toList.take 7) =
        "http://".toList) ∧
      let rest := downgrade ignoreCase url
      rest.toList = (if isPlain ignoreCase url then url.toList.drop 5 else url.toList) ∧
        bytes rest = (if isPlain ignoreCase url then (bytes url).drop 5 else bytes url) ∧
        rest.toList <:+ url.toList ∧
        (rest.length < url.length ↔ rest ≠ url) ∧
        (rest.utf8ByteSize < url.utf8ByteSize ↔ rest ≠ url) ∧
        (isPlain ignoreCase rest = false ∧ downgrade ignoreCase rest = rest) ∧
        (rest = "" ↔ url = "") ∧
        (downgrade false url ≠ url → downgrade true url = downgrade false url) := by
  refine ⟨?_, ?_⟩
  · rw [isPlain_eq]
    cases ignoreCase with
    | true => exact beginsPlain_true_iff _
    | false => exact beginsPlain_false_iff _
  intro rest
  have again : isPlain ignoreCase rest = false := isPlain_downgrade ignoreCase url
  refine ⟨?_, bytes_downgrade ignoreCase url, toList_downgrade_suffix ignoreCase url, ?_, ?_,
    ⟨again, downgrade_of_not_isPlain again⟩, downgrade_eq_empty_iff ignoreCase url,
    downgrade_true_of_changed⟩
  · split
    · next plain => exact toList_downgrade_of_isPlain plain
    · next other => exact congrArg _ (downgrade_of_not_isPlain (Bool.eq_false_iff.mpr other))
  · rw [← String.length_toList, ← String.length_toList, ne_eq, ← String.toList_inj]
    exact length_lt_iff_of_suffix (toList_downgrade_suffix ignoreCase url)
  · rw [← length_bytes, ← length_bytes, ne_eq, ← bytes_inj]
    exact length_lt_iff_of_suffix (bytes_downgrade_suffix ignoreCase url)

end Endpoint
end SafeForms
