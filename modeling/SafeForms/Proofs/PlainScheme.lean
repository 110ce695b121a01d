import Mathlib
import SafeForms.Form.Endpoint
import SafeForms.Text.Ascii

/-!
The plaintext scheme in characters. An address is tested byte by byte, but since the scheme is ASCII
its bytes are found exactly where its characters are, and the cut behind it never divides a
character. What is left of an address without its scheme begins with two slashes, so the test never
succeeds twice.
-/

namespace SafeForms.Endpoint

open Text

/-- Whether the characters begin with the plaintext scheme, up to ASCII case or as it is. -/
def beginsPlain (ignoreCase : Bool) (cs : List Char) : Bool :=
  if ignoreCase then startsWithFolded plainScheme.toList cs
  else plainScheme.toList.isPrefixOf cs

theorem utf8EncodeChar_ascii {c : Char} (h : c.toNat < 0x80) :
    String.utf8EncodeChar c = [UInt8.ofNat c.toNat] := by
  have low : c.val.toNat ≤ 0x7f := Nat.le_of_lt_succ h
  simp only [String.utf8EncodeChar, low, if_true]
  rfl

/-- A character beyond ASCII begins with a byte that no ASCII character has. -/
theorem utf8EncodeChar_wide {c : Char} (h : 0x80 ≤ c.toNat) :
    ∃ b bs, String.utf8EncodeChar c = b :: bs ∧ 0xc0 ≤ b.toNat := by
  have high : ¬ c.val.toNat ≤ 0x7f := by
    change 0x80 ≤ c.val.toNat at h
    omega
  simp only [String.utf8EncodeChar, high, if_false]
  split
  · refine ⟨_, _, rfl, ?_⟩
    simp only [UInt8.toNat_ofNat']
    omega
  · split
    · refine ⟨_, _, rfl, ?_⟩
      simp only [UInt8.toNat_ofNat']
      omega
    · refine ⟨_, _, rfl, ?_⟩
      simp only [UInt8.toNat_ofNat']
      omega

theorem isContinuation_ascii : ∀ n < 0x80, isContinuation (UInt8.ofNat n) = false := by
  decide +kernel

theorem isContinuation_lead : ∀ n < 0x100, 0xc0 ≤ n → isContinuation (UInt8.ofNat n) = false := by
  decide +kernel

theorem isBoundary_zero (cs : List Char) :
    isBoundary 0 (cs.flatMap String.utf8EncodeChar) = true := by
  cases cs with
  | nil => rfl
  | cons c cs =>
      rcases Nat.lt_or_ge c.toNat 0x80 with h | h
      · simp [isBoundary, utf8EncodeChar_ascii h, isContinuation_ascii _ h]
      · obtain ⟨b, bs, e, hb⟩ := utf8EncodeChar_wide h
        have lead := isContinuation_lead b.toNat b.toNat_lt hb
        rw [UInt8.ofNat_toNat] at lead
        simp [isBoundary, e, lead]

/-- Folding bytes and folding characters agree on ASCII and leave the rest outside of it. -/
structure FoldsAlike (f : UInt8 → UInt8) (g : Char → Char) : Prop where
  ascii : ∀ c : Char, c.toNat < 0x80 →
    f (UInt8.ofNat c.toNat) = UInt8.ofNat (g c).toNat ∧ (g c).toNat < 0x80
  lead : ∀ b : UInt8, 0xc0 ≤ b.toNat → 0xc0 ≤ (f b).toNat
  wide : ∀ c : Char, 0x80 ≤ c.toNat → 0x80 ≤ (g c).toNat

theorem ofNat_toNat_inj {c d : Char} (hc : c.toNat < 0x80) (hd : d.toNat < 0x80) :
    UInt8.ofNat c.toNat = UInt8.ofNat d.toNat ↔ c = d := by
  constructor
  · intro h
    have := congrArg UInt8.toNat h
    simp only [UInt8.toNat_ofNat'] at this
    exact Char.toNat_inj.mp (by omega)
  · rintro rfl
    rfl

/-- An ASCII keyword is found in the bytes exactly if it is found in the characters, and then the
bytes can be cut behind it. -/
theorem keyword_bytes_iff {f : UInt8 → UInt8} {g : Char → Char} (alike : FoldsAlike f g)
    (keyword cs : List Char) (ascii : ∀ k ∈ keyword, k.toNat < 0x80) :
    (isBoundary keyword.length (cs.flatMap String.utf8EncodeChar) = true ∧
      ((cs.flatMap String.utf8EncodeChar).take keyword.length).map f =
        keyword.flatMap String.utf8EncodeChar) ↔
      (cs.take keyword.length).map g = keyword := by
  induction keyword generalizing cs with
  | nil => simp [isBoundary_zero]
  | cons k keyword ih =>
      have hk := ascii k List.mem_cons_self
      have rest := fun cs => ih cs fun k h => ascii k (List.mem_cons_of_mem _ h)
      rw [List.flatMap_cons, utf8EncodeChar_ascii hk]
      cases cs with
      | nil => simp
      | cons c cs =>
          rw [List.flatMap_cons]
          -- an ASCII character is one byte; the first byte of any other is no byte of the keyword
          rcases Nat.lt_or_ge c.toNat 0x80 with hc | hc
          · obtain ⟨same, small⟩ := alike.ascii c hc
            simp only [utf8EncodeChar_ascii hc, List.cons_append, List.nil_append,
              List.length_cons, List.take_succ_cons, List.map_cons, List.cons.injEq, same,
              ofNat_toNat_inj small hk, isBoundary, List.drop_succ_cons, ← rest cs]
            tauto
          · obtain ⟨b, bs, e, hb⟩ := utf8EncodeChar_wide hc
            have big := alike.lead b hb
            have apart : f b ≠ UInt8.ofNat k.toNat := by
              intro h
              have := congrArg UInt8.toNat h
              simp only [UInt8.toNat_ofNat'] at this
              omega
            have other : g c ≠ k := by
              rintro rfl
              have := alike.wide c hc
              omega
            simp [e, apart, other]

theorem foldsAlike_id : FoldsAlike id id := by
  refine ⟨fun c h => ⟨rfl, h⟩, fun _ h => h, fun _ h => h⟩

theorem foldByte_ascii : ∀ n < 0x80,
    foldByte (UInt8.ofNat n) = UInt8.ofNat (Char.ofNat n).toLower.toNat ∧
      (Char.ofNat n).toLower.toNat < 0x80 := by
  decide +kernel

theorem foldByte_lead : ∀ n < 0x100, 0xc0 ≤ n → 0xc0 ≤ (foldByte (UInt8.ofNat n)).toNat := by
  decide +kernel

theorem toLower_wide {c : Char} (h : 0x80 ≤ c.toNat) : c.toLower = c := by
  refine Char.toLower_eq_of_not_isUpper ?_
  simp only [Char.isUpper, UInt32.le_iff_toNat_le, decide_eq_true_eq, not_and]
  intro _
  change ¬ c.toNat ≤ 90
  omega

theorem foldsAlike_foldByte : FoldsAlike foldByte Char.toLower where
  ascii c h := by
    have := foldByte_ascii c.toNat h
    rwa [Char.ofNat_toNat] at this
  lead b h := by
    have := foldByte_lead b.toNat b.toNat_lt h
    rwa [UInt8.ofNat_toNat] at this
  wide c h := by rwa [toLower_wide h]

theorem toList_plainScheme : plainScheme.toList = ['h', 't', 't', 'p', ':', '/', '/'] := by
  decide

theorem plainScheme_ascii : ∀ k ∈ plainScheme.toList, k.toNat < 0x80 := by
  simp [toList_plainScheme]

/-- The test of the bytes is a test of the characters. -/
theorem isPlain_eq (ignoreCase : Bool) (url : String) :
    isPlain ignoreCase url = beginsPlain ignoreCase url.toList := by
  have length : (bytes plainScheme).length = plainScheme.toList.length := by decide
  rw [Bool.eq_iff_iff, isPlain, length, Bool.and_eq_true, decide_eq_true_eq]
  cases ignoreCase with
  | false =>
      have key := keyword_bytes_iff foldsAlike_id plainScheme.toList url.toList plainScheme_ascii
      simp only [List.map_id_fun, id_eq] at key
      simp only [Bool.false_eq_true, if_false, beginsPlain, List.isPrefixOf_iff_prefix,
        List.prefix_iff_eq_take, bytes]
      exact key.trans eq_comm
  | true =>
      have key :=
        keyword_bytes_iff foldsAlike_foldByte plainScheme.toList url.toList plainScheme_ascii
      simp only [if_true, beginsPlain, startsWithFolded, lowerChars, bytes]
      exact key.trans decide_eq_true_iff.symm

theorem beginsPlain_true_iff (cs : List Char) :
    beginsPlain true cs = true ↔ (cs.take 7).map Char.toLower = plainScheme.toList := by
  have length : plainScheme.toList.length = 7 := by decide
  simp only [beginsPlain, if_true, startsWithFolded, lowerChars, length]
  exact decide_eq_true_iff

theorem beginsPlain_false_iff (cs : List Char) :
    beginsPlain false cs = true ↔ cs.take 7 = plainScheme.toList := by
  have length : plainScheme.toList.length = 7 := by decide
  simp only [beginsPlain, Bool.false_eq_true, if_false, List.isPrefixOf_iff_prefix,
    List.prefix_iff_eq_take, length]
  exact eq_comm

/-- The scheme as it is is also the scheme up to case. -/
theorem beginsPlain_true_of {ignoreCase : Bool} {cs : List Char}
    (h : beginsPlain ignoreCase cs = true) : beginsPlain true cs = true := by
  cases ignoreCase with
  | true => exact h
  | false =>
      have begins : plainScheme.toList <+: cs := List.isPrefixOf_iff_prefix.mp h
      obtain ⟨rest, rfl⟩ := begins
      rw [beginsPlain_true_iff, toList_plainScheme]
      rfl

theorem getElem?_of_beginsPlain {ignoreCase : Bool} {cs : List Char}
    (h : beginsPlain ignoreCase cs = true) (i : Nat) (hi : i < 7) :
    cs[i]?.map Char.toLower = plainScheme.toList[i]? := by
  have folded := (beginsPlain_true_iff cs).mp (beginsPlain_true_of h)
  rw [← folded, List.getElem?_map, List.getElem?_take_of_lt hi]

/-- What follows the dropped part of the scheme does not begin with the scheme again. -/
theorem beginsPlain_drop {ignoreCase : Bool} (again : Bool) {cs : List Char}
    (h : beginsPlain ignoreCase cs = true) :
    beginsPlain again (cs.drop dropped.length) = false := by
  rw [Bool.eq_false_iff]
  intro twice
  have slash := getElem?_of_beginsPlain h 5 (by decide)
  have letter := getElem?_of_beginsPlain twice 0 (by decide)
  rw [List.getElem?_drop] at letter
  rw [toList_plainScheme] at slash letter
  have same : some '/' = some 'h' := slash.symm.trans letter
  exact absurd same (by decide)

theorem toList_downgrade_of_isPlain {ignoreCase : Bool} {url : String}
    (h : isPlain ignoreCase url = true) :
    (downgrade ignoreCase url).toList = url.toList.drop dropped.length := by
  simp [downgrade, h]

theorem downgrade_of_not_isPlain {ignoreCase : Bool} {url : String}
    (h : isPlain ignoreCase url = false) : downgrade ignoreCase url = url := by
  simp [downgrade, h]

/-- An address that lost its scheme is plain in neither sense. -/
theorem isPlain_downgrade_of_isPlain {ignoreCase : Bool} (again : Bool) {url : String}
    (h : isPlain ignoreCase url = true) : isPlain again (downgrade ignoreCase url) = false := by
  rw [isPlain_eq, toList_downgrade_of_isPlain h]
  rw [isPlain_eq] at h
  exact beginsPlain_drop again h

@[simp] theorem isPlain_downgrade (ignoreCase : Bool) (url : String) :
    isPlain ignoreCase (downgrade ignoreCase url) = false := by
  by_cases h : isPlain ignoreCase url = true
  · exact isPlain_downgrade_of_isPlain ignoreCase h
  · rw [Bool.not_eq_true] at h
    rw [downgrade_of_not_isPlain h, h]

theorem length_of_isPlain {ignoreCase : Bool} {url : String} (h : isPlain ignoreCase url = true) :
    7 ≤ url.toList.length := by
  rw [isPlain_eq] at h
  have last := getElem?_of_beginsPlain h 6 (by decide)
  rw [toList_plainScheme] at last
  by_contra short
  rw [List.getElem?_eq_none (by omega)] at last
  exact absurd last (by decide)

theorem downgrade_eq_empty_iff (ignoreCase : Bool) (url : String) :
    downgrade ignoreCase url = "" ↔ url = "" := by
  by_cases h : isPlain ignoreCase url = true
  · have long := length_of_isPlain h
    have left : dropped.length = 5 := by decide
    rw [← String.toList_inj, ← String.toList_inj, toList_downgrade_of_isPlain h, left,
      String.toList_empty, List.drop_eq_nil_iff, ← List.length_eq_zero_iff]
    omega
  · rw [Bool.not_eq_true] at h
    rw [downgrade_of_not_isPlain h]

/-- Only a shorter address is another one. -/
theorem length_downgrade_eq_iff (ignoreCase : Bool) (url : String) :
    (downgrade ignoreCase url).length = url.length ↔ isPlain ignoreCase url = false := by
  by_cases h : isPlain ignoreCase url = true
  · have long := length_of_isPlain h
    have left : dropped.length = 5 := by decide
    rw [← String.length_toList, ← String.length_toList, toList_downgrade_of_isPlain h, h, left,
      List.length_drop]
    simp only [Bool.true_eq_false, iff_false]
    omega
  · rw [Bool.not_eq_true] at h
    simp [downgrade_of_not_isPlain h, h]

end SafeForms.Endpoint
