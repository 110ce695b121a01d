import Mathlib
import SafeForms.Html.Parse

/-!
Reading a text that comes in pieces. How a text was cut counts only where reading begins anew at a
byte order mark: if no piece but the first begins with one, or if marks are kept, then the pieces are
read as the whole text is (`parse_ofPieces`).
-/

namespace SafeForms.Html

/-! ### Ends of scripts -/

namespace Lexer

/-- A tag ends with its closing bracket. -/
theorem bracket_of_scanAttributes {attrs read : List (String × String)} {closing : Bool}
    {cs rest : List Char} (h : scanAttributes attrs cs = some (read, closing, rest)) :
    '>' :: rest <:+ cs := by
  fun_induction scanAttributes attrs cs with
  | case1 => contradiction
  | case2 attrs cs after e =>
      cases h
      exact e ▸ List.dropWhile_suffix _
  | case3 attrs cs after ends e _ =>
      cases h
      obtain ⟨rest, rfl⟩ := List.head?_eq_some_iff.mp ends
      exact suffix_of_dropWhile e
  | case4 attrs cs after _ e _ ih => exact (ih h).trans (suffix_of_dropWhile e)
  | case5 => contradiction
  | case6 attrs cs c after e _ _ value remaining g ih =>
      exact ((ih h).trans (rest_scanValue_suffix g)).trans
        ((List.dropWhile_suffix _).trans (suffix_of_dropWhile e))

theorem bracket_of_getD_stepEndTag {name : String} {cs : List Char} {s : Step} {token : Token}
    (plain : s.tokens ≠ [token]) (ends : ((stepEndTag? name cs).getD s).tokens = [token]) :
    '>' :: ((stepEndTag? name cs).getD s).rest <:+ cs := by
  cases e : stepEndTag? name cs with
  | none =>
      rw [e] at ends
      exact absurd ends plain
  | some ended =>
      obtain ⟨after, found, rfl⟩ := Option.map_eq_some_iff.mp e
      rw [e] at ends
      simp only [Option.getD_some] at ends ⊢
      split at ends
      · cases ends
      · next scanned => exact (bracket_of_scanAttributes scanned).trans (afterEndName_suffix found)

theorem bracket_of_stepScript {part : ScriptPart} {c : Char} {cs : List Char} {name : String}
    (ends : (stepScript part c cs).tokens = [.endTag name]) :
    '>' :: (stepScript part c cs).rest <:+ cs := by
  unfold stepScript at ends ⊢
  cases part with
  | nested dashes => cases ends
  | comment dashes =>
      by_cases h : c = '<'
      · simp only [if_pos h] at ends ⊢
        exact bracket_of_getD_stepEndTag (by nofun) ends
      · simp only [if_neg h] at ends
        cases ends
  | plain =>
      by_cases h : c = '<'
      · simp only [if_pos h] at ends ⊢
        split at ends
        · cases ends
        · next other =>
          rw [if_neg other]
          exact bracket_of_getD_stepEndTag (by nofun) ends
      · simp only [if_neg h] at ends
        cases ends

/-- A script ends with the closing bracket of its end tag. -/
theorem bracket_of_endsScript {lexing : Lexing} {foreign : Bool} {c : Char} {cs : List Char}
    (h : (step lexing foreign c cs).endsScript lexing = true) :
    '>' :: (step lexing foreign c cs).rest <:+ cs := by
  unfold Step.endsScript at h
  split at h
  · next part name ends => exact bracket_of_stepScript ends
  · contradiction

end Lexer

/-! ### Where reading begins anew -/

namespace Source

theorem remaining_cons (piece : List Char) (pieces : List (List Char)) :
    remaining (piece :: pieces) = (piece :: pieces).flatten.length :: remaining pieces := by
  have total : (remaining pieces).headD 0 = pieces.flatten.length := by
    induction pieces with
    | nil => rfl
    | cons next pieces ih =>
        simp only [remaining, List.headD_cons, ih, List.flatten_cons, List.length_append]
  rw [remaining, total, List.flatten_cons, List.length_append]

theorem dropMark_eq_self {cs : List Char} (h : cs.head? ≠ some mark) : dropMark cs = cs := by
  cases cs with
  | nil => rfl
  | cons c cs => exact if_neg fun e => h (congrArg some e)

theorem dropMark_append {cs : List Char} (h : cs ≠ []) (more : List Char) :
    dropMark (cs ++ more) = dropMark cs ++ more := by
  cases cs with
  | nil => contradiction
  | cons c cs =>
      simp only [dropMark, List.cons_append]
      split <;> rfl

theorem count_dropMark (cs : List Char) :
    (dropMark cs).count mark + (if cs.head? = some mark then 1 else 0) = cs.count mark := by
  cases cs with
  | nil => rfl
  | cons c cs => by_cases h : c = mark <;> simp [dropMark, h]

theorem count_normalizeLines (afterReturn : Bool) (cs : List Char) :
    (normalizeLines afterReturn cs).1.count mark = cs.count mark := by
  induction cs generalizing afterReturn with
  | nil => rfl
  | cons c cs ih =>
      rw [normalizeLines]
      split
      · next skipped =>
        have feed : c = '\n' := by simp_all
        rw [ih, feed, List.count_cons_of_ne (by decide)]
      · by_cases ret : c = '\r'
        · have feed : '\n' ≠ mark := by decide
          have ends : '\r' ≠ mark := by decide
          simp [ret, ih, feed, ends]
        · simp [ret, ih, List.count_cons]

/-- Every piece that begins with a mark loses one. -/
theorem count_readPieces (afterReturn : Bool) (pieces : List (List Char)) :
    (readPieces true afterReturn pieces).flatten.count mark +
        pieces.countP (·.head? = some mark) = pieces.flatten.count mark := by
  induction pieces generalizing afterReturn with
  | nil => rfl
  | cons piece pieces ih =>
      have first := count_dropMark piece
      have others := ih (normalizeLines afterReturn (dropMark piece)).2
      simp only [readPieces, if_true, List.flatten_cons, List.count_append, count_normalizeLines,
        List.countP_cons, decide_eq_true_eq]
      omega

/-- Behind a carriage return there stands the line feed that was written for it. -/
theorem getLast?_normalizeLines (before : List Char) {cs : List Char} {afterReturn : Bool}
    (h : afterReturn = true → before.getLast? = some '\n')
    (ret : (normalizeLines afterReturn cs).2 = true) :
    (before ++ (normalizeLines afterReturn cs).1).getLast? = some '\n' := by
  induction cs generalizing before afterReturn with
  | nil => simpa [normalizeLines] using h ret
  | cons c cs ih =>
      simp only [normalizeLines] at ret ⊢
      split at ret
      · next skipped =>
        rw [if_pos skipped]
        exact ih before (by simp) ret
      · next kept =>
        rw [if_neg kept]
        have next := ih (before ++ [if c = '\r' then '\n' else c]) (by simp +contextual) ret
        simpa using next

theorem readPieces_cons {pieces : List (List Char)} {piece : List Char} {afterReturn : Bool}
    (h : piece.head? ≠ some mark) :
    readPieces true afterReturn (piece :: pieces) =
      (normalizeLines afterReturn piece).1 ::
        readPieces true (normalizeLines afterReturn piece).2 pieces := by
  simp [readPieces, dropMark_eq_self h]

/-- No piece of a text is empty or begins with a mark. -/
def Unmarked (pieces : List (List Char)) : Prop :=
  ∀ piece ∈ pieces, piece ≠ [] ∧ piece.head? ≠ some mark

theorem readPieces_of_unmarked {pieces : List (List Char)} (h : Unmarked pieces)
    (afterReturn : Bool) :
    readPieces true afterReturn pieces = readPieces false afterReturn pieces := by
  induction pieces generalizing afterReturn with
  | nil => rfl
  | cons piece pieces ih =>
      rw [Unmarked, List.forall_mem_cons] at h
      rw [readPieces_cons h.1.2, ih h.2]
      rfl

/-- A piece that begins behind a closing bracket begins with no mark. -/
theorem head?_ne_mark_of_border {before rest : List Char} {pieces : List (List Char)}
    {afterReturn : Bool} (unmarked : Unmarked pieces)
    (h : afterReturn = true → before.getLast? = some '\n')
    (behind : '>' :: rest <:+ before ++ (readPieces true afterReturn pieces).flatten)
    (border : rest.length ∈ remaining (readPieces true afterReturn pieces)) :
    rest.head? ≠ some mark := by
  induction pieces generalizing before afterReturn with
  | nil => cases border
  | cons piece pieces ih =>
      rw [Unmarked, List.forall_mem_cons] at unmarked
      obtain ⟨⟨full, plain⟩, others⟩ := unmarked
      rw [readPieces_cons plain] at behind border
      rw [remaining_cons, List.mem_cons] at border
      rcases border with here | later
      · have whole := (List.suffix_of_suffix_length_le ((List.suffix_cons _ _).trans behind)
          (List.suffix_append _ _) (Nat.le_of_eq here)).eq_of_length here
        rw [← whole] at behind
        -- the bracket stands right before the piece, so no carriage return does
        obtain ⟨front, e⟩ := behind
        have bracket : front ++ ['>'] = before := by
          refine List.append_cancel_right (?_ : front ++ ['>'] ++ rest = before ++ rest)
          rw [← e, List.append_assoc, List.singleton_append]
        have fresh : afterReturn = false := by
          cases afterReturn with
          | false => rfl
          | true => simp [← bracket] at h
        cases piece with
        | nil => contradiction
        | cons c piece =>
            have first : c ≠ mark := fun e => plain (congrArg some e)
            rw [whole, fresh]
            by_cases ret : c = '\r'
            · simp [normalizeLines, ret, mark]
            · simp [normalizeLines, ret, first]
      · refine ih others (getLast?_normalizeLines before h) ?_ later
        rwa [List.flatten_cons, ← List.append_assoc] at behind

/-- No piece but the first begins with a mark. -/
def MarkedAtStart (pieces : List (List Char)) : Prop :=
  ∀ piece ∈ pieces.tail, piece.head? ≠ some mark

instance (pieces : List (List Char)) : Decidable (MarkedAtStart pieces) :=
  inferInstanceAs (Decidable (∀ _ ∈ _, _))

theorem MarkedAtStart.unmarked {piece : List Char} {pieces : List (List Char)}
    (h : MarkedAtStart (piece :: pieces)) (full : ∀ p ∈ piece :: pieces, p ≠ []) :
    Unmarked pieces :=
  fun p hp => ⟨full p (List.mem_cons_of_mem _ hp), h p hp⟩

variable {pieces : List (List Char)} (full : ∀ piece ∈ pieces, piece ≠ [])
include full

theorem chars_ofPieces {dropsMarks : Bool} (h : dropsMarks = false ∨ MarkedAtStart pieces) :
    (ofPieces dropsMarks pieces).chars = (ofPieces dropsMarks [pieces.flatten]).chars := by
  have plain : (ofPieces false pieces).chars = (ofPieces false [pieces.flatten]).chars := by
    simp only [ofPieces, flatten_readPieces, List.flatten_singleton]
  cases dropsMarks with
  | false => exact plain
  | true =>
      cases pieces with
      | nil => rfl
      | cons piece pieces =>
          have unmarked : Unmarked pieces := (h.resolve_left Bool.noConfusion).unmarked full
          simp only [ofPieces, readPieces, if_true, List.flatten_cons, List.flatten_nil,
            List.append_nil, dropMark_append (full piece List.mem_cons_self),
            normalizeLines_append, readPieces_of_unmarked unmarked, flatten_readPieces]

/-- The same characters are read of the pieces as of the whole text only where no mark is lost. -/
theorem chars_ofPieces_iff (dropsMarks : Bool) :
    (ofPieces dropsMarks pieces).chars = (ofPieces dropsMarks [pieces.flatten]).chars ↔
      dropsMarks = false ∨ MarkedAtStart pieces := by
  refine ⟨fun same => ?_, chars_ofPieces full⟩
  cases dropsMarks with
  | false => exact .inl rfl
  | true =>
      refine .inr ?_
      cases pieces with
      | nil => nofun
      | cons piece pieces =>
          rw [List.forall_mem_cons] at full
          have counts := congrArg (List.count mark) same
          simp only [ofPieces, readPieces, if_true, List.flatten_cons, List.flatten_nil,
            List.append_nil, List.count_append, count_normalizeLines,
            dropMark_append full.1] at counts
          have lost := count_readPieces (normalizeLines false (dropMark piece)).2 pieces
          have none : pieces.countP (·.head? = some mark) = 0 := by omega
          intro p hp
          simpa using List.countP_eq_zero.mp none p hp

theorem afterScript_ofPieces {dropsMarks : Bool} (h : dropsMarks = false ∨ MarkedAtStart pieces)
    {rest : List Char} (behind : '>' :: rest <:+ (ofPieces dropsMarks pieces).chars) :
    (ofPieces dropsMarks pieces).afterScript rest =
      (ofPieces dropsMarks [pieces.flatten]).afterScript rest := by
  have short : ∀ {cs : List Char}, '>' :: rest <:+ cs → rest.length ≠ cs.length :=
    fun h => Nat.ne_of_lt h.length_le
  have whole := chars_ofPieces full h ▸ behind
  cases dropsMarks with
  | false => rfl
  | true =>
      by_cases marked : rest.head? = some mark
      · have outside : rest.length ∉ (ofPieces true [pieces.flatten]).borders := by
          simp only [ofPieces, readPieces, remaining_cons, remaining] at whole ⊢
          simpa using short whole
        have apart : rest.length ∉ (ofPieces true pieces).borders := by
          cases pieces with
          | nil => exact List.not_mem_nil
          | cons piece pieces =>
              simp only [ofPieces, readPieces, remaining_cons, List.mem_cons, not_or] at behind ⊢
              refine ⟨short behind, fun border => ?_⟩
              have unmarked : Unmarked pieces := (h.resolve_left Bool.noConfusion).unmarked full
              rw [List.flatten_cons] at behind
              refine head?_ne_mark_of_border unmarked ?_ behind border marked
              intro ret
              exact getLast?_normalizeLines [] (by simp) ret
        have drops : ∀ pieces, (ofPieces true pieces).dropsMarks = true := fun _ => rfl
        simp [afterScript, marked, outside, apart, drops]
      · simp [afterScript, marked]

end Source

/-! ### The whole text -/

theorem construct_congr {s t : Source} {b : Builder} {lexing : Lexing} {cs : List Char}
    (same : ∀ rest, '>' :: rest <:+ cs → s.afterScript rest = t.afterScript rest) :
    construct s b lexing cs = construct t b lexing cs := by
  fun_induction construct s b lexing cs with
  | case1 => rw [construct]
  | case2 b lexing c cs step next rest ih =>
      have alike : rest = if step.endsScript lexing then t.afterScript step.rest else step.rest := by
        unfold rest
        split
        · next ends =>
          exact same _ ((Lexer.bracket_of_endsScript ends).trans (List.suffix_cons c cs))
        · rfl
      have left : rest <:+ c :: cs := by
        have after : step.rest <:+ c :: cs :=
          (Lexer.rest_step_suffix _ _ c cs).trans (List.suffix_cons c cs)
        unfold rest
        split
        · exact (s.afterScript_suffix _).trans after
        · exact after
      rw [ih fun more behind => same more (behind.trans left), alike]
      conv => rhs; rw [construct]

/-- A text that comes in pieces is read as the whole text is. -/
theorem parse_ofPieces (settings : Settings) {dropsMarks : Bool} {pieces : List (List Char)}
    (full : ∀ piece ∈ pieces, piece ≠ [])
    (h : dropsMarks = false ∨ Source.MarkedAtStart pieces) :
    parse settings (.ofPieces dropsMarks pieces) =
      parse settings (.ofPieces dropsMarks [pieces.flatten]) := by
  rw [parse, parse, ← Source.chars_ofPieces full h,
    construct_congr fun rest behind => Source.afterScript_ofPieces full h behind]

end SafeForms.Html
