import Mathlib
import SafeForms.Page
import SafeForms.Proofs.EncodedText
import SafeForms.Proofs.PiecewiseReading

/-!
Pages that are read piece by piece. Interrupted reads leave no trace and the text of all bytes is
read, wherever they were cut. But reading begins anew with every piece that is handed over, and a byte
order mark that stands there is dropped, while it is kept in the middle of a text that is at hand
(`pieces_lose_marks`). So both ways to give a page agree as long as no such mark is met
(`sanitizeInput_eq_sanitize`).
-/

namespace SafeForms

namespace Text.Utf8

theorem ne_nil_of_mem_asPiece {cs piece : List Char} (h : piece ∈ asPiece cs) : piece ≠ [] := by
  rw [asPiece] at h
  split at h
  · cases h
  · next full =>
    rw [List.mem_singleton.mp h]
    simpa using full

theorem ne_nil_of_mem_pieces {bs : List UInt8} : ∀ piece ∈ (pieces bs).1, piece ≠ [] := by
  fun_induction pieces bs with
  | case1 bs rest h ih =>
      simp only [List.mem_append, List.mem_cons]
      rintro piece (mem | rfl | mem)
      · exact ne_nil_of_mem_asPiece mem
      · exact List.cons_ne_nil _ _
      · exact ih piece mem
  | case2 => exact fun _ => ne_nil_of_mem_asPiece
  | case3 => exact fun _ => ne_nil_of_mem_asPiece
  | case4 => exact fun _ => ne_nil_of_mem_asPiece

theorem ne_nil_of_mem_resume {pending bs : List UInt8} :
    ∀ piece ∈ (resume pending bs).1, piece ≠ [] := by
  unfold resume
  split
  · exact ne_nil_of_mem_pieces
  simp only [piecesAfter]
  split
  · exact List.forall_mem_nil _
  split
  · split
    · exact List.forall_mem_cons.mpr ⟨List.cons_ne_nil _ _, ne_nil_of_mem_pieces⟩
    · exact ne_nil_of_mem_pieces
  · next full => exact List.forall_mem_cons.mpr ⟨by simpa using full, ne_nil_of_mem_pieces⟩

/-- No piece that is handed over is empty. -/
theorem ne_nil_of_mem_decodePieces {pending : List UInt8} {chunks : List (List UInt8)} :
    ∀ piece ∈ decodePieces pending chunks, piece ≠ [] := by
  induction chunks generalizing pending with
  | nil =>
      rw [decodePieces]
      split <;> simp
  | cons chunk chunks ih =>
      rw [decodePieces]
      exact List.forall_mem_append.mpr ⟨ne_nil_of_mem_resume, ih⟩

end Text.Utf8

/-- The bytes of an answer; a failure brings none. -/
def ReadAnswer.octets : ReadAnswer → List UInt8
  | bytes bs => bs
  | failure _ => []

namespace Input

/-- The answers up to the first one without bytes. -/
def delivered (answers : List ReadAnswer) : List ReadAnswer := answers.takeWhile (· ≠ .bytes [])

def octets (answers : List ReadAnswer) : List UInt8 := (delivered answers).flatMap ReadAnswer.octets

/-- No failure but interruptions. -/
def Readable (answers : List ReadAnswer) : Prop :=
  ∀ f, .failure f ∈ delivered answers → f.kind = .interrupted

theorem delivered_cons {answer : ReadAnswer} (h : answer ≠ .bytes []) (answers : List ReadAnswer) :
    delivered (answer :: answers) = answer :: delivered answers := by
  rw [delivered, List.takeWhile_cons_of_pos (by simpa using h), delivered]

theorem collect_of_readable {answers : List ReadAnswer} (h : Readable answers) :
    ∃ chunks, collect answers = .ok chunks ∧ chunks.flatten = octets answers := by
  fun_induction collect answers with
  | case1 => exact ⟨[], rfl, rfl⟩
  | case2 => exact ⟨[], rfl, by simp [octets, delivered]⟩
  | case3 bs answers full ih =>
      have other : ReadAnswer.bytes bs ≠ .bytes [] := by simpa using full
      rw [Readable, delivered_cons other] at h
      obtain ⟨chunks, collected, bytes⟩ := ih fun f mem => h f (List.mem_cons_of_mem _ mem)
      refine ⟨portions bs ++ chunks, by rw [collected]; rfl, ?_⟩
      rw [List.flatten_append, flatten_portions, bytes, octets, octets, delivered_cons other,
        List.flatMap_cons, ReadAnswer.octets]
  | case4 f answers interrupted ih =>
      rw [Readable, delivered_cons (by nofun)] at h
      obtain ⟨chunks, collected, bytes⟩ := ih fun f mem => h f (List.mem_cons_of_mem _ mem)
      refine ⟨chunks, collected, ?_⟩
      rw [bytes, octets, octets, delivered_cons (by nofun), List.flatMap_cons, ReadAnswer.octets,
        List.nil_append]
  | case5 f answers broken =>
      rw [Readable, delivered_cons (by nofun)] at h
      exact absurd (h f List.mem_cons_self) broken

theorem text_of_readable {answers : List ReadAnswer} (h : Readable answers) :
    ∃ pieces, text answers = .ok pieces ∧ (∀ piece ∈ pieces, piece ≠ []) ∧
      pieces.flatten = Text.Utf8.decode (octets answers) := by
  obtain ⟨chunks, collected, bytes⟩ := collect_of_readable h
  refine ⟨Text.Utf8.decodePieces [] chunks, ?_, Text.Utf8.ne_nil_of_mem_decodePieces, ?_⟩
  · rw [text, collected]
    rfl
  · rw [Text.Utf8.flatten_decodePieces, bytes]

end Input

namespace Page

open Text.Utf8 (decode)
open Html (Source)

/-- Pages that are read and pages that are at hand agree. Whatever the reads bring but a failure, a
page is served and the text of all bytes was handed over. Its characters are read as those of a text
at hand exactly if no byte order mark is lost where a piece begins, and then the same page is
served. -/
theorem sanitizeInput_eq_sanitize (o : Options) (answers : List ReadAnswer)
    (readable : Input.Readable answers) :
    ∃ pieces page, Input.text answers = .ok pieces ∧ sanitizeInput o answers = .ok page ∧
      pieces.flatten = decode (Input.octets answers) ∧
      ((Source.ofPieces o.parse.discardMark pieces).chars =
          (Source.ofPieces o.parse.discardMark [decode (Input.octets answers)]).chars ↔
        o.parse.discardMark = false ∨ Source.MarkedAtStart pieces) ∧
      (o.parse.discardMark = false ∨ Source.MarkedAtStart pieces →
        page = sanitize o (String.ofList (decode (Input.octets answers))) ∧
          ∀ text : String, Input.octets answers = text.toUTF8.data.toList →
            page = sanitize o text) := by
  obtain ⟨chunks, collected, bytes⟩ := Input.collect_of_readable readable
  have handed : Input.text answers = .ok (Text.Utf8.decodePieces [] chunks) := by
    rw [Input.text, collected]
    rfl
  have whole : (Text.Utf8.decodePieces [] chunks).flatten = decode (Input.octets answers) := by
    rw [Text.Utf8.flatten_decodePieces, bytes]
  have full : ∀ piece ∈ Text.Utf8.decodePieces [] chunks, piece ≠ [] :=
    Text.Utf8.ne_nil_of_mem_decodePieces
  refine ⟨_, finish o (ofPieces o (Text.Utf8.decodePieces [] chunks)), handed, ?_, whole, ?_,
    fun unmarked => ?_⟩
  · rw [sanitizeInput, parseInput, handed]
    rfl
  · rw [← whole]
    exact Source.chars_ofPieces_iff full _
  · have page : finish o (ofPieces o (Text.Utf8.decodePieces [] chunks)) =
        sanitize o (String.ofList (decode (Input.octets answers))) := by
      rw [sanitize, parse, String.toList_ofList, ← whole, ofPieces, ofPieces,
        Html.parse_ofPieces _ full unmarked]
    refine ⟨page, fun text encoded => ?_⟩
    rw [page, encoded, Text.Utf8.decode_toUTF8, String.ofList_toList]

/-- A character cut in two, a byte that begins none and a character without its end, with reads that
are interrupted and a failure that nobody comes to. -/
theorem sanitizeInput_eq_sanitize_of_cut_character :
    let o : Options := ⟨{}, ⟨"h", "/"⟩, .fragment⟩
    let interrupted : ReadAnswer := .failure { kind := .interrupted }
    let answers : List ReadAnswer := [interrupted, .bytes [0x61, 0xc3], interrupted,
      .bytes [0xa9, 0xff, 0x62, 0xe2, 0x82], .bytes [], .failure { kind := .brokenPipe }]
    Input.Readable answers ∧ sanitizeInput o answers = .ok (sanitize o "a\u00e9\ufffdb\ufffd") := by
  intro o interrupted answers
  have readable : Input.Readable answers := by
    intro f mem
    simp [answers, interrupted, Input.delivered] at mem
    simp [mem]
  obtain ⟨pieces, page, handed, served, whole, -, agree⟩ :=
    sanitizeInput_eq_sanitize o answers readable
  have known : (Input.text answers).toOption =
      some ["a".toList, "\u00e9".toList, "\ufffd".toList, "b".toList, "\ufffd".toList] := by
    decide +kernel
  rw [handed] at known
  obtain rfl := Option.some.inj known
  obtain ⟨same, -⟩ := agree (.inr (by decide))
  rw [← whole] at same
  exact ⟨readable, served.trans (congrArg _ same)⟩

/-- A mark in the middle of a text is lost where a chunk begins with it. -/
theorem pieces_lose_marks :
    let o : Options := ⟨{}, ⟨"h", "/"⟩, .fragment⟩
    let answers : List ReadAnswer := [.bytes [0x61], .bytes [0xef, 0xbb, 0xbf, 0x62]]
    Input.Readable answers ∧ Input.octets answers = "a\ufeffb".toUTF8.data.toList ∧
      (sanitizeInput o answers).toOption.map (·.html) = some "ab" ∧
      (sanitize o "a\ufeffb").html = "a\ufeffb" := by
  refine ⟨?_, ?_, ?_, ?_⟩
  · intro f mem
    simp [Input.delivered] at mem
  · decide +kernel
  · decide +kernel
  · decide +kernel

end Page

end SafeForms
