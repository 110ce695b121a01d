import SafeForms.CommandLine
import SafeForms.Proofs.FailedReads

/-!
What the program leaves behind, for every list of arguments and every input. The arguments are read
one by one, and what they say is whether the flag is among them and what the others are, in order
(`foldl_read`); of these only the first two count. The page that is written is that of the decoded
input unless a byte order mark is met where a piece of the input begins, and a failed read is all
that makes the program fail (`outcome_by_arguments_and_input`).
-/

namespace SafeForms

/-- A text with no mark behind its first character can be cut anywhere. -/
theorem Html.Source.markedAtStart_of_notMem {pieces : List (List Char)}
    (full : ∀ piece ∈ pieces, piece ≠ []) (unmarked : mark ∉ pieces.flatten.tail) :
    MarkedAtStart pieces := by
  cases pieces with
  | nil => nofun
  | cons first pieces =>
      intro piece mem begins
      obtain ⟨c, cs, rfl⟩ := List.exists_cons_of_ne_nil (full first List.mem_cons_self)
      refine unmarked ?_
      rw [List.flatten_cons, List.cons_append, List.tail_cons, List.mem_append]
      exact .inr (List.mem_flatten.mpr ⟨piece, mem, List.mem_of_head? begins⟩)

namespace Page

open Html (Source)

/-- A text that comes in pieces gives the page of the whole text, if no mark is met between them. -/
theorem finish_ofPieces (o : Options) {pieces : List (List Char)}
    (full : ∀ piece ∈ pieces, piece ≠ [])
    (unmarked : o.parse.discardMark = false ∨ Source.MarkedAtStart pieces) :
    finish o (ofPieces o pieces) = sanitize o (String.ofList pieces.flatten) := by
  rw [sanitize, parse, String.toList_ofList, ofPieces, ofPieces,
    Html.parse_ofPieces _ full unmarked]

end Page

namespace CommandLine

open Html (Source)
open Text.Utf8 (decode)

theorem foldl_read (args : List String) (given : Arguments) :
    args.foldl .read given =
      { scope := if fragmentFlag ∈ args then .fragment else given.scope
        positional := given.positional ++ args.filter (· ≠ fragmentFlag) } := by
  induction args generalizing given with
  | nil => simp
  | cons arg args ih =>
      rw [List.foldl_cons, ih]
      rcases eq_or_ne arg fragmentFlag with rfl | other
      · rw [Arguments.read_flag, List.filter_cons_of_neg (by simp), if_pos List.mem_cons_self]
        simp only [ite_self]
      · have same : fragmentFlag ∈ arg :: args ↔ fragmentFlag ∈ args := by
          simp [other.symm]
        rw [Arguments.read_of_ne other, List.filter_cons_of_pos (by simp [other])]
        simp only [same, List.append_assoc, List.singleton_append]

theorem options_eq (args : List String) :
    options args =
      { request :=
          { host := (args.filter (· ≠ fragmentFlag))[0]?.getD defaultHost
            uri := (args.filter (· ≠ fragmentFlag))[1]?.getD defaultUri }
        scope := if fragmentFlag ∈ args then .fragment else .document } := by
  rw [options, arguments, foldl_read]
  rfl

/-- Only the presence of the flag and the first two other arguments count. -/
theorem options_congr {args others : List String}
    (flag : fragmentFlag ∈ others ↔ fragmentFlag ∈ args)
    (first : (others.filter (· ≠ fragmentFlag)).take 2 = (args.filter (· ≠ fragmentFlag)).take 2) :
    options others = options args := by
  have same : ∀ i < 2, (others.filter (· ≠ fragmentFlag))[i]? =
      (args.filter (· ≠ fragmentFlag))[i]? := by
    intro i h
    rw [← List.getElem?_take_of_lt h, first, List.getElem?_take_of_lt h]
  simp only [options_eq, flag, same 0 (by decide), same 1 (by decide)]

theorem run_congr {args others : List String} (same : options others = options args)
    (answers : List ReadAnswer) : run others answers = run args answers := by
  rw [run, run, same]

theorem run_of_text {args : List String} {answers : List ReadAnswer} {pieces : List (List Char)}
    (handed : Input.text answers = .ok pieces) :
    run args answers =
      ⟨0, (Page.finish (options args) (Page.ofPieces (options args) pieces)).html, ""⟩ := by
  rw [run, Page.sanitizeInput, Page.parseInput, handed]
  rfl

theorem run_of_failsWith {args : List String} {answers : List ReadAnswer} {f : Failure}
    (fails : Input.FailsWith answers f) :
    run args answers = ⟨1, "", "sanitize-forms: " ++ f.message ++ "\n"⟩ := by
  rw [run, (Page.sanitizeInput_eq_error_iff _ _ _).mpr fails]

/-- The flag selects fragment scope wherever it stands, and of the other arguments the first two are
the host and the address of the request. Input that can be read is decoded whole and its page is
written, with nothing else. It is the page of the decoded text if no piece but the first begins with
a byte order mark, as when there is none behind the first character; only then are the characters of
that text read. Any other input ends the program with its first failure. The flag can be moved and
repeated, and what follows the first two other arguments can be anything. -/
theorem outcome_by_arguments_and_input (args : List String) (answers : List ReadAnswer) :
    let given := args.filter (· ≠ "--fragment")
    let o : Options :=
      { request := { host := given[0]?.getD "localhost", uri := given[1]?.getD "/" }
        scope := if "--fragment" ∈ args then .fragment else .document }
    let text := decode (Input.octets answers)
    (Input.Readable answers →
      ∃ pieces html, Input.text answers = .ok pieces ∧ pieces.flatten = text ∧
        run args answers = ⟨0, html, ""⟩ ∧
        html = (Page.finish o (Page.ofPieces o pieces)).html ∧
        ((Source.ofPieces true pieces).chars = (Source.ofPieces true [text]).chars ↔
          Source.MarkedAtStart pieces) ∧
        (Source.MarkedAtStart pieces ∨ Source.mark ∉ text.tail →
          html = (Page.sanitize o (String.ofList text)).html)) ∧
      (¬ Input.Readable answers →
        ∃ f, Input.FailsWith answers f ∧
          run args answers = ⟨1, "", "sanitize-forms: " ++ f.message ++ "\n"⟩) ∧
      (∀ others, "--fragment" ∈ args → "--fragment" ∈ others →
        others.filter (· ≠ "--fragment") = given → run others answers = run args answers) ∧
      ∀ others, ("--fragment" ∈ others ↔ "--fragment" ∈ args) →
        (others.filter (· ≠ "--fragment")).take 2 = given.take 2 →
          run others answers = run args answers := by
  intro given o text
  have chosen : options args = o := options_eq args
  refine ⟨fun readable => ?_, fun broken => ?_, fun others here there same => ?_,
    fun others flag first => ?_⟩
  · obtain ⟨pieces, handed, full, whole⟩ := Input.text_of_readable readable
    change pieces.flatten = text at whole
    refine ⟨pieces, _, handed, whole, run_of_text handed, by rw [chosen], ?_, fun marks => ?_⟩
    · rw [← whole, Source.chars_ofPieces_iff full true]
      simp
    · have unmarked : Source.MarkedAtStart pieces :=
        marks.elim id fun absent => Source.markedAtStart_of_notMem full (whole ▸ absent)
      rw [chosen, Page.finish_ofPieces o full (.inr unmarked), whole]
  · obtain ⟨f, fails⟩ := Input.exists_failsWith broken
    exact ⟨f, fails, run_of_failsWith fails⟩
  · exact run_congr (options_congr (iff_of_true there here) (congrArg _ same)) answers
  · exact run_congr (options_congr flag first) answers

/-- The flag moved and repeated, an empty host and another third argument, with a form and a
character cut in two on the input; and a read that fails. -/
theorem outcome_of_moved_flag :
    let interrupted : ReadAnswer := .failure { kind := .interrupted }
    let answers : List ReadAnswer := [.bytes [0x3c, 0x66, 0x6f, 0x72, 0x6d, 0x3e, 0xc3],
      interrupted, .bytes [0xa9], .bytes []]
    run ["", "--fragment", "/u", "x"] answers =
        ⟨0, "<form method=\"get\" action=\"///u\" target=\"_top\">\u00e9</form>", ""⟩ ∧
      run ["--fragment", "", "/u", "y", "--fragment"] answers =
        run ["", "--fragment", "/u", "x"] answers ∧
      run ["--fragment"] [interrupted, .failure { kind := .isDirectory }] =
        ⟨1, "", "sanitize-forms: Is a directory (os error 21)\n"⟩ := by
  intro interrupted answers
  obtain ⟨read, -, -, moved⟩ := outcome_by_arguments_and_input ["", "--fragment", "/u", "x"] answers
  obtain ⟨-, failed, -⟩ := outcome_by_arguments_and_input ["--fragment"]
    [interrupted, .failure { kind := .isDirectory }]
  refine ⟨?_, moved _ (by decide) (by decide), ?_⟩
  · have readable : Input.Readable answers := by
      intro f mem
      simp [answers, interrupted, Input.delivered] at mem
      simp [mem]
    obtain ⟨pieces, html, handed, whole, written, -, -, same⟩ := read readable
    have known : (Input.text answers).toOption = some ["<form>".toList, "\u00e9".toList] := by
      decide +kernel
    rw [handed] at known
    obtain rfl := Option.some.inj known
    rw [written, same (.inl (by decide))]
    decide +kernel
  · have broken : ¬ Input.Readable [interrupted, .failure { kind := .isDirectory }] := by
      intro readable
      have retried := readable { kind := .isDirectory } (by simp [interrupted, Input.delivered])
      cases retried
    obtain ⟨f, fails, written⟩ := failed broken
    have first : f = { kind := .isDirectory } := by
      rw [Input.failsWith_iff] at fails
      simpa [interrupted, Input.delivered, ReadAnswer.isFatal, eq_comm] using fails
    rw [written, first]
    decide +kernel

/-- A mark behind a byte that begins no character is lost, while it is kept in the text. -/
theorem marks_behind_faults_are_lost :
    let answers : List ReadAnswer := [.bytes [0x61, 0xff, 0xef, 0xbb, 0xbf, 0x62]]
    let o : Options := ⟨{}, ⟨"localhost", "/"⟩, .fragment⟩
    Input.Readable answers ∧ String.ofList (decode (Input.octets answers)) = "a\ufffd\ufeffb" ∧
      run ["--fragment"] answers = ⟨0, "a\ufffdb", ""⟩ ∧
      run ["--fragment"] answers ≠ ⟨0, (Page.sanitize o "a\ufffd\ufeffb").html, ""⟩ := by
  intro answers o
  have written : run ["--fragment"] answers = ⟨0, "a\ufffdb", ""⟩ := by decide +kernel
  refine ⟨?_, ?_, written, ?_⟩
  · intro f mem
    simp [answers, Input.delivered] at mem
  · decide +kernel
  · rw [written]
    decide +kernel

end CommandLine
end SafeForms
