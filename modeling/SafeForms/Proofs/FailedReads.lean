import SafeForms.Proofs.ReaderInput

/-!
Reads that fail. A page is not served exactly if some read fails other than by an interruption
before a read brings no bytes, and the error is the first such failure, whatever was read before.
What would follow the end of the reading does not count, and interruptions do not count wherever
they are (`first_failure_is_reported`).
-/

namespace SafeForms

namespace ReadAnswer

/-- A failed read that is tried again. -/
def isRetried : ReadAnswer → Bool
  | bytes _ => false
  | failure f => f.kind = .interrupted

/-- A failed read that is not. -/
def isFatal : ReadAnswer → Bool
  | bytes _ => false
  | failure f => f.kind ≠ .interrupted

/-- An answer at which the reading ends. -/
def isLast (answer : ReadAnswer) : Bool := answer = .bytes [] || answer.isFatal

theorem isFatal_eq_false_iff (answer : ReadAnswer) :
    answer.isFatal = false ↔ ∀ f, answer = .failure f → f.kind = .interrupted := by
  cases answer with
  | bytes bs => simp [isFatal]
  | failure f => simp [isFatal]

end ReadAnswer

namespace Input

/-- This is the first failure, of those before a read without bytes, that is not tried again. -/
def FailsWith (answers : List ReadAnswer) (f : Failure) : Prop :=
  ∃ before after, delivered answers = before ++ .failure f :: after ∧ f.kind ≠ .interrupted ∧
    ∀ g, .failure g ∈ before → g.kind = .interrupted

theorem failsWith_iff (answers : List ReadAnswer) (f : Failure) :
    FailsWith answers f ↔ (delivered answers).find? (·.isFatal) = some (.failure f) := by
  rw [List.find?_eq_some_iff_append]
  simp only [FailsWith, Bool.not_eq_true', ReadAnswer.isFatal_eq_false_iff]
  constructor
  · rintro ⟨before, after, cut, broken, early⟩
    exact ⟨decide_eq_true broken, before, after, cut, fun _ mem g e => early g (e ▸ mem)⟩
  · rintro ⟨broken, before, after, cut, early⟩
    exact ⟨before, after, cut, of_decide_eq_true broken, fun g mem => early _ mem g rfl⟩

/-- What cannot be read has a first failure that is reported. -/
theorem exists_failsWith {answers : List ReadAnswer} (broken : ¬ Readable answers) :
    ∃ f, FailsWith answers f := by
  simp only [Readable, not_forall] at broken
  obtain ⟨g, mem, fatal⟩ := broken
  have found : ((delivered answers).find? (·.isFatal)).isSome := by
    rw [List.find?_isSome]
    exact ⟨_, mem, decide_eq_true fatal⟩
  obtain ⟨first, found⟩ := Option.isSome_iff_exists.mp found
  cases first with
  | bytes bs => exact absurd (List.find?_some found) (by simp [ReadAnswer.isFatal])
  | failure f => exact ⟨f, (failsWith_iff answers f).mpr found⟩

theorem collect_eq_error_iff (answers : List ReadAnswer) (f : Failure) :
    collect answers = .error f ↔ FailsWith answers f := by
  rw [failsWith_iff]
  fun_induction collect answers with
  | case1 => simp [delivered]
  | case2 => simp [delivered]
  | case3 bs answers full ih =>
      rw [delivered_cons (by simpa using full),
        List.find?_cons_of_neg (by simp [ReadAnswer.isFatal]), ← ih]
      cases collect answers <;> simp [Except.map]
  | case4 g answers interrupted ih =>
      rw [delivered_cons (by simp),
        List.find?_cons_of_neg (by simp [ReadAnswer.isFatal, interrupted]), ← ih]
  | case5 g answers broken =>
      rw [delivered_cons (by simp), List.find?_cons_of_pos (by simp [ReadAnswer.isFatal, broken])]
      simp

/-- Nothing is read behind an answer at which the reading ends. -/
theorem collect_append_of_isLast {last : ReadAnswer} (h : last.isLast = true)
    (before after others : List ReadAnswer) :
    collect (before ++ last :: after) = collect (before ++ last :: others) := by
  induction before with
  | nil =>
      cases last with
      | bytes bs =>
          obtain rfl : bs = [] := by simpa [ReadAnswer.isLast, ReadAnswer.isFatal] using h
          rfl
      | failure f =>
          have broken : f.kind ≠ .interrupted := by
            simpa [ReadAnswer.isLast, ReadAnswer.isFatal] using h
          simp [collect, broken]
  | cons answer before ih =>
      cases answer with
      | bytes bs => cases bs <;> simp [collect, ih]
      | failure f => simp [collect, ih]

theorem collect_filter_isRetried (answers : List ReadAnswer) :
    collect (answers.filter fun answer => !answer.isRetried) = collect answers := by
  fun_induction collect answers with
  | case1 => rfl
  | case2 => rfl
  | case3 bs answers full ih =>
      rw [List.filter_cons_of_pos rfl, collect, ih]
      exact full
  | case4 f answers interrupted ih =>
      rw [List.filter_cons_of_neg (by simp [ReadAnswer.isRetried, interrupted]), ih]
  | case5 f answers broken =>
      rw [List.filter_cons_of_pos (by simp [ReadAnswer.isRetried, broken]), collect, if_neg broken]

end Input

namespace Page

theorem parseInput_eq_error_iff (o : Options) (answers : List ReadAnswer) (f : Failure) :
    parseInput o answers = .error f ↔ Input.FailsWith answers f := by
  rw [← Input.collect_eq_error_iff, parseInput, Input.text]
  cases Input.collect answers <;> simp [Except.map]

theorem sanitizeInput_eq_error_iff (o : Options) (answers : List ReadAnswer) (f : Failure) :
    sanitizeInput o answers = .error f ↔ Input.FailsWith answers f := by
  rw [← parseInput_eq_error_iff o, sanitizeInput]
  cases parseInput o answers <;> simp [Except.map]

theorem sanitizeInput_congr (o : Options) {answers others : List ReadAnswer}
    (same : Input.collect others = Input.collect answers) :
    parseInput o others = parseInput o answers ∧
      sanitizeInput o others = sanitizeInput o answers := by
  simp only [sanitizeInput, parseInput, Input.text, same, and_self]

/-- Reading a page ends with an error exactly if a failure that is not tried again comes before the
first answer without bytes, and the error is the first such failure. The answers behind the one at
which the reading ends do not count, and neither do interruptions. -/
theorem first_failure_is_reported (o : Options) (answers : List ReadAnswer) :
    (∀ f, parseInput o answers = .error f ↔ Input.FailsWith answers f) ∧
      (∀ f, sanitizeInput o answers = .error f ↔ Input.FailsWith answers f) ∧
      (∀ before last after others, answers = before ++ last :: after → last.isLast = true →
        parseInput o (before ++ last :: others) = parseInput o answers ∧
          sanitizeInput o (before ++ last :: others) = sanitizeInput o answers) ∧
      ∀ others, (others.filter fun a => !a.isRetried) = answers.filter (fun a => !a.isRetried) →
        parseInput o others = parseInput o answers ∧
          sanitizeInput o others = sanitizeInput o answers := by
  refine ⟨parseInput_eq_error_iff o answers, sanitizeInput_eq_error_iff o answers, ?_, ?_⟩
  · rintro before last after others rfl ends
    exact sanitizeInput_congr o (Input.collect_append_of_isLast ends before others after)
  · intro others same
    refine sanitizeInput_congr o ?_
    rw [← Input.collect_filter_isRetried, same, Input.collect_filter_isRetried]

/-- A time-out behind interruptions, a character cut in two and a byte that begins none; without the
interruptions and with other answers to come it is reported all the same. -/
theorem first_failure_is_reported_of_time_out :
    let o : Options := ⟨{}, ⟨"h", "/"⟩, .fragment⟩
    let interrupted : ReadAnswer := .failure { kind := .interrupted, message := "again" }
    let late : Failure := { kind := .timedOut, message := "late" }
    let answers : List ReadAnswer := [interrupted, .bytes [0x61, 0xc3], interrupted, .bytes [0xff],
      .failure late, .bytes [], .failure { kind := .brokenPipe }]
    sanitizeInput o answers = .error late ∧
      sanitizeInput o [.bytes [0x61, 0xc3], .bytes [0xff], .failure late] = .error late := by
  intro o interrupted late answers
  have fails : Input.FailsWith answers late :=
    ⟨[interrupted, .bytes [0x61, 0xc3], interrupted, .bytes [0xff]], _, rfl, by decide,
      by simp [interrupted]⟩
  obtain ⟨-, reported, cut, retried⟩ := first_failure_is_reported o answers
  have served := (reported late).mpr fails
  obtain ⟨-, short⟩ := cut [interrupted, .bytes [0x61, 0xc3], interrupted, .bytes [0xff]]
    (.failure late) _ [] rfl rfl
  obtain ⟨-, bare⟩ := (first_failure_is_reported o _).2.2.2
    [.bytes [0x61, 0xc3], .bytes [0xff], .failure late] rfl
  exact ⟨served, (bare.trans short).trans served⟩

end Page
end SafeForms
