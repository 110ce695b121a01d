/-!
Decoding of UTF-8 that never fails: every maximal part of the input that begins no character becomes
one replacement character. Bytes come in chunks, and text is handed over in pieces, each as soon as
it is whole: the characters up to the next fault, a replacement, or what completes a character that
a chunk left unfinished. Main statement: the pieces are together the text of all bytes, wherever the
chunks were cut (`flatten_decodePieces`).
-/

namespace SafeForms.Text.Utf8

def replacement : Char := '\ufffd'

/-- What a sequence of bytes begins with, and what follows it. -/
inductive Next where
  | nothing
  | char (c : Char) (rest : List UInt8)
  /-- Bytes that begin no character. -/
  | fault (rest : List UInt8)
  /-- A character of which bytes are missing. -/
  | unfinished
  deriving Repr, DecidableEq

/-- The further bytes of a character, with the value read so far, how many bytes follow the next one,
and the least and the greatest byte that may come next. -/
def nextInside (value missing low high : Nat) : List UInt8 → Next
  | [] => .unfinished
  | b :: bs =>
    if low ≤ b.toNat ∧ b.toNat ≤ high then
      let value := value * 64 + (b.toNat - 0x80)
      match missing with
      | 0 => .char (Char.ofNat value) bs
      | missing + 1 => nextInside value missing 0x80 0xbf bs
    else .fault (b :: bs)

inductive Lead where
  | whole (c : Char)
  | fault
  /-- The arguments of `nextInside`. -/
  | inside (value missing low high : Nat)
  deriving Repr, DecidableEq

def lead (n : Nat) : Lead :=
  if n < 0x80 then .whole (Char.ofNat n)
  else if n < 0xc2 then .fault
  else if n < 0xe0 then .inside (n - 0xc0) 0 0x80 0xbf
  else if n = 0xe0 then .inside 0 1 0xa0 0xbf
  else if n = 0xed then .inside 0xd 1 0x80 0x9f
  else if n < 0xf0 then .inside (n - 0xe0) 1 0x80 0xbf
  else if n = 0xf0 then .inside 0 2 0x90 0xbf
  else if n < 0xf4 then .inside (n - 0xf0) 2 0x80 0xbf
  else if n = 0xf4 then .inside 4 2 0x80 0x8f
  else .fault

def next : List UInt8 → Next
  | [] => .nothing
  | b :: bs =>
    match lead b.toNat with
    | .whole c => .char c bs
    | .fault => .fault bs
    | .inside value missing low high => nextInside value missing low high bs

def Next.rest : Next → List UInt8
  | nothing | unfinished => []
  | char _ rest | fault rest => rest

theorem length_rest_nextInside_le (value missing low high : Nat) (bs : List UInt8) :
    (nextInside value missing low high bs).rest.length ≤ bs.length := by
  induction bs generalizing value missing low high with
  | nil => simp [nextInside, Next.rest]
  | cons b bs ih =>
    rw [nextInside]
    split
    · cases missing with
      | zero => exact Nat.le_succ _
      | succ missing => exact Nat.le_succ_of_le (ih _ _ _ _)
    · exact Nat.le_refl _

theorem length_rest_next_lt {bs : List UInt8} (h : bs ≠ []) :
    (next bs).rest.length < bs.length := by
  cases bs with
  | nil => contradiction
  | cons b bs =>
    rw [next]
    split
    · exact Nat.lt_succ_self _
    · exact Nat.lt_succ_self _
    · exact Nat.lt_succ_of_le (length_rest_nextInside_le _ _ _ _ bs)

theorem length_lt_of_next_char {bs rest : List UInt8} {c : Char} (h : next bs = .char c rest) :
    rest.length < bs.length := by
  have := @length_rest_next_lt bs (by rintro rfl; contradiction)
  rwa [h] at this

theorem length_lt_of_next_fault {bs rest : List UInt8} (h : next bs = .fault rest) :
    rest.length < bs.length := by
  have := @length_rest_next_lt bs (by rintro rfl; contradiction)
  rwa [h] at this

def decode (bs : List UInt8) : List Char :=
  match _h : next bs with
  | .nothing => []
  | .char c rest => c :: decode rest
  | .fault rest => replacement :: decode rest
  | .unfinished => [replacement]
termination_by bs.length
decreasing_by
  · exact length_lt_of_next_char _h
  · exact length_lt_of_next_fault _h

/-! ### Pieces -/

/-- The whole characters up to the next fault or the end, and the bytes that remain. -/
def run (bs : List UInt8) : List Char × List UInt8 :=
  match _h : next bs with
  | .char c rest => (c :: (run rest).1, (run rest).2)
  | _ => ([], bs)
termination_by bs.length
decreasing_by
  all_goals exact length_lt_of_next_char _h

theorem length_run_le (bs : List UInt8) : (run bs).2.length ≤ bs.length := by
  fun_induction run bs with
  | case1 bs c rest h ih =>
    have := length_lt_of_next_char h
    simp only
    omega
  | case2 => exact Nat.le_refl _

def asPiece (cs : List Char) : List (List Char) := if cs.isEmpty then [] else [cs]

/-- The pieces of a chunk, and the bytes of an unfinished character at its end. -/
def pieces (bs : List UInt8) : List (List Char) × List UInt8 :=
  match _h : next (run bs).2 with
  | .fault rest =>
    (asPiece (run bs).1 ++ [replacement] :: (pieces rest).1, (pieces rest).2)
  | .unfinished => (asPiece (run bs).1, (run bs).2)
  | .nothing | .char _ _ => (asPiece (run bs).1, [])
termination_by bs.length
decreasing_by
  all_goals
    have := length_lt_of_next_fault _h
    have := length_run_le bs
    omega

/-- How many bytes are looked at to complete a character. -/
def windowSize : Nat := 4

/-- The pieces of a chunk that follows the bytes of an unfinished character. What completes the
character is one piece with the other characters that are whole within the same few bytes. -/
def piecesAfter (pending bs : List UInt8) : List (List Char) × List UInt8 :=
  let all := pending ++ bs
  let window := all.take windowSize
  let beyond := all.drop windowSize
  if next all = .unfinished then ([], all)
  else if (run window).1.isEmpty then
    match next window with
    | .fault rest =>
      ([replacement] :: (pieces (rest ++ beyond)).1, (pieces (rest ++ beyond)).2)
    | _ => pieces all
  else
    ((run window).1 :: (pieces ((run window).2 ++ beyond)).1,
      (pieces ((run window).2 ++ beyond)).2)

def resume (pending bs : List UInt8) : List (List Char) × List UInt8 :=
  if pending.isEmpty then pieces bs else piecesAfter pending bs

/-- The pieces of all chunks; a character that is never finished is replaced. -/
def decodePieces (pending : List UInt8) : List (List UInt8) → List (List Char)
  | [] => if pending.isEmpty then [] else [[replacement]]
  | chunk :: chunks =>
    (resume pending chunk).1 ++ decodePieces (resume pending chunk).2 chunks

/-! ### What the pieces are together -/

def Next.followedBy (more : List UInt8) : Next → Next
  | nothing => nothing
  | char c rest => char c (rest ++ more)
  | fault rest => fault (rest ++ more)
  | unfinished => unfinished

theorem nextInside_append {value missing low high : Nat} {bs : List UInt8} (more : List UInt8)
    (h : nextInside value missing low high bs ≠ .unfinished) :
    nextInside value missing low high (bs ++ more) =
      (nextInside value missing low high bs).followedBy more := by
  induction bs generalizing value missing low high with
  | nil => simp [nextInside] at h
  | cons b bs ih =>
    simp only [List.cons_append, nextInside] at h ⊢
    split
    · next inRange =>
      rw [if_pos inRange] at h
      cases missing with
      | zero => rfl
      | succ missing => exact ih h
    · rfl

theorem next_append {bs : List UInt8} (more : List UInt8) (h : next bs ≠ .unfinished)
    (nonempty : bs ≠ []) : next (bs ++ more) = (next bs).followedBy more := by
  cases bs with
  | nil => contradiction
  | cons b bs =>
    simp only [List.cons_append, next] at h ⊢
    cases e : lead b.toNat with
    | whole c => rfl
    | fault => rfl
    | inside value missing low high =>
      rw [e] at h
      exact nextInside_append more h

theorem next_append_of_char {bs rest : List UInt8} {c : Char} (more : List UInt8)
    (h : next bs = .char c rest) : next (bs ++ more) = .char c (rest ++ more) := by
  rw [next_append more (by rw [h]; nofun) (by rintro rfl; contradiction), h, Next.followedBy]

theorem next_append_of_fault {bs rest : List UInt8} (more : List UInt8)
    (h : next bs = .fault rest) : next (bs ++ more) = .fault (rest ++ more) := by
  rw [next_append more (by rw [h]; nofun) (by rintro rfl; contradiction), h, Next.followedBy]

theorem decode_of_char {bs rest : List UInt8} {c : Char} (h : next bs = .char c rest) :
    decode bs = c :: decode rest := by
  rw [decode]
  split <;> simp_all

theorem decode_of_fault {bs rest : List UInt8} (h : next bs = .fault rest) :
    decode bs = replacement :: decode rest := by
  rw [decode]
  split <;> simp_all

theorem decode_of_unfinished {bs : List UInt8} (h : next bs = .unfinished) :
    decode bs = [replacement] := by
  rw [decode]
  split <;> simp_all

theorem decode_run (bs more : List UInt8) :
    decode (bs ++ more) = (run bs).1 ++ decode ((run bs).2 ++ more) := by
  fun_induction run bs with
  | case1 bs c rest h ih =>
    rw [decode_of_char (next_append_of_char more h), ih]
    rfl
  | case2 => rfl

@[simp] theorem flatten_asPiece (cs : List Char) : (asPiece cs).flatten = cs := by
  cases cs <;> simp [asPiece]

theorem nextInside_ne_nothing (value missing low high : Nat) (bs : List UInt8) :
    nextInside value missing low high bs ≠ .nothing := by
  induction bs generalizing value missing low high with
  | nil => simp [nextInside]
  | cons b bs ih =>
    rw [nextInside]
    split
    · cases missing with
      | zero => nofun
      | succ missing => exact ih _ _ _ _
    · nofun

theorem eq_nil_of_next {bs : List UInt8} (h : next bs = .nothing) : bs = [] := by
  cases bs with
  | nil => rfl
  | cons b bs =>
    rw [next] at h
    split at h
    · contradiction
    · contradiction
    · exact absurd h (nextInside_ne_nothing _ _ _ _ _)

theorem next_run (bs : List UInt8) (c : Char) (rest : List UInt8) :
    next (run bs).2 ≠ .char c rest := by
  fun_induction run bs with
  | case1 bs d left h ih => exact ih
  | case2 bs h => exact h c rest

/-- The bytes that are kept for the next chunk are none or an unfinished character. -/
def Pending (bs : List UInt8) : Prop := bs = [] ∨ next bs = .unfinished

theorem pending_pieces (bs : List UInt8) : Pending (pieces bs).2 := by
  fun_induction pieces bs with
  | case1 bs rest h ih => exact ih
  | case2 bs h => exact Or.inr h
  | case3 => exact Or.inl rfl
  | case4 => exact Or.inl rfl

theorem decode_pieces (bs more : List UInt8) :
    decode (bs ++ more) = (pieces bs).1.flatten ++ decode ((pieces bs).2 ++ more) := by
  fun_induction pieces bs with
  | case1 bs rest h ih =>
    rw [decode_run, decode_of_fault (next_append_of_fault more h), ih]
    simp
  | case2 bs h => rw [decode_run, flatten_asPiece]
  | case3 bs h => rw [decode_run, flatten_asPiece, eq_nil_of_next h]
  | case4 bs c rest h => exact absurd h (next_run bs c rest)

theorem pending_piecesAfter (pending bs : List UInt8) :
    Pending (piecesAfter pending bs).2 := by
  simp only [piecesAfter]
  split
  · next h => exact Or.inr h
  · split
    · split
      · exact pending_pieces _
      · exact pending_pieces _
    · exact pending_pieces _

theorem decode_piecesAfter (pending bs more : List UInt8) :
    decode (pending ++ bs ++ more) =
      (piecesAfter pending bs).1.flatten ++ decode ((piecesAfter pending bs).2 ++ more) := by
  have split_all (all : List UInt8) :
      all ++ more = all.take windowSize ++ (all.drop windowSize ++ more) := by
    rw [← List.append_assoc, List.take_append_drop]
  simp only [piecesAfter]
  split
  · rfl
  · split
    · split
      · next rest fault =>
        rw [split_all, decode_of_fault (next_append_of_fault _ fault), ← List.append_assoc rest,
          decode_pieces]
        rfl
      · exact decode_pieces _ _
    · rw [split_all, decode_run, ← List.append_assoc (run _).2, decode_pieces]
      simp

theorem decode_resume (pending bs more : List UInt8) :
    decode (pending ++ bs ++ more) =
      (resume pending bs).1.flatten ++ decode ((resume pending bs).2 ++ more) := by
  unfold resume
  split
  · next h =>
    rw [List.isEmpty_iff.mp h]
    exact decode_pieces bs more
  · exact decode_piecesAfter pending bs more

theorem pending_resume (pending bs : List UInt8) : Pending (resume pending bs).2 := by
  unfold resume
  split
  · exact pending_pieces bs
  · exact pending_piecesAfter pending bs

theorem flatten_decodePieces_of_pending {pending : List UInt8} (chunks : List (List UInt8))
    (h : Pending pending) :
    (decodePieces pending chunks).flatten = decode (pending ++ chunks.flatten) := by
  induction chunks generalizing pending with
  | nil =>
    rcases h with rfl | unfinished
    · simp [decodePieces, decode, next]
    · have nonempty : pending.isEmpty = false := by
        cases pending with
        | nil => contradiction
        | cons b bs => rfl
      rw [decodePieces, nonempty, List.flatten_nil, List.append_nil, decode_of_unfinished unfinished]
      rfl
  | cons chunk chunks ih =>
    rw [decodePieces, List.flatten_append, ih (pending_resume pending chunk), List.flatten_cons,
      ← List.append_assoc, decode_resume]

/-- The pieces are together the text of all bytes. -/
theorem flatten_decodePieces (chunks : List (List UInt8)) :
    (decodePieces [] chunks).flatten = decode chunks.flatten :=
  flatten_decodePieces_of_pending chunks (Or.inl rfl)

end SafeForms.Text.Utf8
