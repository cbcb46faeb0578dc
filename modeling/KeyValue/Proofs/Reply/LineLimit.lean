import KeyValue.Proofs.Reply.Process

namespace KeyValue.Reply

namespace Reader

variable {ending : Ending} {kept body bytes rest : Bytes} {size : Nat} {stream after : Stream}

-- A line without an end is given up with the first byte that there is no room for.
theorem lineFrom_of_full (hbody : ¬HasLineEnd (kept.reverse ++ body)) (hsize : size ≤ maxLine)
    (hfull : size + body.length = maxLine + 1) :
    lineFrom ending kept size (body ++ rest) = (.error .lineTooLong, rest) := by
  induction body generalizing kept size with
  | nil =>
      rw [List.length_nil] at hfull
      omega
  | cons byte body ih =>
      rw [List.length_cons] at hfull
      rw [List.cons_append, lineFrom_cons hbody]
      split
      · obtain rfl : body = [] := List.length_eq_zero_iff.mp (by omega)
        rfl
      · have hstill : ¬HasLineEnd ((byte :: kept).reverse ++ body) := by simpa using hbody
        exact ih hstill (by omega) (by omega)

theorem exists_full_of_lineFrom (h : lineFrom ending kept size bytes = (.error .lineTooLong, rest))
    (hkept : ¬HasLineEnd kept.reverse) (hsize : size ≤ maxLine) :
    ∃ body, bytes = body ++ rest ∧ ¬HasLineEnd (kept.reverse ++ body) ∧
      size + body.length = maxLine + 1 := by
  induction bytes generalizing kept size with
  | nil =>
      have hcause : ending.readError = .lineTooLong := Except.error.inj (Prod.mk.inj h).1
      rcases ending.readError_eq with heq | ⟨cause, heq⟩
      all_goals
        rw [heq] at hcause
        cases hcause
  | cons byte more ih =>
      rw [lineFrom] at h
      split at h
      · cases h
      · rename_i hnot
        have hstill : ¬HasLineEnd (byte :: kept).reverse := not_hasLineEnd_kept hkept hnot
        split at h
        · cases h
          refine ⟨[byte], rfl, by rwa [← List.reverse_cons], ?_⟩
          rw [List.length_singleton]
          omega
        · obtain ⟨body, rfl, hbody, hfull⟩ := ih h hstill (by omega)
          refine ⟨byte :: body, rfl, by simpa using hbody, ?_⟩
          rw [List.length_cons]
          omega

-- How long a line is does not count, but only how far off its end is.
theorem run_line_eq_lineTooLong_iff : line.run stream = (.error .lineTooLong, after) ↔
    ∃ body, ¬HasLineEnd body ∧ body.length = maxLine + 1 ∧
      stream = ⟨body ++ after.bytes, after.ending⟩ := by
  have hempty : ¬HasLineEnd ([] : Bytes).reverse := by simp [HasLineEnd, Bytes.crlf]
  constructor
  · intro h
    rcases hline : lineFrom stream.ending [] 0 stream.bytes with ⟨outcome, rest⟩
    simp only [run, line, hline, Prod.mk.injEq] at h
    obtain ⟨rfl, rfl⟩ := h
    obtain ⟨body, hbytes, hbody, hfull⟩ := exists_full_of_lineFrom hline hempty (Nat.zero_le _)
    exact ⟨body, hbody, by omega, by rw [← hbytes]⟩
  · rintro ⟨body, hbody, hfull, rfl⟩
    have hline : lineFrom after.ending [] 0 (body ++ after.bytes) =
        (.error .lineTooLong, after.bytes) :=
      lineFrom_of_full hbody (Nat.zero_le _) (by omega)
    simp only [run, line, hline]

theorem run_textLine_eq_lineTooLong_iff : textLine.run stream = (.error .lineTooLong, after) ↔
    line.run stream = (.error .lineTooLong, after) := by
  rw [textLine, run_bind_eq_error_iff]
  refine or_iff_left ?_
  rintro ⟨bytes, between, -, hrest⟩
  split at hrest
  · cases hrest
  · cases hrest

end Reader

-- The two kinds of replies that are one line of text.
inductive IsText : UInt8 → (String → Reply) → Prop where
  | simple : IsText Sigil.simple simple
  | error : IsText Sigil.error error

variable {sigil : UInt8} {wrap : String → Reply} {text : String} {bytes : Bytes} {ending : Ending}

theorem IsText.run_read (h : IsText sigil wrap) (bytes : Bytes) (ending : Ending) :
    read.run ⟨sigil :: bytes, ending⟩ =
      (Reader.textLine >>= fun text => pure (wrap text)).run ⟨bytes, ending⟩ := by
  have hsigil : Reader.byte.run ⟨sigil :: bytes, ending⟩ = (.ok sigil, ⟨bytes, ending⟩) := rfl
  rw [read_eq_replyAt, Reader.replyAt, Reader.run_bind_of_ok hsigil]
  cases h with
  | simple => rfl
  | error => rfl

theorem IsText.run_read_eq_lineTooLong_iff (h : IsText sigil wrap) {after : Stream} :
    read.run ⟨sigil :: bytes, ending⟩ = (.error .lineTooLong, after) ↔
      Reader.line.run ⟨bytes, ending⟩ = (.error .lineTooLong, after) := by
  rw [h.run_read, Reader.run_bind_eq_error_iff, Reader.run_textLine_eq_lineTooLong_iff]
  refine or_iff_left ?_
  rintro ⟨_, _, -, ⟨⟩⟩

-- In a line that has no room there is none for the carriage return at its end either.
theorem not_hasLineEnd_take {body : Bytes} (h : ¬Reader.HasLineEnd body)
    (hsize : maxLine ≤ body.length) (rest : Bytes) :
    ¬Reader.HasLineEnd ((body ++ (Bytes.crlf ++ rest)).take (maxLine + 1)) := by
  have hreturn : ¬Reader.HasLineEnd (body ++ [Bytes.carriageReturn]) :=
    Reader.not_hasLineEnd_concat h (by rintro ⟨heq, -⟩; cases heq)
  have hroom : maxLine + 1 ≤ (body ++ [Bytes.carriageReturn]).length := by
    rw [List.length_append, List.length_singleton]
    omega
  have hsplit : body ++ (Bytes.crlf ++ rest) =
      body ++ [Bytes.carriageReturn] ++ (Bytes.lineFeed :: rest) := by
    simp [Bytes.crlf]
  rw [hsplit, List.take_append_of_le_length hroom]
  exact fun hline => hreturn (hline.trans (List.take_prefix _ _).isInfix)

-- A text is read if it leaves room for the carriage return, so it may have one byte less than
-- the limit, and any longer text is refused. Whatever the line holds and whether it ends at
-- all, it is refused with the first byte beyond the limit, and only for having come so far
-- without an end.
theorem line_limit (hkind : IsText sigil wrap) :
    (∀ text, ¬Reader.HasLineEnd (Bytes.ofText text) → ∀ rest ending,
      let stream : Stream := ⟨Wire.line sigil (Bytes.ofText text) ++ rest, ending⟩
      ((Bytes.ofText text).length < maxLine →
        read.run stream = (.ok (wrap text), ⟨rest, ending⟩)) ∧
      (maxLine ≤ (Bytes.ofText text).length →
        read.run stream =
          (.error .lineTooLong, ⟨stream.bytes.drop (maxLine + 2), ending⟩))) ∧
    (∀ bytes ending after,
      read.run ⟨sigil :: bytes, ending⟩ = (.error .lineTooLong, after) ↔
        ∃ body, ¬Reader.HasLineEnd body ∧ body.length = maxLine + 1 ∧
          (⟨bytes, ending⟩ : Stream) = ⟨body ++ after.bytes, after.ending⟩) ∧
    ReadError.lineTooLong.message = "reply line exceeds 65536 bytes" := by
  have hlong : ∀ bytes ending after,
      read.run ⟨sigil :: bytes, ending⟩ = (.error .lineTooLong, after) ↔
        ∃ body, ¬Reader.HasLineEnd body ∧ body.length = maxLine + 1 ∧
          (⟨bytes, ending⟩ : Stream) = ⟨body ++ after.bytes, after.ending⟩ :=
    fun bytes ending after =>
      hkind.run_read_eq_lineTooLong_iff.trans Reader.run_line_eq_lineTooLong_iff
  refine ⟨fun text htext rest ending => ⟨fun hsize => ?_, fun hsize => ?_⟩, hlong, rfl⟩
  · rw [Reader.line_append, hkind.run_read,
      Reader.run_bind_of_ok (Reader.run_textLine htext hsize rest ending)]
    rfl
  · rw [Reader.line_append]
    refine (hlong _ _ _).mpr ⟨_, not_hasLineEnd_take htext hsize rest, ?_, ?_⟩
    · rw [List.length_take, List.length_append, List.length_append]
      have hend : Bytes.crlf.length = 2 := rfl
      omega
    · rw [List.drop_succ_cons, List.take_append_drop]

-- A text that is one character again and again.
def repeated (char : Char) (n : Nat) : String := String.ofList (List.replicate n char)

section Repeated

variable {char : Char} (hascii : char.toNat < 128) (n : Nat)

include hascii

theorem ofText_repeated :
    Bytes.ofText (repeated char n) = List.replicate n char.toNat.toUInt8 := by
  have hall : ∀ other ∈ List.replicate n char, other.toNat < 128 := by
    intro other hmem
    rwa [(List.mem_replicate.mp hmem).2]
  rw [repeated, Bytes.ofText_ofList_of_ascii hall, List.map_replicate]

theorem length_ofText_repeated : (Bytes.ofText (repeated char n)).length = n := by
  rw [ofText_repeated hascii, List.length_replicate]

theorem repeated_has_no_lineEnd : ¬Reader.HasLineEnd (Bytes.ofText (repeated char n)) := by
  intro hline
  rw [ofText_repeated hascii] at hline
  have hreturn : Bytes.carriageReturn ∈ List.replicate n char.toNat.toUInt8 :=
    hline.subset (by decide)
  have hfeed : Bytes.lineFeed ∈ List.replicate n char.toNat.toUInt8 := hline.subset (by decide)
  rw [← (List.mem_replicate.mp hreturn).2] at hfeed
  cases (List.mem_replicate.mp hfeed).2

end Repeated

-- With nothing but carriage returns every place could be the end of the line.
theorem line_limit_carriageReturns :
    let short := repeated '\r' 65535
    let long := repeated '\r' 70000
    (IsText Sigil.error error ∧ ¬Reader.HasLineEnd (Bytes.ofText short) ∧
      (Bytes.ofText short).length < maxLine ∧
      read.run ⟨Wire.line Sigil.error (Bytes.ofText short), .closed⟩ =
        (.ok (.error short), ⟨[], .closed⟩)) ∧
    IsText Sigil.simple simple ∧ ¬Reader.HasLineEnd (Bytes.ofText long) ∧
      maxLine ≤ (Bytes.ofText long).length ∧
      (read.run ⟨Wire.line Sigil.simple (Bytes.ofText long), .closed⟩).1 =
        .error .lineTooLong := by
  intro short long
  have hshort : ¬Reader.HasLineEnd (Bytes.ofText short) := repeated_has_no_lineEnd (by decide) _
  have hlong : ¬Reader.HasLineEnd (Bytes.ofText long) := repeated_has_no_lineEnd (by decide) _
  have hroom : (Bytes.ofText short).length < maxLine := by
    rw [length_ofText_repeated (by decide)]
    decide
  have hfull : maxLine ≤ (Bytes.ofText long).length := by
    rw [length_ofText_repeated (by decide)]
    decide
  have hread := ((line_limit .error).1 short hshort [] .closed).1 hroom
  have hrefused := ((line_limit .simple).1 long hlong [] .closed).2 hfull
  rw [List.append_nil] at hread hrefused
  exact ⟨⟨.error, hshort, hroom, hread⟩, .simple, hlong, hfull, congrArg Prod.fst hrefused⟩

-- A text just as long as the limit is refused.
theorem full_line_refused :
    let text := repeated 'a' maxLine
    ¬Reader.HasLineEnd (Bytes.ofText text) ∧ (Bytes.ofText text).length = maxLine ∧
      (read.run ⟨Wire.line Sigil.simple (Bytes.ofText text), .closed⟩).1 = .error .lineTooLong ∧
      (read.run ⟨Wire.line Sigil.error (Bytes.ofText text), .closed⟩).1 = .error .lineTooLong := by
  intro text
  have hline : ¬Reader.HasLineEnd (Bytes.ofText text) := repeated_has_no_lineEnd (by decide) _
  have hlength : (Bytes.ofText text).length = maxLine := length_ofText_repeated (by decide) _
  have hread := Reader.run_textLine_of_le hline (Nat.le_of_eq hlength.symm) [] .closed
  have hrefused {sigil : UInt8} {wrap : String → Reply} (h : IsText sigil wrap) :
      (read.run ⟨Wire.line sigil (Bytes.ofText text), .closed⟩).1 = .error .lineTooLong := by
    rw [← List.append_nil (Wire.line _ _), Reader.line_append, h.run_read]
    exact Reader.run_bind_of_error hread
  exact ⟨hline, hlength, hrefused .simple, hrefused .error⟩

end KeyValue.Reply
