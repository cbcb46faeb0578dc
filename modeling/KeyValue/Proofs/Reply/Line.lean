import KeyValue.Proofs.Decimal
import KeyValue.Proofs.Text.Encoding
import KeyValue.Reply.Reader

namespace KeyValue.Reply.Reader

variable {ending : Ending} {kept body rest : Bytes} {size : Nat}

-- Somewhere in the bytes a line ends.
def HasLineEnd (bytes : Bytes) : Prop := Bytes.crlf <:+: bytes

theorem not_hasLineEnd_of_not_mem {byte : UInt8} (hbyte : byte ∈ Bytes.crlf) {bytes : Bytes}
    (h : byte ∉ bytes) : ¬HasLineEnd bytes :=
  fun hline => h (hline.subset hbyte)

-- The byte at the front does not end a line that has not ended.
theorem lineFrom_cons {byte : UInt8} (h : ¬HasLineEnd (kept.reverse ++ byte :: body)) :
    lineFrom ending kept size (byte :: rest) =
      if maxLine ≤ size then (.error .lineTooLong, rest)
      else lineFrom ending (byte :: kept) (size + 1) rest := by
  have hnot : ¬(byte = Bytes.lineFeed ∧ kept.head? = some Bytes.carriageReturn) := by
    rintro ⟨rfl, hhead⟩
    obtain ⟨more, rfl⟩ := List.head?_eq_some_iff.mp hhead
    exact h ⟨more.reverse, body, by simp [Bytes.crlf]⟩
  rw [lineFrom, if_neg hnot]

theorem lineFrom_carriageReturn :
    lineFrom ending kept size (Bytes.carriageReturn :: rest) =
      if maxLine ≤ size then (.error .lineTooLong, rest)
      else lineFrom ending (Bytes.carriageReturn :: kept) (size + 1) rest := by
  have hnot : ¬(Bytes.carriageReturn = Bytes.lineFeed ∧
      kept.head? = some Bytes.carriageReturn) := by
    rintro ⟨heq, _⟩
    cases heq
  rw [lineFrom, if_neg hnot]

-- `kept` is what has been read of the line. Its end is found where it is, a carriage return
-- at the end of the body notwithstanding.
theorem lineFrom_append (hbody : ¬HasLineEnd (kept.reverse ++ body))
    (hsize : size + body.length < maxLine) :
    lineFrom ending kept size (body ++ (Bytes.crlf ++ rest)) =
      (.ok (kept.reverse ++ body), rest) := by
  induction body generalizing kept size with
  | nil =>
      have hroom : ¬maxLine ≤ size := Nat.not_le.mpr hsize
      simp only [List.nil_append, Bytes.crlf, List.cons_append]
      rw [lineFrom_carriageReturn, if_neg hroom, lineFrom, if_pos ⟨rfl, rfl⟩]
      simp
  | cons byte body ih =>
      simp only [List.length_cons] at hsize
      have hroom : ¬maxLine ≤ size := by omega
      have hless : size + 1 + body.length < maxLine := by omega
      have hstill : ¬HasLineEnd ((byte :: kept).reverse ++ body) := by simpa using hbody
      rw [List.cons_append, lineFrom_cons hbody, if_neg hroom, ih hstill hless]
      simp

-- The carriage return at the end needs room too.
theorem lineFrom_append_of_le (hbody : ¬HasLineEnd (kept.reverse ++ body))
    (hsize : maxLine ≤ size + body.length) :
    (lineFrom ending kept size (body ++ (Bytes.crlf ++ rest))).1 = .error .lineTooLong := by
  induction body generalizing kept size with
  | nil =>
      have hfull : maxLine ≤ size := hsize
      simp only [List.nil_append, Bytes.crlf, List.cons_append]
      rw [lineFrom_carriageReturn, if_pos hfull]
  | cons byte body ih =>
      simp only [List.length_cons] at hsize
      have hless : maxLine ≤ size + 1 + body.length := by omega
      have hstill : ¬HasLineEnd ((byte :: kept).reverse ++ body) := by simpa using hbody
      rw [List.cons_append, lineFrom_cons hbody]
      split
      · rfl
      · exact ih hstill hless

-- A byte ends a line only after a carriage return.
theorem not_hasLineEnd_concat {bytes : Bytes} {byte : UInt8} (h : ¬HasLineEnd bytes)
    (hbyte : ¬(byte = Bytes.lineFeed ∧ bytes.getLast? = some Bytes.carriageReturn)) :
    ¬HasLineEnd (bytes ++ [byte]) := by
  intro hline
  rcases List.infix_concat_iff.mp hline with hsuffix | hinfix
  · rcases List.suffix_concat_iff.mp hsuffix with hnil | ⟨first, hfirst, hlast⟩
    · cases hnil
    · have hsplit : first = [Bytes.carriageReturn] ∧ Bytes.lineFeed = byte := by
        have hcrlf : [Bytes.carriageReturn] ++ [Bytes.lineFeed] = first ++ [byte] := hfirst
        obtain ⟨hfirst, hbyte⟩ := List.append_inj' hcrlf rfl
        exact ⟨hfirst.symm, List.singleton_inj.mp hbyte⟩
      obtain ⟨rfl, rfl⟩ := hsplit
      obtain ⟨before, rfl⟩ := hlast
      exact hbyte ⟨rfl, by simp⟩
  · exact h hinfix

theorem not_hasLineEnd_kept {byte : UInt8} (h : ¬HasLineEnd kept.reverse)
    (hbyte : ¬(byte = Bytes.lineFeed ∧ kept.head? = some Bytes.carriageReturn)) :
    ¬HasLineEnd (byte :: kept).reverse := by
  have hlast : kept.reverse.getLast? = kept.head? := by simp
  rw [List.reverse_cons]
  exact not_hasLineEnd_concat h (by rwa [hlast])

-- What is taken for a line has no line end in it and had room.
theorem lineFrom_eq_ok {bytes : Bytes}
    (h : lineFrom ending kept size bytes = (.ok body, rest)) (hkept : ¬HasLineEnd kept.reverse)
    (hlength : kept.length = size) (hsize : size ≤ maxLine) :
    kept.reverse ++ bytes = body ++ (Bytes.crlf ++ rest) ∧ ¬HasLineEnd body ∧
      body.length < maxLine := by
  induction bytes generalizing kept size with
  | nil => cases h
  | cons byte more ih =>
      rw [lineFrom] at h
      split at h
      · rename_i hend
        obtain ⟨rfl, hhead⟩ := hend
        obtain ⟨before, rfl⟩ := List.head?_eq_some_iff.mp hhead
        cases h
        rw [List.length_cons] at hlength
        refine ⟨by simp [Bytes.crlf], fun hline => hkept ?_, ?_⟩
        · rw [List.reverse_cons]
          exact hline.trans (List.prefix_append _ _).isInfix
        · rw [List.tail_cons, List.length_reverse]
          omega
      · rename_i hnot
        split at h
        · cases h
        · have hstill : ¬HasLineEnd (byte :: kept).reverse := not_hasLineEnd_kept hkept hnot
          have hrest := ih h hstill (by rw [List.length_cons, hlength]) (by omega)
          simpa using hrest

variable {text : String} {stream after : Stream}

theorem run_line (hbody : ¬HasLineEnd body) (hsize : body.length < maxLine) (rest : Bytes)
    (ending : Ending) :
    line.run ⟨body ++ (Bytes.crlf ++ rest), ending⟩ = (.ok body, ⟨rest, ending⟩) := by
  have hline : lineFrom ending [] 0 (body ++ (Bytes.crlf ++ rest)) = (.ok body, rest) :=
    lineFrom_append hbody (by omega)
  simp only [run, line, hline]

theorem run_line_of_le (hbody : ¬HasLineEnd body) (hsize : maxLine ≤ body.length) (rest : Bytes)
    (ending : Ending) :
    (line.run ⟨body ++ (Bytes.crlf ++ rest), ending⟩).1 = .error .lineTooLong :=
  lineFrom_append_of_le hbody (by omega)

theorem run_line_eq_ok_iff : line.run stream = (.ok body, after) ↔
    ¬HasLineEnd body ∧ body.length < maxLine ∧
      stream = ⟨body ++ (Bytes.crlf ++ after.bytes), after.ending⟩ := by
  constructor
  · intro h
    rcases hline : lineFrom stream.ending [] 0 stream.bytes with ⟨outcome, rest⟩
    simp only [run, line, hline, Prod.mk.injEq] at h
    obtain ⟨rfl, rfl⟩ := h
    have hempty : ¬HasLineEnd ([] : Bytes).reverse := by simp [HasLineEnd, Bytes.crlf]
    obtain ⟨hbytes, hbody, hsize⟩ := lineFrom_eq_ok hline hempty rfl (Nat.zero_le _)
    refine ⟨hbody, hsize, ?_⟩
    rw [← hbytes]
    rfl
  · rintro ⟨hbody, hsize, rfl⟩
    exact run_line hbody hsize after.bytes after.ending

theorem run_bind_of_ok {α β : Type} {reader : Reader α} {next : α → Reader β} {value : α}
    {stream rest : Stream} (h : reader.run stream = (.ok value, rest)) :
    (reader >>= next).run stream = (next value).run rest := by
  rw [run_bind, h]

theorem run_bind_of_error {α β : Type} {reader : Reader α} {next : α → Reader β}
    {cause : ReadError} {stream : Stream} (h : (reader.run stream).1 = .error cause) :
    ((reader >>= next).run stream).1 = .error cause := by
  rw [run_bind]
  revert h
  rcases reader.run stream with ⟨_ | _, _⟩
  · exact fun h => congrArg Except.error (Except.error.inj h)
  · rintro ⟨⟩

theorem run_bind_eq_ok_iff {α β : Type} {reader : Reader α} {next : α → Reader β} {value : β} :
    (reader >>= next).run stream = (.ok value, after) ↔
      ∃ first between, reader.run stream = (.ok first, between) ∧
        (next first).run between = (.ok value, after) := by
  rw [run_bind]
  rcases reader.run stream with ⟨_ | first, between⟩
  · simp
  · simp

theorem run_bind_eq_error_iff {α β : Type} {reader : Reader α} {next : α → Reader β}
    {cause : ReadError} :
    (reader >>= next).run stream = (.error cause, after) ↔
      reader.run stream = (.error cause, after) ∨
        ∃ first between, reader.run stream = (.ok first, between) ∧
          (next first).run between = (.error cause, after) := by
  rw [run_bind]
  rcases reader.run stream with ⟨_ | first, between⟩
  · simp
  · simp

theorem run_textLine (htext : ¬HasLineEnd (Bytes.ofText text))
    (hsize : (Bytes.ofText text).length < maxLine) (rest : Bytes) (ending : Ending) :
    textLine.run ⟨Bytes.ofText text ++ (Bytes.crlf ++ rest), ending⟩ =
      (.ok text, ⟨rest, ending⟩) := by
  rw [textLine, run_bind_of_ok (run_line htext hsize rest ending), Bytes.toText?_ofText]
  rfl

theorem run_textLine_of_le (htext : ¬HasLineEnd (Bytes.ofText text))
    (hsize : maxLine ≤ (Bytes.ofText text).length) (rest : Bytes) (ending : Ending) :
    (textLine.run ⟨Bytes.ofText text ++ (Bytes.crlf ++ rest), ending⟩).1 =
      .error .lineTooLong :=
  run_bind_of_error (run_line_of_le htext hsize rest ending)

-- Digits with a sign or without one, as many as a line has room for.
def LineNumeral (numeral : Bytes) (value : Int) : Prop :=
  Decimal.IsSigned numeral value ∧ numeral.length < maxLine

theorem lineNumeral_bytes (value : Int64) :
    LineNumeral (Decimal.bytes value.toInt) value.toInt :=
  ⟨Decimal.isSigned_bytes _, Nat.lt_of_le_of_lt (Decimal.length_bytes_le value) (by decide)⟩

theorem toInt_ofNat {n : Nat} (h : n ≤ Int64.maxValue.toInt) : (Int64.ofNat n).toInt = n := by
  have hmax : Int64.maxValue.toInt = 9223372036854775807 := rfl
  exact Int64.toInt_ofNat_of_lt (by omega)

theorem lineNumeral_bytes_natCast {n : Nat} (h : n ≤ Int64.maxValue.toInt) :
    LineNumeral (Decimal.bytes n) n := by
  have hplain := lineNumeral_bytes (Int64.ofNat n)
  rwa [toInt_ofNat h] at hplain

-- Numerals are lines of text.
theorem run_integerLine {numeral : Bytes} {value : Int64}
    (h : LineNumeral numeral value.toInt) (rest : Bytes) (ending : Ending) :
    integerLine.run ⟨numeral ++ (Bytes.crlf ++ rest), ending⟩ = (.ok value, ⟨rest, ending⟩) := by
  obtain ⟨hsigned, hsize⟩ := h
  obtain ⟨text, rfl⟩ := Bytes.exists_ofText_of_ascii hsigned.toNat_lt
  have hline : ¬HasLineEnd (Bytes.ofText text) :=
    not_hasLineEnd_of_not_mem (by decide) hsigned.carriageReturn_not_mem
  have hvalue := Decimal.toInt64?_eq_some_iff.mpr hsigned
  rw [integerLine, run_bind_of_ok (run_textLine hline hsize rest ending), hvalue]
  rfl

end KeyValue.Reply.Reader
