import KeyValue.Proofs.Request.Grammar

namespace KeyValue

namespace Decimal

theorem le_valueFrom (start : Nat) (numeral : Bytes) : start ≤ valueFrom start numeral := by
  rw [valueFrom_eq_ofDigits]
  exact Nat.le_add_right_of_le (Nat.le_mul_of_pos_right start (Nat.pow_pos (by decide)))

end Decimal

namespace Request

open Decimal (IsNumeral isDigit toSize? valueFrom)

-- The decoder as it goes over one buffer with 64-bit positions. A part that is not within the
-- buffer and a sum that is taken to fit and does not are faults, and a fault ends everything.
namespace Indexed

inductive Fault where
  | outside
  | overflow
deriving DecidableEq

def slice (buffer : Bytes) (start stop : Nat) : Except Fault Bytes :=
  if start ≤ stop ∧ stop ≤ buffer.length then .ok ((buffer.take stop).drop start)
  else .error .outside

def sum (a b : Nat) : Except Fault Nat :=
  if a + b < UInt64.size then .ok (a + b) else .error .overflow

def mulSizes? (a b : Nat) : Option Nat := if a * b < UInt64.size then some (a * b) else none

-- A numeral is read digit by digit. It is refused as soon as its value does not fit.
def pushDigit? (value : Nat) (digit : UInt8) : Option Nat :=
  (mulSizes? value 10).bind fun tens => addSizes? tens (digit.toNat - 48)

def size? (numeral : Bytes) : Option Nat :=
  if numeral ≠ [] ∧ numeral.all isDigit then numeral.foldlM pushDigit? 0 else none

def header (sigil : UInt8) (buffer : Bytes) : Except Fault (Option (Nat × Nat)) :=
  if buffer.head? = some sigil then do
    let line ← slice buffer 1 buffer.length
    match lineEnd? line with
    | none => return none
    | some length =>
        let numeralEnd ← sum 1 length
        match size? (← slice buffer 1 numeralEnd) with
        | none => return none
        | some value => return some (value, ← sum numeralEnd Bytes.crlf.length)
  else return none

-- The data of the bulk string at the front, and where it ends.
def bulk (buffer : Bytes) : Except Fault (Option (Bytes × Nat)) := do
  match ← header Sigil.bulk buffer with
  | none => return none
  | some (length, start) =>
      match extent? start length with
      | none => return none
      | some extent =>
          if buffer.length < extent.stop then return none
          else if (← slice buffer extent.dataEnd extent.stop) ≠ Bytes.crlf then return none
          else return some (← slice buffer extent.dataStart extent.dataEnd, extent.stop)

-- The tokens from a position on, and how many turns it takes to find them.
def loop (buffer : Bytes) : Nat → Nat → Except Fault (List Bytes × Nat)
  | 0, _ => return ([], 0)
  | count + 1, position => do
      match ← bulk (← slice buffer position buffer.length) with
      | none => return ([], 1)
      | some (token, used) =>
          let (tokens, turns) ← loop buffer count (← sum position used)
          return (token :: tokens, turns + 1)

def array (buffer : Bytes) : Except Fault (List Bytes × Nat) := do
  match ← header Sigil.array buffer with
  | none => return ([], 0)
  | some (count, start) => loop buffer count start

end Indexed

namespace Indexed

variable {buffer : Bytes} {start stop : Nat}

theorem slice_of_le (hstart : start ≤ stop) (hstop : stop ≤ buffer.length) :
    slice buffer start stop = .ok ((buffer.take stop).drop start) :=
  if_pos ⟨hstart, hstop⟩

theorem slice_to_end (h : start ≤ buffer.length) :
    slice buffer start buffer.length = .ok (buffer.drop start) := by
  rw [slice_of_le h (Nat.le_refl _), List.take_length]

theorem sum_of_lt {a b : Nat} (h : a + b < UInt64.size) : sum a b = .ok (a + b) := if_pos h

theorem pushDigit?_eq (value : Nat) (digit : UInt8) :
    pushDigit? value digit =
      if 10 * value + (digit.toNat - 48) < UInt64.size then
        some (10 * value + (digit.toNat - 48))
      else none := by
  rw [pushDigit?, mulSizes?, Nat.mul_comm value 10]
  by_cases htens : 10 * value < UInt64.size
  · rw [if_pos htens, Option.bind_some, addSizes?]
  · rw [if_neg htens, if_neg (by omega), Option.bind_none]

-- Digits only ever make the value larger, so what did not fit once does not fit at the end.
theorem foldlM_pushDigit? (value : Nat) (numeral : Bytes) (h : value < UInt64.size) :
    numeral.foldlM pushDigit? value =
      if valueFrom value numeral < UInt64.size then some (valueFrom value numeral) else none := by
  induction numeral generalizing value with
  | nil => exact (if_pos h).symm
  | cons digit rest ih =>
      have hvalue : valueFrom value (digit :: rest) =
          valueFrom (10 * value + (digit.toNat - 48)) rest := rfl
      have hle := Decimal.le_valueFrom (10 * value + (digit.toNat - 48)) rest
      rw [List.foldlM_cons, pushDigit?_eq, hvalue]
      by_cases hnext : 10 * value + (digit.toNat - 48) < UInt64.size
      · rw [if_pos hnext]
        exact ih _ hnext
      · rw [if_neg hnext, if_neg (by omega)]
        rfl

theorem size?_eq_toSize? (numeral : Bytes) : size? numeral = toSize? numeral := by
  rw [size?, toSize?, Decimal.toNat?]
  by_cases hdigits : numeral ≠ [] ∧ numeral.all isDigit
  · rw [if_pos hdigits, if_pos hdigits, foldlM_pushDigit? 0 numeral (by decide),
      Option.filter_some]
    simp only [decide_eq_true_eq]
  · rw [if_neg hdigits, if_neg hdigits, Option.filter_none]

theorem header_eq (hsize : buffer.length < UInt64.size) (sigil : UInt8) :
    header sigil buffer = .ok (header? sigil buffer) := by
  cases buffer with
  | nil => rfl
  | cons first rest =>
      by_cases hsigil : first = sigil
      · subst hsigil
        have hline : slice (first :: rest) 1 (first :: rest).length = .ok rest :=
          slice_to_end (Nat.le_add_left 1 rest.length)
        rw [header, header?, if_pos List.head?_cons, if_pos rfl, hline]
        simp only [bind, Except.bind, pure, Except.pure, Option.bind]
        cases hstop : lineEnd? rest with
        | none => rfl
        | some length =>
            -- The line end is in the buffer, and so is all that is before it.
            obtain ⟨body, more, hrest, hlength⟩ := exists_of_lineEndFrom_eq_some hstop
            have htotal : (first :: rest).length = 1 + (length + (2 + more.length)) := by
              rw [List.length_cons, hrest, List.length_append, List.length_append, hlength]
              simp only [Bytes.crlf, List.length_cons, List.length_nil]
              omega
            have hend : Bytes.crlf.length = 2 := rfl
            have hnumeral : slice (first :: rest) 1 (1 + length) = .ok (rest.take length) := by
              rw [slice_of_le (by omega) (by omega), Nat.add_comm 1 length]
              rfl
            simp only [sum_of_lt (show 1 + length < UInt64.size by omega), hnumeral,
              size?_eq_toSize?]
            cases toSize? (rest.take length) with
            | none => rfl
            | some value =>
                simp only [sum_of_lt (show 1 + length + Bytes.crlf.length < UInt64.size by omega)]
      · have hhead : (first :: rest).head? ≠ some sigil := by simpa using hsigil
        rw [header, header?, if_neg hhead, if_neg hsigil]
        rfl

-- A sigil, a digit and a line end at the least.
theorem four_le_of_header? {sigil : UInt8} {value size : Nat}
    (h : header? sigil buffer = some (value, size)) : 4 ≤ size := by
  obtain ⟨numeral, rest, hnumeral, -, -, rfl⟩ := header?_eq_some_iff.mp h
  have hdigit := List.length_pos_of_ne_nil hnumeral.nonempty
  simp only [Wire.line, Bytes.crlf, List.length_cons, List.length_append, List.length_nil]
  omega

-- The bulk string at the front is the element that is read there, and it takes six bytes at least.
theorem bulk_cases (hsize : buffer.length < UInt64.size) :
    (bulk buffer = .ok none ∧ element? buffer = none) ∨
      ∃ token used, bulk buffer = .ok (some (token, used)) ∧
        element? buffer = some (token, buffer.drop used) ∧
        token.length + 6 ≤ used ∧ used ≤ buffer.length := by
  simp only [bulk, element?, header_eq hsize, bind, Except.bind, pure, Except.pure, Option.bind]
  cases hheader : header? Sigil.bulk buffer with
  | none => exact .inl ⟨rfl, rfl⟩
  | some header =>
      obtain ⟨length, start⟩ := header
      have hstart := four_le_of_header? hheader
      simp only
      cases hextent : extent? start length with
      | none => exact .inl ⟨rfl, rfl⟩
      | some extent =>
          obtain ⟨rfl, -⟩ := extent?_eq_some_iff.mp hextent
          have hend : Bytes.crlf.length = 2 := rfl
          simp only [List.length_take, List.take_take]
          by_cases hshort : buffer.length < start + length + Bytes.crlf.length
          · simp only [if_pos hshort, show
              min (start + length + Bytes.crlf.length) buffer.length ≠
                start + length + Bytes.crlf.length by omega, false_and, if_false]
            exact .inl ⟨trivial, trivial⟩
          · have hwhole : start + length + Bytes.crlf.length ≤ buffer.length := by omega
            rw [if_neg hshort, slice_of_le (by omega) hwhole, slice_of_le (by omega) (by omega),
              Nat.min_eq_left hwhole, Nat.min_eq_left (by omega)]
            simp only [true_and]
            by_cases hcrlf : (buffer.take (start + length + Bytes.crlf.length)).drop
                (start + length) = Bytes.crlf
            · refine .inr ⟨_, _, by rw [if_neg (not_not.mpr hcrlf)], by rw [if_pos hcrlf], ?_,
                hwhole⟩
              rw [List.length_drop, List.length_take]
              omega
            · exact .inl ⟨by rw [if_pos hcrlf], by rw [if_neg hcrlf]⟩

-- No fault comes up from any position on. Each turn but the last takes a token and six bytes more,
-- so that what is left of the buffer pays for the tokens and for the turns.
theorem loop_eq (hsize : buffer.length < UInt64.size) (count : Nat) {position : Nat}
    (hposition : position ≤ buffer.length) :
    let tokens := elements count (buffer.drop position)
    position + tokens.flatten.length + 6 * tokens.length ≤ buffer.length ∧
    ∃ turns, loop buffer count position = .ok (tokens, turns) ∧
      position + 6 * turns ≤ buffer.length + 6 := by
  induction count generalizing position with
  | zero => exact ⟨hposition, 0, rfl, by omega⟩
  | succ count ih =>
      have hleft : (buffer.drop position).length = buffer.length - position := List.length_drop
      intro tokens
      simp only [loop, slice_to_end hposition, bind, Except.bind, pure, Except.pure]
      rcases bulk_cases (show (buffer.drop position).length < UInt64.size by omega) with
        ⟨hbulk, hnone⟩ | ⟨token, used, hbulk, htoken, hlength, hused⟩
      · have htokens : tokens = [] := by
          simp only [tokens, elements, hnone]
        rw [hbulk, htokens]
        exact ⟨hposition, 1, rfl, by omega⟩
      · rw [List.drop_drop] at htoken
        obtain ⟨hspace, turns, hloop, hturns⟩ := ih (show position + used ≤ buffer.length by omega)
        have htokens : tokens = token :: elements count (buffer.drop (position + used)) := by
          simp only [tokens, elements, htoken]
        have hsum : sum position used = .ok (position + used) := sum_of_lt (by omega)
        simp only [hbulk, hsum, hloop, htokens]
        rw [List.flatten_cons, List.length_append, List.length_cons]
        exact ⟨by omega, turns + 1, rfl, by omega⟩

theorem array_eq (hsigil : buffer.head? = some Sigil.array) (hsize : buffer.length < UInt64.size) :
    (decode buffer).flatten.length + 6 * (decode buffer).length ≤ buffer.length ∧
    ∃ turns, array buffer = .ok (decode buffer, turns) ∧ turns ≤ buffer.length / 6 + 1 := by
  rw [array, header_eq hsize, decode, if_pos hsigil, ofArray]
  simp only [bind, Except.bind]
  cases hheader : header? Sigil.array buffer with
  | none => exact ⟨Nat.zero_le _, 0, rfl, Nat.zero_le _⟩
  | some header =>
      obtain ⟨count, start⟩ := header
      obtain ⟨hspace, turns, hloop, hturns⟩ := loop_eq hsize count (header?_size_le hheader)
      simp only
      exact ⟨by omega, turns, hloop, by omega⟩

end Indexed

-- A length is not taken if the end of the element cannot be counted, however much there is to read.
theorem element?_eq_none_of_le {numeral : Bytes} {length : Nat}
    (hnumeral : IsNumeral numeral length) (hlength : UInt64.size ≤
      (Wire.line Sigil.bulk numeral).length + length + Bytes.crlf.length) (rest : Bytes) :
    element? (Wire.line Sigil.bulk numeral ++ rest) = none := by
  refine Option.eq_none_iff_forall_ne_some.mpr fun ⟨token, more⟩ hread => ?_
  obtain ⟨frame, @⟨other, hother⟩, hsize, hbytes⟩ := element?_eq_some_iff.mp hread
  rw [List.append_assoc] at hbytes
  obtain ⟨rfl, -⟩ := line_append_inj hnumeral.carriageReturn_not_mem
    hother.carriageReturn_not_mem hbytes
  have hsame : length = token.length := hnumeral.spells.symm.trans hother.spells
  simp only [List.length_append] at hsize
  omega

-- Whatever counts and lengths a request declares, the decoder comes to its tokens without leaving
-- the buffer and without a sum that does not fit, and so does the reading of any one element. It
-- makes no more turns than there can be elements in the buffer, and one that fails, and its tokens
-- are smaller than the buffer by six bytes each.
theorem decode_within_bounds {bytes : Bytes} (hsize : bytes.length < 9223372036854775808) :
    (∃ read, Indexed.bulk bytes = .ok read ∧
      element? bytes = read.map fun found => (found.1, bytes.drop found.2)) ∧
    (bytes.head? = some Sigil.array →
      (∃ turns, Indexed.array bytes = .ok (decode bytes, turns) ∧
        turns ≤ bytes.length / 6 + 1) ∧
      (decode bytes).flatten.length + 6 * (decode bytes).length ≤ bytes.length) ∧
    ∀ numeral length rest, IsNumeral numeral length →
      UInt64.size ≤ (Wire.line Sigil.bulk numeral).length + length + Bytes.crlf.length →
      element? (Wire.line Sigil.bulk numeral ++ rest) = none := by
  have hcounted : bytes.length < UInt64.size := Nat.lt_trans hsize (by decide)
  refine ⟨?_, fun hsigil => ?_, fun _ _ rest hnumeral hlength =>
    element?_eq_none_of_le hnumeral hlength rest⟩
  · rcases Indexed.bulk_cases hcounted with
      ⟨hbulk, hnone⟩ | ⟨token, used, hbulk, htoken, -, -⟩
    · exact ⟨none, hbulk, hnone⟩
    · exact ⟨some (token, used), hbulk, htoken⟩
  · obtain ⟨hspace, hturns⟩ := Indexed.array_eq hsigil hcounted
    exact ⟨hturns, hspace⟩

-- The largest count there is, and a length whose end would be just past the last position.
theorem decode_within_bounds_hostile :
    let huge := Bytes.ofText "18446744073709551592"
    let bytes := Bytes.ofText "*18446744073709551615\r\n$4\r\nPING\r\n" ++
      (Wire.line Sigil.bulk huge ++ Bytes.ofText "x\r\n")
    bytes.head? = some Sigil.array ∧ bytes.length < 9223372036854775808 ∧
      decode bytes = [Bytes.ofText "PING"] ∧
      (∃ turns, Indexed.array bytes = .ok (decode bytes, turns) ∧ turns ≤ 10) ∧
      (Wire.line Sigil.bulk huge).length + 18446744073709551592 + Bytes.crlf.length =
        UInt64.size + 1 ∧
      element? (Wire.line Sigil.bulk huge ++ Bytes.ofText "x\r\n") = none := by
  intro huge bytes
  have hsigil : bytes.head? = some Sigil.array := by decide +kernel
  have hlength : bytes.length = 59 := by decide +kernel
  have hnumeral : IsNumeral huge 18446744073709551592 :=
    Decimal.toNat?_eq_some_iff.mp (by decide +kernel)
  obtain ⟨-, harray, hrefused⟩ := decode_within_bounds (show bytes.length < _ by omega)
  obtain ⟨hturns, -⟩ := harray hsigil
  rw [hlength] at hturns
  exact ⟨hsigil, by omega, by decide +kernel, hturns, by decide +kernel,
    hrefused huge _ _ hnumeral (by decide +kernel)⟩

end Request

end KeyValue
