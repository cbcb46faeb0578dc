import KeyValue.Proofs.Bytes
import KeyValue.Proofs.Decimal
import KeyValue.Request
import Mathlib.Data.List.Forall2

namespace KeyValue.Request

open Decimal (IsNumeral)

variable {bytes token rest : Bytes} {tokens : List Bytes}

theorem lineEndFrom_cons {byte : UInt8} (h : byte ≠ Bytes.carriageReturn) (start : Nat)
    (bytes : Bytes) : lineEndFrom start (byte :: bytes) = lineEndFrom (start + 1) bytes := by
  cases bytes with
  | nil => rfl
  | cons second rest =>
      have hnot : ¬(byte = Bytes.carriageReturn ∧ second = Bytes.lineFeed) := fun hend => h hend.1
      rw [lineEndFrom, if_neg hnot]

theorem lineEndFrom_append {body : Bytes} (h : Bytes.carriageReturn ∉ body) (start : Nat)
    (rest : Bytes) :
    lineEndFrom start (body ++ (Bytes.crlf ++ rest)) = some (start + body.length) := by
  induction body generalizing start with
  | nil =>
      simp only [List.nil_append, Bytes.crlf, List.cons_append]
      rw [lineEndFrom, if_pos ⟨rfl, rfl⟩]
      rfl
  | cons byte body ih =>
      obtain ⟨hbyte, hbody⟩ := List.ne_and_not_mem_of_not_mem_cons h
      rw [List.cons_append, lineEndFrom_cons hbyte.symm, ih hbody, List.length_cons]
      congr 1
      omega

theorem exists_of_lineEndFrom_eq_some {start stop : Nat} (h : lineEndFrom start bytes = some stop) :
    ∃ body rest, bytes = body ++ (Bytes.crlf ++ rest) ∧ stop = start + body.length := by
  fun_induction lineEndFrom start bytes with
  | case1 => cases h
  | case2 => cases h
  | case3 start first second rest hend =>
      obtain ⟨rfl, rfl⟩ := hend
      cases h
      exact ⟨[], rest, rfl, rfl⟩
  | case4 start first second rest hnot ih =>
      obtain ⟨body, more, hbytes, hstop⟩ := ih h
      refine ⟨first :: body, more, by rw [hbytes, List.cons_append], ?_⟩
      rw [List.length_cons]
      omega

-- Where a line ends can be seen in what is after the sigil.
theorem line_append_inj {sigil : UInt8} {body body' : Bytes} {rest rest' : Bytes}
    (hbody : Bytes.carriageReturn ∉ body) (hbody' : Bytes.carriageReturn ∉ body')
    (h : Wire.line sigil body ++ rest = Wire.line sigil body' ++ rest') :
    body = body' ∧ rest = rest' := by
  simp only [Wire.line, List.cons_append, List.append_assoc, List.cons.injEq, true_and] at h
  have hline : ¬Bytes.crlf <:+: body := fun hend => hbody (hend.subset (by decide))
  have hline' : ¬Bytes.crlf <:+: body' := fun hend => hbody' (hend.subset (by decide))
  exact Bytes.append_crlf_inj hline hline' h

theorem header?_line {numeral : Bytes} {value : Nat} (h : IsNumeral numeral value)
    (hvalue : value < UInt64.size) (sigil : UInt8) (rest : Bytes) :
    header? sigil (Wire.line sigil numeral ++ rest) =
      some (value, (Wire.line sigil numeral).length) := by
  have hstop : lineEnd? (numeral ++ (Bytes.crlf ++ rest)) = some numeral.length := by
    rw [lineEnd?, lineEndFrom_append h.carriageReturn_not_mem, Nat.zero_add]
  have hread : Decimal.toSize? numeral = some value :=
    Decimal.toSize?_eq_some_iff.mpr ⟨h, hvalue⟩
  have hsize : 1 + numeral.length + Bytes.crlf.length = (Wire.line sigil numeral).length := by
    simp only [Wire.line, List.length_cons, List.length_append]
    omega
  simp only [Wire.line, List.cons_append, List.append_assoc, header?, if_true, hstop,
    Option.bind_eq_bind, Option.bind_some, List.take_left, hread, Option.pure_def]
  rw [hsize, Wire.line]

-- A sigil, a numeral and a line end are a header, and nothing else is.
theorem header?_eq_some_iff {sigil : UInt8} {value size : Nat} :
    header? sigil bytes = some (value, size) ↔
      ∃ numeral rest, IsNumeral numeral value ∧ value < UInt64.size ∧
        bytes = Wire.line sigil numeral ++ rest ∧ size = (Wire.line sigil numeral).length := by
  constructor
  · intro h
    cases bytes with
    | nil => cases h
    | cons first bytes =>
        rw [header?] at h
        split at h
        · rename_i hsigil
          obtain ⟨stop, hstop, h⟩ := Option.bind_eq_some_iff.mp h
          obtain ⟨length, hlength, h⟩ := Option.bind_eq_some_iff.mp h
          obtain ⟨body, rest, hbytes, hbody⟩ := exists_of_lineEndFrom_eq_some hstop
          rw [Nat.zero_add] at hbody
          rw [hbytes, hbody, List.take_left] at hlength
          obtain ⟨hnumeral, hsize⟩ := Decimal.toSize?_eq_some_iff.mp hlength
          cases h
          refine ⟨body, rest, hnumeral, hsize, ?_, ?_⟩
          · rw [hsigil, hbytes, Wire.line, List.cons_append, List.append_assoc]
          · simp only [Wire.line, List.length_cons, List.length_append, hbody]
            omega
        · cases h
  · rintro ⟨numeral, rest, hnumeral, hvalue, rfl, rfl⟩
    exact header?_line hnumeral hvalue sigil rest

theorem header?_append {sigil : UInt8} {value size : Nat}
    (h : header? sigil bytes = some (value, size)) (more : Bytes) :
    header? sigil (bytes ++ more) = some (value, size) := by
  obtain ⟨numeral, rest, hnumeral, hvalue, rfl, rfl⟩ := header?_eq_some_iff.mp h
  rw [List.append_assoc, header?_line hnumeral hvalue]

theorem header?_size_le {sigil : UInt8} {value size : Nat}
    (h : header? sigil bytes = some (value, size)) : size ≤ bytes.length := by
  obtain ⟨numeral, rest, -, -, rfl, rfl⟩ := header?_eq_some_iff.mp h
  rw [List.length_append]
  exact Nat.le_add_right ..

-- A token with its length in front, which may be written in any way.
inductive IsElement (token : Bytes) : Bytes → Prop where
  | intro {numeral : Bytes} (h : IsNumeral numeral token.length) :
      IsElement token (Wire.line Sigil.bulk numeral ++ (token ++ Bytes.crlf))

theorem extent?_eq_some_iff {start length : Nat} {extent : Extent} :
    extent? start length = some extent ↔
      extent = ⟨start, start + length, start + length + Bytes.crlf.length⟩ ∧
        extent.stop < UInt64.size := by
  have hend : Bytes.crlf.length = 2 := rfl
  simp only [extent?, addSizes?]
  constructor
  · intro h
    obtain ⟨dataEnd, hdata, h⟩ := Option.bind_eq_some_iff.mp h
    obtain ⟨stop, hstop, h⟩ := Option.bind_eq_some_iff.mp h
    split at hdata
    · cases hdata
      split at hstop
      · cases hstop
        cases h
        exact ⟨rfl, by assumption⟩
      · cases hstop
    · cases hdata
  · rintro ⟨rfl, hstop⟩
    have hdata : start + length < UInt64.size := by
      simp only at hstop
      omega
    simp only at hstop
    simp [hdata, hstop]

theorem element?_frame {frame : Bytes} (h : IsElement token frame)
    (hsize : frame.length < UInt64.size) (rest : Bytes) :
    element? (frame ++ rest) = some (token, rest) := by
  obtain ⟨hnumeral⟩ := h
  simp only [List.length_append] at hsize
  have hheader := header?_line hnumeral (by omega) Sigil.bulk (token ++ Bytes.crlf ++ rest)
  have hextent := extent?_eq_some_iff.mpr ⟨rfl, (Nat.add_assoc _ _ _).symm ▸ hsize⟩
  have hbody : (token ++ Bytes.crlf ++ rest).take (token.length + Bytes.crlf.length) =
      token ++ Bytes.crlf := by
    rw [← List.length_append, List.take_left]
  have hrest : (token ++ Bytes.crlf ++ rest).drop (token.length + Bytes.crlf.length) = rest := by
    rw [← List.length_append, List.drop_left]
  rw [element?, List.append_assoc, hheader]
  simp only [Option.bind_eq_bind, Option.bind_some, hextent, Nat.add_assoc,
    List.take_length_add_append, List.drop_length_add_append, hbody, hrest, List.length_append,
    List.take_left, List.drop_left, and_self, if_true, Option.pure_def]

theorem split_at_crlf {length : Nat}
    (h : (bytes.take (length + Bytes.crlf.length)).drop length = Bytes.crlf) :
    bytes.take length ++ (Bytes.crlf ++ bytes.drop (length + Bytes.crlf.length)) = bytes := by
  rw [List.drop_take, Nat.add_sub_cancel_left] at h
  rw [← List.drop_drop]
  nth_rewrite 1 [← h]
  rw [List.take_append_drop, List.take_append_drop]

-- Elements are read just as they are written, if their ends can be counted.
theorem element?_eq_some_iff :
    element? bytes = some (token, rest) ↔
      ∃ frame, IsElement token frame ∧ frame.length < UInt64.size ∧ bytes = frame ++ rest := by
  constructor
  · intro h
    obtain ⟨⟨length, start⟩, hheader, h⟩ := Option.bind_eq_some_iff.mp h
    obtain ⟨extent, hextent, h⟩ := Option.bind_eq_some_iff.mp h
    obtain ⟨numeral, more, hnumeral, -, rfl, rfl⟩ := header?_eq_some_iff.mp hheader
    obtain ⟨rfl, hstop⟩ := extent?_eq_some_iff.mp hextent
    simp only [Nat.add_assoc, List.take_length_add_append, List.drop_length_add_append,
      List.length_append, Nat.add_left_cancel_iff, List.take_take, List.drop_left] at h hstop
    split at h
    · rename_i hframe
      obtain ⟨hlength, hend⟩ := hframe
      rw [Nat.min_eq_left (Nat.le_add_right ..)] at h
      cases h
      -- Enough bytes were there, so the data is as long as it was said to be.
      have htoken : (more.take length).length = length := by
        rw [List.length_take] at hlength ⊢
        omega
      refine ⟨_, ⟨htoken.symm ▸ hnumeral⟩, ?_, ?_⟩
      · simp only [List.length_append, htoken]
        exact hstop
      · rw [List.append_assoc, List.append_assoc, split_at_crlf hend]
    · cases h
  · rintro ⟨frame, hframe, hsize, rfl⟩
    exact element?_frame hframe hsize rest

-- What is read stays the same if there is more to read.
theorem element?_append (h : element? bytes = some (token, rest)) (more : Bytes) :
    element? (bytes ++ more) = some (token, rest ++ more) := by
  obtain ⟨frame, hframe, hsize, rfl⟩ := element?_eq_some_iff.mp h
  rw [List.append_assoc, element?_frame hframe hsize]

-- The bytes begin with these tokens, each in its frame.
def BeginsWith (bytes : Bytes) (tokens : List Bytes) : Prop :=
  ∃ frames, List.Forall₂ IsElement tokens frames ∧ frames.flatten <+: bytes

theorem elements_length_le (count : Nat) (bytes : Bytes) :
    (elements count bytes).length ≤ count := by
  induction count generalizing bytes with
  | zero => exact Nat.le_refl 0
  | succ count ih =>
      rw [elements]
      split
      · exact Nat.succ_le_succ (ih _)
      · exact Nat.zero_le _

theorem beginsWith_elements (count : Nat) (bytes : Bytes) :
    BeginsWith bytes (elements count bytes) := by
  induction count generalizing bytes with
  | zero => exact ⟨[], .nil, List.nil_prefix⟩
  | succ count ih =>
      rw [elements]
      split
      · rename_i token rest helement
        obtain ⟨frame, hframe, -, rfl⟩ := element?_eq_some_iff.mp helement
        obtain ⟨frames, hframes, hrest⟩ := ih rest
        exact ⟨frame :: frames, .cons hframe hframes,
          (List.prefix_append_right_inj frame).mpr hrest⟩
      · exact ⟨[], .nil, List.nil_prefix⟩

-- Reading stops only where no further element stands.
theorem prefix_elements {count : Nat} (hsize : bytes.length < UInt64.size)
    (htokens : tokens.length ≤ count) (h : BeginsWith bytes tokens) :
    tokens <+: elements count bytes := by
  obtain ⟨frames, hframes, more, rfl⟩ := h
  induction hframes generalizing count with
  | nil => exact List.nil_prefix
  | @cons token frame tokens frames hframe hframes ih =>
      rw [List.length_cons] at htokens
      obtain ⟨fewer, rfl⟩ : ∃ fewer, count = fewer + 1 := ⟨count - 1, by omega⟩
      rw [List.flatten_cons, List.append_assoc] at hsize ⊢
      rw [List.length_append] at hsize
      have helement : element? (frame ++ (frames.flatten ++ more)) =
          some (token, frames.flatten ++ more) :=
        element?_frame hframe (by omega) _
      have hrest : tokens <+: elements fewer (frames.flatten ++ more) :=
        ih (by omega) (by omega)
      rw [elements, helement]
      exact List.cons_prefix_cons.mpr ⟨rfl, hrest⟩

-- An array header that can be counted, and the bytes after it.
inductive Declares (count : Nat) (tail : Bytes) : Bytes → Prop where
  | intro {numeral : Bytes} (h : IsNumeral numeral count) (hcount : count < UInt64.size) :
      Declares count tail (Wire.line Sigil.array numeral ++ tail)

-- The longest list of at most `count` tokens that the bytes begin with. It is the only one,
-- because all others are parts of it.
structure IsLongest (count : Nat) (bytes : Bytes) (tokens : List Bytes) : Prop where
  length_le : tokens.length ≤ count
  begins : BeginsWith bytes tokens
  prefix_of : ∀ others : List Bytes, others.length ≤ count → BeginsWith bytes others →
    others <+: tokens

theorem Declares.decode_eq {count : Nat} {tail : Bytes} (h : Declares count tail bytes) :
    decode bytes = elements count tail := by
  obtain @⟨numeral, hnumeral, hcount⟩ := h
  have hsigil : (Wire.line Sigil.array numeral ++ tail).head? = some Sigil.array := rfl
  rw [decode, if_pos hsigil, ofArray, header?_line hnumeral hcount]
  exact congrArg (elements count) List.drop_left

theorem Declares.length_le {count : Nat} {tail : Bytes} (h : Declares count tail bytes) :
    tail.length ≤ bytes.length := by
  cases h
  rw [List.length_append]
  exact Nat.le_add_left ..

theorem exists_declares_iff :
    (∃ count tail, Declares count tail bytes) ↔ header? Sigil.array bytes ≠ none := by
  rw [Option.ne_none_iff_exists']
  constructor
  · rintro ⟨count, tail, hnumeral, hcount⟩
    exact ⟨_, header?_line hnumeral hcount Sigil.array tail⟩
  · rintro ⟨⟨count, size⟩, hheader⟩
    obtain ⟨numeral, rest, hnumeral, hcount, rfl, -⟩ := header?_eq_some_iff.mp hheader
    exact ⟨count, rest, hnumeral, hcount⟩

theorem decode_eq_nil_of_header? (hsigil : bytes.head? = some Sigil.array)
    (h : header? Sigil.array bytes = none) : decode bytes = [] := by
  rw [decode, if_pos hsigil, ofArray, h]

-- From any bytes with the array sigil in front, hostile ones too, the decoder takes the
-- longest list of tokens that the header allows, and none without a header. No buffer is
-- longer than a size can tell.
theorem decode_array_exact (hsigil : bytes.head? = some Sigil.array)
    (hsize : bytes.length < UInt64.size) :
    (∀ count tail, Declares count tail bytes → IsLongest count tail (decode bytes)) ∧
    ((¬∃ count tail, Declares count tail bytes) → decode bytes = []) := by
  constructor
  · intro count tail hdeclares
    have htail : tail.length < UInt64.size := Nat.lt_of_le_of_lt hdeclares.length_le hsize
    rw [hdeclares.decode_eq]
    exact ⟨elements_length_le count tail, beginsWith_elements count tail,
      fun others hothers hbegins => prefix_elements htail hothers hbegins⟩
  · intro hnone
    rw [exists_declares_iff, not_not] at hnone
    exact decode_eq_nil_of_header? hsigil hnone

-- The length of the first token has zeros in front, its data looks like frames, and what
-- follows it is cut off. In the other request the count is one too large to be counted.
theorem decode_array_exact_hostile :
    let tail := Bytes.ofText "$006\r\n\r\n$1\r\n\r\n$5\r\nval"
    let cut := Wire.line Sigil.array (Bytes.ofText "9000000") ++ tail
    let huge := Wire.line Sigil.array (Bytes.ofText "18446744073709551616") ++ tail
    (cut.head? = some Sigil.array ∧ cut.length < UInt64.size ∧ Declares 9000000 tail cut ∧
      IsLongest 9000000 tail (decode cut) ∧ decode cut = [Bytes.ofText "\r\n$1\r\n"]) ∧
    (huge.head? = some Sigil.array ∧ huge.length < UInt64.size ∧
      (¬∃ count tail, Declares count tail huge) ∧ decode huge = []) := by
  intro tail cut huge
  have hcut : cut.length < UInt64.size := by decide +kernel
  have hhuge : huge.length < UInt64.size := by decide +kernel
  have hdeclares : Declares 9000000 tail cut :=
    ⟨Decimal.toNat?_eq_some_iff.mp (by decide +kernel), by decide +kernel⟩
  have hnone : ¬∃ count tail, Declares count tail huge := by
    rw [exists_declares_iff, not_not]
    decide +kernel
  refine ⟨⟨rfl, hcut, hdeclares, (decode_array_exact rfl hcut).1 _ _ hdeclares, ?_⟩,
    ⟨rfl, hhuge, hnone, (decode_array_exact rfl hhuge).2 hnone⟩⟩
  decide +kernel

end KeyValue.Request
