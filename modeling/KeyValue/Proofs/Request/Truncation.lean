import KeyValue.Proofs.Request.RoundTrip
import Mathlib.Data.Nat.Find

namespace KeyValue.Request

variable {bytes token rest : Bytes} {tokens : List Bytes} {start n : Nat}

-- A header or an element that is cut off is not taken for a shorter one: it would be the
-- same one in the whole request.

theorem header?_take_of_lt {sigil : UInt8} {value size : Nat}
    (h : header? sigil bytes = some (value, size)) (hn : n < size) :
    header? sigil (bytes.take n) = none := by
  by_contra hread
  obtain ⟨⟨other, length⟩, hheader⟩ := Option.ne_none_iff_exists'.mp hread
  have hle : length ≤ n := (header?_size_le hheader).trans (List.length_take_le n bytes)
  have hwhole := header?_append hheader (bytes.drop n)
  rw [List.take_append_drop, h] at hwhole
  cases hwhole
  omega

theorem element?_take_of_lt (h : element? bytes = some (token, rest))
    (hn : n + rest.length < bytes.length) : element? (bytes.take n) = none := by
  by_contra hread
  obtain ⟨⟨other, more⟩, helement⟩ := Option.ne_none_iff_exists'.mp hread
  have hwhole := element?_append helement (bytes.drop n)
  rw [List.take_append_drop, h] at hwhole
  cases hwhole
  rw [List.length_append, List.length_drop] at hn
  omega

-- How many tokens are whole in the first `n` bytes, if the first of them begins at `start`.
def wholeTokens (start : Nat) (tokens : List Bytes) (n : Nat) : Nat :=
  Nat.findGreatest (fun k => start + ((tokens.take k).flatMap Wire.bulk).length ≤ n) tokens.length

theorem wholeTokens_of_lt (h : n < start) (tokens : List Bytes) :
    wholeTokens start tokens n = 0 := by
  refine Nat.findGreatest_eq_zero_iff.mpr fun k _ _ hle => ?_
  omega

theorem wholeTokens_cons_of_lt (h : n < start + (Wire.bulk token).length) (tokens : List Bytes) :
    wholeTokens start (token :: tokens) n = 0 := by
  refine Nat.findGreatest_eq_zero_iff.mpr fun k hk _ hle => ?_
  obtain ⟨fewer, rfl⟩ : ∃ fewer, k = fewer + 1 := ⟨k - 1, by omega⟩
  rw [List.take_succ_cons, List.flatMap_cons, List.length_append] at hle
  omega

theorem wholeTokens_cons_of_le (h : start + (Wire.bulk token).length ≤ n) (tokens : List Bytes) :
    wholeTokens start (token :: tokens) n =
      wholeTokens (start + (Wire.bulk token).length) tokens n + 1 := by
  have hsize (k : Nat) : start + (((token :: tokens).take (k + 1)).flatMap Wire.bulk).length =
      start + (Wire.bulk token).length + ((tokens.take k).flatMap Wire.bulk).length := by
    rw [List.take_succ_cons, List.flatMap_cons, List.length_append, Nat.add_assoc]
  refine Nat.findGreatest_eq_iff.mpr ⟨Nat.succ_le_succ (Nat.findGreatest_le _), fun _ => ?_, ?_⟩
  · rw [hsize]
    exact Nat.findGreatest_spec (P := fun k => start + (Wire.bulk token).length +
      ((tokens.take k).flatMap Wire.bulk).length ≤ n) (Nat.zero_le _) h
  · intro k hlt hle
    obtain ⟨fewer, rfl⟩ : ∃ fewer, k = fewer + 1 := ⟨k - 1, by omega⟩
    have hmore : wholeTokens (start + (Wire.bulk token).length) tokens n < fewer := by omega
    have hfewer : fewer ≤ tokens.length := Nat.le_of_succ_le_succ hle
    rw [hsize]
    exact Nat.findGreatest_is_greatest (P := fun k => start + (Wire.bulk token).length +
      ((tokens.take k).flatMap Wire.bulk).length ≤ n) hmore hfewer

theorem elements_take (h : ∀ token ∈ tokens, (Wire.bulk token).length < UInt64.size)
    (hstart : start ≤ n) :
    elements tokens.length ((tokens.flatMap Wire.bulk).take (n - start)) =
      tokens.take (wholeTokens start tokens n) := by
  induction tokens generalizing start with
  | nil => rfl
  | cons token tokens ih =>
      obtain ⟨htoken, htokens⟩ := List.forall_mem_cons.mp h
      have helement := element?_bulk htoken
      rw [List.length_cons, elements, List.flatMap_cons]
      by_cases hwhole : start + (Wire.bulk token).length ≤ n
      · have hroom : (Wire.bulk token).length ≤ n - start := by omega
        rw [List.take_append, List.take_of_length_le hroom, helement, Nat.sub_sub,
          wholeTokens_cons_of_le hwhole, List.take_succ_cons]
        exact congrArg (token :: ·) (ih htokens hwhole)
      · have hcut : n - start + (tokens.flatMap Wire.bulk).length <
            (Wire.bulk token ++ tokens.flatMap Wire.bulk).length := by
          rw [List.length_append]
          omega
        rw [element?_take_of_lt (helement _) hcut, wholeTokens_cons_of_lt (Nat.not_le.mp hwhole),
          List.take_zero]

theorem decode_take_of_header_cut (hcount : tokens.length < UInt64.size)
    (hn : n < (Wire.line Sigil.array (Decimal.bytes tokens.length)).length) :
    decode ((encode tokens).take n) = [] := by
  cases n with
  | zero => rfl
  | succ n =>
      have hheader := header?_line (Decimal.isNumeral_bytes tokens.length) hcount Sigil.array
        (tokens.flatMap Wire.bulk)
      exact decode_eq_nil_of_header? rfl (header?_take_of_lt hheader hn)

theorem declares_take_encode (hcount : tokens.length < UInt64.size)
    (hn : (Wire.line Sigil.array (Decimal.bytes tokens.length)).length ≤ n) :
    Declares tokens.length ((tokens.flatMap Wire.bulk).take
      (n - (Wire.line Sigil.array (Decimal.bytes tokens.length)).length))
        ((encode tokens).take n) := by
  rw [encode, List.take_append, List.take_of_length_le hn]
  exact ⟨Decimal.isNumeral_bytes tokens.length, hcount⟩

-- A request is read whatever comes after it. If it is cut off anywhere, the tokens before
-- the cut are read, and the one that is cut is not.
theorem decode_take_encode (h : (encode tokens).length < UInt64.size) :
    (∀ rest, decode (encode tokens ++ rest) = tokens) ∧
    ∀ n, decode ((encode tokens).take n) =
      tokens.take (wholeTokens
        (Wire.line Sigil.array (Decimal.bytes tokens.length)).length tokens n) := by
  have hcount := length_lt_of_encode h
  refine ⟨decode_encode_append h, fun n => ?_⟩
  by_cases hcut : n < (Wire.line Sigil.array (Decimal.bytes tokens.length)).length
  · rw [decode_take_of_header_cut hcount hcut, wholeTokens_of_lt hcut, List.take_zero]
  · have hheader := Nat.not_lt.mp hcut
    rw [(declares_take_encode hcount hheader).decode_eq,
      elements_take (length_bulk_lt_of_encode h) hheader]

-- The cut is in the line end after the second token, whose data looks like the end of one.
theorem decode_take_encode_lineEnd :
    let tokens : List Bytes := [Bytes.ofText "ECHO", Bytes.ofText "a\r\n$1", Bytes.ofText "b"]
    (encode tokens).length < UInt64.size ∧
      (encode tokens).take 24 = Bytes.ofText "*3\r\n$4\r\nECHO\r\n$5\r\na\r\n$1\r" ∧
      decode ((encode tokens).take 24) = [Bytes.ofText "ECHO"] := by
  intro tokens
  have hsize : (encode tokens).length < UInt64.size := by decide +kernel
  have hwhole : wholeTokens (Wire.line Sigil.array (Decimal.bytes tokens.length)).length tokens 24 =
      1 := by
    decide +kernel
  refine ⟨hsize, by decide +kernel, ?_⟩
  rw [(decode_take_encode hsize).2, hwhole]
  rfl

-- From the front of a written token only that token can be read, however long it is.
theorem eq_of_element?_bulk {other more : Bytes}
    (h : element? (Wire.bulk token ++ rest) = some (other, more)) :
    other = token ∧ more = rest := by
  obtain ⟨frame, @⟨numeral, hnumeral⟩, -, hbytes⟩ := element?_eq_some_iff.mp h
  simp only [Wire.bulk, List.append_assoc] at hbytes
  have hwritten := Decimal.isNumeral_bytes token.length
  obtain ⟨rfl, hdata⟩ := line_append_inj hwritten.carriageReturn_not_mem
    hnumeral.carriageReturn_not_mem hbytes
  have hlength : token.length = other.length := hwritten.spells.symm.trans hnumeral.spells
  obtain ⟨rfl, hafter⟩ := List.append_inj hdata hlength
  exact ⟨rfl, (List.append_cancel_left hafter).symm⟩

theorem elements_of_prefix (count : Nat) (h : bytes <+: tokens.flatMap Wire.bulk) :
    elements count bytes <+: tokens ∧ (elements count bytes).flatMap Wire.bulk <+: bytes := by
  induction count generalizing bytes tokens with
  | zero => exact ⟨List.nil_prefix, List.nil_prefix⟩
  | succ count ih =>
      rw [elements]
      cases helement : element? bytes with
      | none => exact ⟨List.nil_prefix, List.nil_prefix⟩
      | some read =>
          obtain ⟨token, rest⟩ := read
          obtain ⟨more, hmore⟩ := h
          have hwhole := element?_append helement more
          rw [hmore] at hwhole
          cases tokens with
          | nil => cases hwhole
          | cons first tokens =>
              rw [List.flatMap_cons] at hwhole hmore
              obtain ⟨rfl, hrest⟩ := eq_of_element?_bulk hwhole
              rw [← hrest, ← List.append_assoc, List.append_left_inj] at hmore
              subst hmore
              obtain ⟨htokens, hbytes⟩ := ih ⟨more, hrest⟩
              exact ⟨List.cons_prefix_cons.mpr ⟨rfl, htokens⟩,
                (List.prefix_append_right_inj (Wire.bulk token)).mpr hbytes⟩

-- A part of a request gives a part of its tokens, and never all of them. It does not matter
-- how long they are.
theorem decode_of_prefix (h : bytes <+: encode tokens) (hcut : bytes ≠ encode tokens)
    (htokens : tokens ≠ []) :
    decode bytes <+: tokens ∧ (decode bytes).length < tokens.length := by
  have hnothing : ([] : List Bytes) <+: tokens ∧ ([] : List Bytes).length < tokens.length :=
    ⟨List.nil_prefix, List.length_pos_iff.mpr htokens⟩
  obtain ⟨more, hmore⟩ := h
  cases bytes with
  | nil => exact hnothing
  | cons first bytes =>
      have hsigil : (first :: bytes).head? = some Sigil.array := congrArg List.head? hmore
      cases hheader : header? Sigil.array (first :: bytes) with
      | none =>
          rw [decode_eq_nil_of_header? hsigil hheader]
          exact hnothing
      | some header =>
          obtain ⟨count, size⟩ := header
          obtain ⟨numeral, tail, hnumeral, hcount, hbytes, -⟩ := header?_eq_some_iff.mp hheader
          rw [hbytes] at hmore hcut ⊢
          have hdeclares : Declares count tail (Wire.line Sigil.array numeral ++ tail) :=
            ⟨hnumeral, hcount⟩
          rw [encode, List.append_assoc] at hmore
          obtain ⟨rfl, htail⟩ := line_append_inj hnumeral.carriageReturn_not_mem
            (Decimal.carriageReturn_not_mem_bytes _) hmore
          obtain ⟨hread, hframes⟩ := elements_of_prefix count ⟨more, htail⟩
          rw [hdeclares.decode_eq]
          refine ⟨hread, Nat.lt_of_le_of_ne hread.length_le fun hall => hcut ?_⟩
          rw [hread.eq_of_length hall] at hframes
          have hsame : tail = tokens.flatMap Wire.bulk :=
            List.IsPrefix.eq_of_length_le ⟨more, htail⟩ hframes.length_le
          rw [hsame, encode]

end KeyValue.Request
