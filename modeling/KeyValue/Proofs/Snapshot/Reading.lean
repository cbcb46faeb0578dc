import KeyValue.Proofs.Snapshot.Escape

namespace KeyValue.Snapshot

variable {token out : Bytes} {position : Nat} {byte : UInt8}

-- A hexadecimal digit, of either case, with its value.
def IsHexDigit (digit : UInt8) (value : Nat) : Prop :=
  (Bytes.ofText "0123456789abcdef")[value]? = some digit ∨
    (Bytes.ofText "0123456789ABCDEF")[value]? = some digit

instance (digit : UInt8) (value : Nat) : Decidable (IsHexDigit digit value) :=
  inferInstanceAs (Decidable (_ ∨ _))

theorem IsHexDigit.lt {digit : UInt8} {value : Nat} (h : IsHexDigit digit value) : value < 16 := by
  rcases h with h | h
  · exact (List.getElem?_eq_some_iff.mp h).1
  · exact (List.getElem?_eq_some_iff.mp h).1

theorem isHexDigit_iff {digit : UInt8} {value : Nat} :
    IsHexDigit digit value ↔ ∃ half, hexValue? digit = some half ∧ half.toNat = value := by
  have below : ∀ digit : UInt8, ∀ half ∈ hexValue? digit, half.toNat < 16 := by
    decide +kernel
  have agree : ∀ digit : UInt8, ∀ value < 16,
      IsHexDigit digit value ↔ (hexValue? digit).map UInt8.toNat = some value := by
    decide +kernel
  rw [← Option.map_eq_some_iff]
  by_cases hvalue : value < 16
  · exact agree digit value hvalue
  · refine iff_of_false (fun h => hvalue h.lt) fun h => ?_
    obtain ⟨half, hhalf, rfl⟩ := Option.map_eq_some_iff.mp h
    exact hvalue (below digit half hhalf)

-- Two digits spell a byte, its higher half first.
def IsHexPair (high low byte : UInt8) : Prop :=
  ∃ upper lower, IsHexDigit high upper ∧ IsHexDigit low lower ∧ byte.toNat = 16 * upper + lower

theorem hexByte?_eq_some_iff {high low : UInt8} :
    hexByte? high low = some byte ↔ IsHexPair high low byte := by
  have value {upper lower : UInt8} (hupper : upper.toNat < 16) (hlower : lower.toNat < 16) :
      upper * 16 + lower = byte ↔ byte.toNat = 16 * upper.toNat + lower.toNat := by
    have hsixteen : (16 : UInt8).toNat = 16 := rfl
    rw [← UInt8.toNat_inj, UInt8.toNat_add, UInt8.toNat_mul, hsixteen]
    omega
  unfold hexByte? IsHexPair
  constructor
  · intro h
    split at h
    · rename_i upper lower hhigh hlow
      have hupper := isHexDigit_iff.mpr ⟨upper, hhigh, rfl⟩
      have hlower := isHexDigit_iff.mpr ⟨lower, hlow, rfl⟩
      exact ⟨_, _, hupper, hlower, (value hupper.lt hlower.lt).mp (Option.some.inj h)⟩
    · cases h
  · rintro ⟨_, _, hupper, hlower, hbyte⟩
    obtain ⟨upper, hhigh, rfl⟩ := isHexDigit_iff.mp hupper
    obtain ⟨lower, hlow, rfl⟩ := isHexDigit_iff.mp hlower
    simp only [hhigh, hlow, (value hupper.lt hlower.lt).mpr hbyte]

-- A percent sign stands at the position, and two digits after it that are still in the token.
def EscapeAt (token : Bytes) (position : Nat) (byte : UInt8) : Prop :=
  token[position]? = some percent ∧
    ∃ high low, token[position + 1]? = some high ∧ token[position + 2]? = some low ∧
      IsHexPair high low byte

-- What is read of a token from a position on. An escape takes three bytes and any other byte
-- stands for itself. Every byte that is taken is in the token, and the end is not missed.
inductive ReadsFrom (token : Bytes) : Nat → Bytes → Prop where
  | done : ReadsFrom token token.length []
  | escape {position : Nat} {byte : UInt8} {out : Bytes} (hescape : EscapeAt token position byte)
      (hrest : ReadsFrom token (position + 3) out) : ReadsFrom token position (byte :: out)
  | plain {position : Nat} {byte : UInt8} {out : Bytes} (hbyte : token[position]? = some byte)
      (hplain : ∀ read, ¬EscapeAt token position read)
      (hrest : ReadsFrom token (position + 1) out) : ReadsFrom token position (byte :: out)

theorem drop_of_getElem? (h : token[position]? = some byte) :
    token.drop position = byte :: token.drop (position + 1) := by
  obtain ⟨hlt, rfl⟩ := List.getElem?_eq_some_iff.mp h
  exact List.drop_eq_getElem_cons hlt

theorem unescapeAll_of_escapeAt (h : EscapeAt token position byte) :
    unescapeAll (token.drop position) = byte :: unescapeAll (token.drop (position + 3)) := by
  obtain ⟨hpercent, high, low, hhigh, hlow, hpair⟩ := h
  rw [drop_of_getElem? hpercent, drop_of_getElem? hhigh, drop_of_getElem? hlow, unescapeAll,
    if_pos rfl, hexByte?_eq_some_iff.mpr hpair]

theorem unescapeAll_of_plain (hbyte : token[position]? = some byte)
    (hplain : ∀ read, ¬EscapeAt token position read) :
    unescapeAll (token.drop position) = byte :: unescapeAll (token.drop (position + 1)) := by
  rw [drop_of_getElem? hbyte]
  by_cases hpercent : byte = percent
  · subst hpercent
    cases hhigh : token[position + 1]? with
    | none =>
        rw [List.drop_eq_nil_of_le (List.getElem?_eq_none_iff.mp hhigh)]
        rfl
    | some high =>
        cases hlow : token[position + 2]? with
        | none =>
            rw [drop_of_getElem? hhigh, List.drop_eq_nil_of_le (List.getElem?_eq_none_iff.mp hlow)]
            rfl
        | some low =>
            have hnone : hexByte? high low = none := by
              refine Option.eq_none_iff_forall_ne_some.mpr fun read hread => ?_
              exact hplain read ⟨hbyte, high, low, hhigh, hlow, hexByte?_eq_some_iff.mp hread⟩
            rw [drop_of_getElem? hhigh, drop_of_getElem? hlow, unescapeAll, if_pos rfl, hnone]
  · exact unescapeAll_cons_of_ne hpercent _

theorem ReadsFrom.eq_unescapeAll (h : ReadsFrom token position out) :
    out = unescapeAll (token.drop position) := by
  induction h with
  | done => rw [List.drop_length, unescapeAll]
  | escape hescape _ ih => rw [unescapeAll_of_escapeAt hescape, ← ih]
  | plain hbyte hplain _ ih => rw [unescapeAll_of_plain hbyte hplain, ← ih]

theorem EscapeAt.add_three_le (h : EscapeAt token position byte) :
    position + 3 ≤ token.length := by
  obtain ⟨-, high, low, -, hlow, -⟩ := h
  exact (List.getElem?_eq_some_iff.mp hlow).1

-- Every reading comes to an end, because each turn takes the position nearer to that of the end.
theorem readsFrom_unescapeAll (token : Bytes) (position : Nat) (h : position ≤ token.length) :
    ReadsFrom token position (unescapeAll (token.drop position)) := by
  by_cases hend : position = token.length
  · rw [hend, List.drop_length]
    exact .done
  have hlt : position < token.length := by omega
  have hbyte : token[position]? = some token[position] := List.getElem?_eq_getElem hlt
  by_cases hescape : ∃ byte, EscapeAt token position byte
  · obtain ⟨byte, hescape⟩ := hescape
    have hnext := hescape.add_three_le
    rw [unescapeAll_of_escapeAt hescape]
    exact .escape hescape (readsFrom_unescapeAll token (position + 3) hnext)
  · have hplain := not_exists.mp hescape
    rw [unescapeAll_of_plain hbyte hplain]
    exact .plain hbyte hplain (readsFrom_unescapeAll token (position + 1) hlt)
termination_by token.length - position

-- The reading gives as many bytes as it takes just where it meets no escape.
theorem ReadsFrom.length_le (h : ReadsFrom token position out) :
    position + out.length ≤ token.length ∧
      (position + out.length = token.length →
        ∀ later byte, position ≤ later → ¬EscapeAt token later byte) := by
  induction h with
  | done =>
      refine ⟨Nat.le_refl _, fun _ later byte hlater hescape => ?_⟩
      have hnext := hescape.add_three_le
      omega
  | escape hescape _ ih =>
      rw [List.length_cons]
      exact ⟨by omega, fun hlength => by omega⟩
  | plain hbyte hplain _ ih =>
      rw [List.length_cons]
      obtain ⟨hle, hnone⟩ := ih
      refine ⟨by omega, fun hlength later byte hlater => ?_⟩
      obtain rfl | hbeyond := Nat.eq_or_lt_of_le hlater
      · exact hplain byte
      · exact hnone (by omega) later byte hbeyond

theorem readsFrom_drop (hnone : ∀ position byte, ¬EscapeAt token position byte) (position : Nat)
    (h : position ≤ token.length) : ReadsFrom token position (token.drop position) := by
  by_cases hend : position = token.length
  · rw [hend, List.drop_length]
    exact .done
  have hlt : position < token.length := by omega
  rw [List.drop_eq_getElem_cons hlt]
  exact .plain (List.getElem?_eq_getElem hlt) (hnone position) (readsFrom_drop hnone _ hlt)
termination_by token.length - position

-- What a token is read as. A percent sign alone stands for the empty token.
inductive Reads : Bytes → Bytes → Prop where
  | empty : Reads [percent] []
  | through {token out : Bytes} (hne : token ≠ [percent]) (h : ReadsFrom token 0 out) :
      Reads token out

theorem reads_iff : Reads token out ↔ out = unescape token := by
  constructor
  · rintro (_ | ⟨hne, h⟩)
    · rfl
    · rw [unescape, if_neg hne, h.eq_unescapeAll, List.drop_zero]
  · rintro rfl
    by_cases hne : token = [percent]
    · subst hne
      exact .empty
    · rw [unescape, if_neg hne]
      exact .through hne (readsFrom_unescapeAll token 0 (Nat.zero_le _))

theorem unescape_eq_self_iff :
    unescape token = token ↔
      token ≠ [percent] ∧ ∀ position byte, ¬EscapeAt token position byte := by
  constructor
  · intro h
    have hne : token ≠ [percent] := by
      rintro rfl
      cases h
    rcases reads_iff.mpr h.symm with _ | ⟨-, hreads⟩
    obtain ⟨-, hnone⟩ := hreads.length_le
    exact ⟨hne, fun position byte => hnone (Nat.zero_add _) position byte (Nat.zero_le _)⟩
  · rintro ⟨hne, hnone⟩
    exact (reads_iff.mp (.through hne (readsFrom_drop hnone 0 (Nat.zero_le _)))).symm

-- Spaces, tabs, line feeds, vertical tabs, form feeds and carriage returns part tokens and lines,
-- and a colon parts a field from its value.
def separators : Bytes := [32, 9, 10, 11, 12, 13, colon]

theorem not_mem_escape_of_mem_separators {separator : UInt8} (h : separator ∈ separators)
    (token : Bytes) : separator ∉ escape token := by
  have hreserved : ∀ separator ∈ separators,
      separator ≠ percent ∧ isReserved separator = true := by
    decide +kernel
  obtain ⟨hne, hreserved⟩ := hreserved separator h
  exact not_mem_escape hne hreserved token

-- Every token is written without separators, and as one byte at least, and is read back from that.
-- What is read of any bytes at all is just their reading from the left to the right, which does not
-- leave them, and those that are read as they stand are those without an escape that are not the
-- sign of the empty token.
theorem escape_exact :
    (∀ token, escape token ≠ [] ∧ (∀ separator ∈ separators, separator ∉ escape token) ∧
      unescape (escape token) = token) ∧
    (∀ token out, Reads token out ↔ out = unescape token) ∧
    (∀ token position out, ReadsFrom token position out →
      position + out.length ≤ token.length) ∧
    ∀ token, unescape token = token ↔
      token ≠ [percent] ∧ ∀ position byte, ¬EscapeAt token position byte :=
  ⟨fun token => ⟨escape_ne_nil token,
      fun _ hseparator => not_mem_escape_of_mem_separators hseparator token, unescape_escape token⟩,
    fun _ _ => reads_iff, fun _ _ _ h => h.length_le.1, fun _ => unescape_eq_self_iff⟩

-- A percent sign before an escape, an escape that gives the start of another, and one that is cut
-- off at the end.
theorem escape_exact_of_percents :
    let token := Bytes.ofText "%%41%2541%4"
    let out := Bytes.ofText "%A%41%4"
    Bytes.lineFeed ∈ separators ∧ Bytes.lineFeed ∉ escape [10, 37] ∧
      unescape (escape token) = token ∧ Reads token out ∧ Reads [percent] [] ∧
      ReadsFrom token 8 (Bytes.ofText "1%4") ∧ 8 + 3 ≤ token.length ∧
      ∀ position byte, ¬EscapeAt (Bytes.ofText "%4%") position byte := by
  intro token out
  obtain ⟨hwritten, hread, hinside, hsame⟩ := escape_exact
  have hseparator : Bytes.lineFeed ∈ separators := by decide
  have htail : ReadsFrom token 8 (Bytes.ofText "1%4") := by
    have hreads := readsFrom_unescapeAll token 8 (by decide +kernel)
    rwa [show unescapeAll (token.drop 8) = Bytes.ofText "1%4" from by decide +kernel] at hreads
  exact ⟨hseparator, (hwritten [10, 37]).2.1 _ hseparator, (hwritten token).2.2,
    (hread token out).mpr (by decide +kernel), (hread _ _).mpr rfl, htail,
    hinside token 8 _ htail, ((hsame _).mp (by decide +kernel)).2⟩

end KeyValue.Snapshot
