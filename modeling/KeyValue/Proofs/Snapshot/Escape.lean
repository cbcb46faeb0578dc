import KeyValue.Proofs.Bytes
import KeyValue.Snapshot.Escape

namespace KeyValue.Snapshot

theorem hexByte?_hexDigit (byte : UInt8) :
    hexByte? (hexDigit (byte / 16)) (hexDigit (byte % 16)) = some byte := by
  revert byte
  decide +kernel

theorem isReserved_hexDigit (byte : UInt8) :
    isReserved (hexDigit (byte / 16)) = false ∧ isReserved (hexDigit (byte % 16)) = false := by
  revert byte
  decide +kernel

theorem unescapeAll_cons_of_ne {byte : UInt8} (h : byte ≠ percent) (rest : Bytes) :
    unescapeAll (byte :: rest) = byte :: unescapeAll rest := by
  match rest with
  | [] => rfl
  | [_] => rfl
  | _ :: _ :: _ => simp [unescapeAll, h]

-- What one byte is written as is read back as that byte, whatever comes after it.
theorem unescapeAll_escapeByte_append (byte : UInt8) (rest : Bytes) :
    unescapeAll (escapeByte byte ++ rest) = byte :: unescapeAll rest := by
  unfold escapeByte
  split
  · simp [unescapeAll, hexByte?_hexDigit]
  · rename_i hplain
    have hne : byte ≠ percent := by
      rintro rfl
      exact hplain (by decide)
    exact unescapeAll_cons_of_ne hne rest

theorem unescapeAll_flatMap_escapeByte (token : Bytes) :
    unescapeAll (token.flatMap escapeByte) = token := by
  induction token with
  | nil => rfl
  | cons byte rest ih => rw [List.flatMap_cons, unescapeAll_escapeByte_append, ih]

-- The one-byte spelling of the empty token is free, because a percent sign takes three bytes.
theorem flatMap_escapeByte_ne_percent (token : Bytes) :
    token.flatMap escapeByte ≠ [percent] := by
  cases token with
  | nil => simp
  | cons byte rest =>
      intro h
      have hread := congrArg unescapeAll h
      rw [List.flatMap_cons, unescapeAll_escapeByte_append] at hread
      have hbyte : byte = percent := by simpa [unescapeAll] using congrArg List.head? hread
      rw [hbyte] at h
      simp [escapeByte, isReserved] at h

theorem unescape_escape (token : Bytes) : unescape (escape token) = token := by
  cases token with
  | nil => rfl
  | cons byte rest =>
      have hescape : escape (byte :: rest) = (byte :: rest).flatMap escapeByte := rfl
      rw [hescape, unescape, if_neg (flatMap_escapeByte_ne_percent _),
        unescapeAll_flatMap_escapeByte]

theorem escape_ne_nil (token : Bytes) : escape token ≠ [] := by
  cases token with
  | nil => exact List.cons_ne_nil _ _
  | cons byte rest =>
      intro h
      have hread := unescape_escape (byte :: rest)
      rw [h] at hread
      cases hread

-- A written token holds nothing that could be taken for a separator.
theorem isReserved_of_mem_escape {token : Bytes} {byte : UInt8} (h : byte ∈ escape token) :
    byte = percent ∨ isReserved byte = false := by
  unfold escape at h
  split at h
  · exact Or.inl (List.mem_singleton.mp h)
  · obtain ⟨source, _, hbyte⟩ := List.mem_flatMap.mp h
    unfold escapeByte at hbyte
    split at hbyte
    · obtain ⟨hhigh, hlow⟩ := isReserved_hexDigit source
      simp only [List.mem_cons, List.not_mem_nil, or_false] at hbyte
      rcases hbyte with rfl | rfl | rfl
      · exact Or.inl rfl
      · exact Or.inr hhigh
      · exact Or.inr hlow
    · rename_i hplain
      rw [List.mem_singleton.mp hbyte]
      exact Or.inr (Bool.eq_false_iff.mpr hplain)

theorem not_mem_escape {byte : UInt8} (hne : byte ≠ percent) (h : isReserved byte = true)
    (token : Bytes) : byte ∉ escape token := by
  intro hmem
  rcases isReserved_of_mem_escape hmem with heq | hfree
  · exact hne heq
  · exact Bool.noConfusion (h.symm.trans hfree)

end KeyValue.Snapshot
