import KeyValue.Bytes

namespace KeyValue.Bytes

-- A text is encoded character by character, and ASCII characters are bytes of their own.

theorem ofText_ofList (chars : List Char) :
    ofText (String.ofList chars) = chars.flatMap String.utf8EncodeChar := by
  simp [ofText, String.toByteArray_ofList, List.utf8Encode]

theorem ofText_eq_flatMap (text : String) :
    ofText text = text.toList.flatMap String.utf8EncodeChar := by
  rw [← ofText_ofList, String.ofList_toList]

theorem ofText_append (first second : String) :
    ofText (first ++ second) = ofText first ++ ofText second := by
  simp [ofText, String.toByteArray_append]

theorem ofText_ofList_of_ascii {chars : List Char} (h : ∀ char ∈ chars, char.toNat < 128) :
    ofText (String.ofList chars) = chars.map fun char => char.toNat.toUInt8 := by
  rw [ofText_ofList]
  induction chars with
  | nil => rfl
  | cons char rest ih =>
      obtain ⟨hchar, hrest⟩ := List.forall_mem_cons.mp h
      have hbyte : char.val.toNat ≤ 127 := Nat.le_of_lt_succ hchar
      have hone : String.utf8EncodeChar char = [char.toNat.toUInt8] := by
        simp only [String.utf8EncodeChar, hbyte, if_true]
        rfl
      rw [List.flatMap_cons, hone, ih hrest, List.map_cons, List.singleton_append]

theorem exists_ofText_of_ascii {bytes : Bytes} (h : ∀ byte ∈ bytes, byte.toNat < 128) :
    ∃ text, ofText text = bytes := by
  have hchar : ∀ byte ∈ bytes, (Char.ofNat byte.toNat).toNat = byte.toNat := by
    intro byte hbyte
    have hvalid : byte.toNat.isValidChar := .inl (Nat.lt_trans (h byte hbyte) (by decide))
    rw [Char.ofNat, dif_pos hvalid]
    rfl
  have hascii : ∀ char ∈ bytes.map fun byte => Char.ofNat byte.toNat, char.toNat < 128 := by
    intro char hmem
    obtain ⟨byte, hbyte, rfl⟩ := List.mem_map.mp hmem
    rw [hchar byte hbyte]
    exact h byte hbyte
  have hround : ∀ byte ∈ bytes, (Char.ofNat byte.toNat).toNat.toUInt8 = byte := by
    intro byte hbyte
    rw [hchar byte hbyte]
    exact UInt8.ofNat_toNat
  refine ⟨String.ofList (bytes.map fun byte => Char.ofNat byte.toNat), ?_⟩
  rw [ofText_ofList_of_ascii hascii, List.map_map]
  exact (List.map_congr_left hround).trans (List.map_id bytes)

-- The bytes of the other characters have their highest bit set.
theorem toNat_eq_of_mem_utf8EncodeChar {char : Char} {byte : UInt8} (hbyte : byte.toNat < 128)
    (h : byte ∈ String.utf8EncodeChar char) : char.toNat = byte.toNat := by
  have hval : char.val.toNat = char.toNat := rfl
  simp only [String.utf8EncodeChar] at h
  split at h
  · rw [List.mem_singleton] at h
    subst h
    simp only [UInt8.toNat_ofNat'] at *
    omega
  · exfalso
    split at h
    · simp only [List.mem_cons, List.not_mem_nil, or_false] at h
      rcases h with rfl | rfl <;> simp only [UInt8.toNat_ofNat'] at hbyte <;> omega
    · split at h
      · simp only [List.mem_cons, List.not_mem_nil, or_false] at h
        rcases h with rfl | rfl | rfl <;> simp only [UInt8.toNat_ofNat'] at hbyte <;> omega
      · simp only [List.mem_cons, List.not_mem_nil, or_false] at h
        rcases h with rfl | rfl | rfl | rfl <;> simp only [UInt8.toNat_ofNat'] at hbyte <;> omega

theorem mem_toList_of_mem_ofText {text : String} {byte : UInt8} (hbyte : byte.toNat < 128)
    (h : byte ∈ ofText text) : Char.ofNat byte.toNat ∈ text.toList := by
  rw [ofText_eq_flatMap] at h
  obtain ⟨char, hchar, hmem⟩ := List.mem_flatMap.mp h
  rwa [← toNat_eq_of_mem_utf8EncodeChar hbyte hmem, Char.ofNat_toNat]

end KeyValue.Bytes
