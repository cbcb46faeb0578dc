import KeyValue.Proofs.Request.Grammar

namespace KeyValue.Request

variable {tokens : List Bytes}

theorem isElement_bulk (token : Bytes) : IsElement token (Wire.bulk token) :=
  ⟨Decimal.isNumeral_bytes token.length⟩

theorem length_bulk (token : Bytes) :
    (Wire.bulk token).length = (Wire.line Sigil.bulk (Decimal.bytes token.length)).length +
      token.length + Bytes.crlf.length := by
  rw [Wire.bulk, List.length_append, List.length_append, Nat.add_assoc]

theorem element?_bulk {token : Bytes} (h : (Wire.bulk token).length < UInt64.size)
    (rest : Bytes) : element? (Wire.bulk token ++ rest) = some (token, rest) :=
  element?_frame (isElement_bulk token) h rest

theorem elements_flatMap (h : ∀ token ∈ tokens, (Wire.bulk token).length < UInt64.size)
    (rest : Bytes) : elements tokens.length (tokens.flatMap Wire.bulk ++ rest) = tokens := by
  induction tokens with
  | nil => rfl
  | cons token tokens ih =>
      obtain ⟨htoken, htokens⟩ := List.forall_mem_cons.mp h
      rw [List.flatMap_cons, List.append_assoc, List.length_cons, elements, element?_bulk htoken]
      exact congrArg (token :: ·) (ih htokens)

theorem length_bulk_le {token : Bytes} (h : token ∈ tokens) :
    (Wire.bulk token).length ≤ (tokens.flatMap Wire.bulk).length := by
  obtain ⟨before, after, rfl⟩ := List.append_of_mem h
  rw [List.flatMap_append, List.flatMap_cons, List.length_append, List.length_append]
  omega

theorem length_le_length_flatMap (tokens : List Bytes) :
    tokens.length ≤ (tokens.flatMap Wire.bulk).length := by
  induction tokens with
  | nil => exact Nat.le_refl 0
  | cons token tokens ih =>
      have hbulk := length_bulk token
      have hend : Bytes.crlf.length = 2 := rfl
      rw [List.flatMap_cons, List.length_cons, List.length_append]
      omega

theorem length_lt_of_mem {token : Bytes} (h : token ∈ tokens) :
    token.length < (encode tokens).length := by
  have hframe := length_bulk token
  have hbulk := length_bulk_le h
  have hend : Bytes.crlf.length = 2 := rfl
  rw [encode, List.length_append]
  omega

theorem length_lt_of_encode {size : Nat} (h : (encode tokens).length < size) :
    tokens.length < size := by
  have hle := length_le_length_flatMap tokens
  rw [encode, List.length_append] at h
  omega

theorem length_bulk_lt_of_encode {size : Nat} (h : (encode tokens).length < size) :
    ∀ token ∈ tokens, (Wire.bulk token).length < size := by
  intro token htoken
  have hle := length_bulk_le htoken
  rw [encode, List.length_append] at h
  omega

-- Whatever follows, the tokens are those that were sent.
theorem decode_encode_append (h : (encode tokens).length < UInt64.size) (rest : Bytes) :
    decode (encode tokens ++ rest) = tokens := by
  have hdeclares : Declares tokens.length (tokens.flatMap Wire.bulk ++ rest)
      (Wire.line Sigil.array (Decimal.bytes tokens.length) ++
        (tokens.flatMap Wire.bulk ++ rest)) :=
    ⟨Decimal.isNumeral_bytes tokens.length, length_lt_of_encode h⟩
  rw [encode, List.append_assoc, hdeclares.decode_eq,
    elements_flatMap (length_bulk_lt_of_encode h)]

end KeyValue.Request
