import KeyValue.Proofs.Bytes
import KeyValue.Request

namespace KeyValue.Request

variable {bytes rest gap word : Bytes} {words : List Bytes}

-- Nothing but blanks, or nothing at all.
def IsGap (gap : Bytes) : Prop := ∀ byte ∈ gap, isBlank byte = true

structure IsWord (word : Bytes) : Prop where
  nonempty : word ≠ []
  unbroken : ∀ byte ∈ word, isBlank byte = false

-- The words that stand in the bytes from left to right. Gaps go before the first, after the
-- last and between them, where they are not empty: what follows a word is nothing or begins
-- with a blank.
inductive Spaced : List Bytes → Bytes → Prop where
  | gap {gap : Bytes} (hgap : IsGap gap) : Spaced [] gap
  | word {gap word rest : Bytes} {words : List Bytes} (hgap : IsGap gap) (hword : IsWord word)
      (hapart : ∀ byte ∈ rest.head?, isBlank byte = true) (hrest : Spaced words rest) :
      Spaced (word :: words) (gap ++ (word ++ rest))

theorem IsGap.head? (h : IsGap gap) : ∀ byte ∈ gap.head?, isBlank byte = true :=
  fun byte hbyte => h byte (List.mem_of_head? hbyte)

theorem IsGap.cons {byte : UInt8} (h : IsGap gap) (hbyte : isBlank byte = true) :
    IsGap (byte :: gap) :=
  List.forall_mem_cons.mpr ⟨hbyte, h⟩

theorem ofWords_gap_append (h : IsGap gap) (rest : Bytes) :
    ofWords (gap ++ rest) = ofWords rest := by
  induction gap with
  | nil => rfl
  | cons byte gap ih =>
      obtain ⟨hbyte, hgap⟩ := List.forall_mem_cons.mp h
      rw [List.cons_append, ofWords, Bytes.splitWhere_cons_separator hbyte]
      exact ih hgap

theorem ofWords_word_append (h : IsWord word) (hapart : ∀ byte ∈ rest.head?, isBlank byte = true) :
    ofWords (word ++ rest) = word :: ofWords rest := by
  have hpiece := Bytes.splitWhere_of_forall h.unbroken
  cases rest with
  | nil => simp [ofWords, hpiece, h.nonempty, Bytes.splitWhere_nil]
  | cons byte rest =>
      have hbyte : isBlank byte = true := hapart byte rfl
      rw [ofWords, Bytes.splitWhere_append_cons hbyte, hpiece, ofWords,
        Bytes.splitWhere_cons_separator hbyte]
      simp [h.nonempty]

theorem Spaced.ofWords_eq (h : Spaced words bytes) : ofWords bytes = words := by
  induction h with
  | @gap gap hgap =>
      rw [← List.append_nil gap, ofWords_gap_append hgap]
      rfl
  | word hgap hword hapart _ ih =>
      rw [ofWords_gap_append hgap, ofWords_word_append hword hapart, ih]

theorem Spaced.isWord (h : Spaced words bytes) : ∀ word ∈ words, IsWord word := by
  induction h with
  | gap => simp
  | word _ hword _ _ ih => exact List.forall_mem_cons.mpr ⟨hword, ih⟩

-- Nothing but the blanks is lost.
theorem Spaced.flatten_eq (h : Spaced words bytes) :
    words.flatten = bytes.filter (fun byte => !isBlank byte) := by
  have hnone {gap : Bytes} (hgap : IsGap gap) : gap.filter (fun byte => !isBlank byte) = [] := by
    refine List.filter_eq_nil_iff.mpr fun byte hbyte => ?_
    rw [hgap byte hbyte]
    decide
  induction h with
  | gap hgap => exact (hnone hgap).symm
  | @word gap word rest words hgap hword hapart hrest ih =>
      have hall : word.filter (fun byte => !isBlank byte) = word := by
        simpa [List.filter_eq_self] using hword.unbroken
      rw [List.flatten_cons, List.filter_append, List.filter_append, hnone hgap, hall, ih,
        List.nil_append]

-- A blank in front widens the gap before the first word, and another byte begins a word or
-- becomes the first byte of one.

theorem Spaced.cons_blank {byte : UInt8} (h : Spaced words bytes) (hbyte : isBlank byte = true) :
    Spaced words (byte :: bytes) := by
  cases h with
  | gap hgap => exact .gap (hgap.cons hbyte)
  | word hgap hword hapart hrest => exact .word (hgap.cons hbyte) hword hapart hrest

theorem Spaced.exists_cons {byte : UInt8} (h : Spaced words bytes) (hbyte : isBlank byte = false) :
    ∃ words, Spaced words (byte :: bytes) := by
  have hempty : IsGap [] := by simp [IsGap]
  have hsingle : IsWord [byte] := ⟨by simp, by simpa using hbyte⟩
  cases h with
  | gap hgap => exact ⟨_, .word hempty hsingle hgap.head? (.gap hgap)⟩
  | @word gap word rest words hgap hword hapart hrest =>
      cases gap with
      | nil =>
          have hlonger : IsWord (byte :: word) :=
            ⟨by simp, List.forall_mem_cons.mpr ⟨hbyte, hword.unbroken⟩⟩
          exact ⟨_, .word hempty hlonger hapart hrest⟩
      | cons first gap =>
          exact ⟨_, .word hempty hsingle (hgap.head? · ·) (.word hgap hword hapart hrest)⟩

theorem exists_spaced (bytes : Bytes) : ∃ words, Spaced words bytes := by
  induction bytes with
  | nil => exact ⟨[], .gap (by simp [IsGap])⟩
  | cons byte rest ih =>
      obtain ⟨words, h⟩ := ih
      cases hbyte : isBlank byte with
      | true => exact ⟨words, h.cons_blank hbyte⟩
      | false => exact h.exists_cons hbyte

theorem spaced_ofWords (bytes : Bytes) : Spaced (ofWords bytes) bytes := by
  obtain ⟨words, h⟩ := exists_spaced bytes
  rwa [h.ofWords_eq]

end KeyValue.Request
