import KeyValue.Bytes

namespace KeyValue.Bytes

-- A fact about all bytes is settled by looking at each of them.
instance (priority := low) (p : UInt8 → Prop) [DecidablePred p] : Decidable (∀ byte, p byte) :=
  decidable_of_iff (∀ n : Fin 256, p (UInt8.ofFin n))
    ⟨fun h byte => h byte.toFin, fun h n => h (UInt8.ofFin n)⟩

theorem splitWhere_of_forall {separator : UInt8 → Bool} {piece : Bytes}
    (h : ∀ byte ∈ piece, separator byte = false) : splitWhere separator piece = [piece] := by
  induction piece with
  | nil => rfl
  | cons byte rest ih =>
      obtain ⟨hbyte, hrest⟩ := List.forall_mem_cons.mp h
      exact splitWhere_cons_other hbyte (ih hrest)

theorem splitWhere_append_cons {separator : UInt8 → Bool} {byte : UInt8}
    (h : separator byte = true) (before after : Bytes) :
    splitWhere separator (before ++ byte :: after) =
      splitWhere separator before ++ splitWhere separator after := by
  induction before with
  | nil => exact splitWhere_cons_separator h after
  | cons first before ih =>
      cases hfirst : separator first with
      | true =>
          rw [List.cons_append, splitWhere_cons_separator hfirst,
            splitWhere_cons_separator hfirst, ih, List.cons_append]
      | false =>
          obtain ⟨piece, pieces, hpieces⟩ : ∃ piece pieces,
              splitWhere separator before = piece :: pieces := ⟨_, _, rfl⟩
          rw [hpieces] at ih
          rw [splitWhere_cons_other hfirst hpieces]
          exact splitWhere_cons_other hfirst ih

-- Cutting at a separator undoes joining with it, if no piece holds the separator itself.

theorem splitOn_of_not_mem {separator : UInt8} {piece : Bytes} (h : separator ∉ piece) :
    splitOn separator piece = [piece] :=
  splitWhere_of_forall fun _ hbyte => beq_eq_false_iff_ne.mpr (ne_of_mem_of_not_mem hbyte h)

theorem splitOn_append_separator (separator : UInt8) (before after : Bytes) :
    splitOn separator (before ++ separator :: after) =
      splitOn separator before ++ splitOn separator after :=
  @splitWhere_append_cons (· == separator) separator (beq_self_eq_true separator) before after

-- The first piece goes up to the first separator.
theorem splitOn_eq_takeWhile_cons (separator : UInt8) (bytes : Bytes) :
    splitOn separator bytes =
      bytes.takeWhile (· ≠ separator) :: (splitOn separator bytes).tail := by
  induction bytes with
  | nil => rfl
  | cons byte rest ih =>
      by_cases hbyte : byte = separator
      · subst hbyte
        rw [show splitOn byte (byte :: rest) = [] :: splitOn byte rest from
          splitWhere_cons_separator (by simp) rest]
        simp
      · rw [show splitOn separator (byte :: rest) = _ from
          splitWhere_cons_other (by simpa using hbyte) ih]
        simp [hbyte]

theorem splitOn_append_cons {separator : UInt8} {piece : Bytes} (h : separator ∉ piece)
    (rest : Bytes) :
    splitOn separator (piece ++ separator :: rest) = piece :: splitOn separator rest := by
  rw [splitOn_append_separator, splitOn_of_not_mem h, List.singleton_append]

-- Pieces that each end in the separator: an empty piece comes after the last one.
theorem splitOn_flatMap_append_singleton {separator : UInt8} {pieces : List Bytes}
    (h : ∀ piece ∈ pieces, separator ∉ piece) :
    splitOn separator (pieces.flatMap (· ++ [separator])) = pieces ++ [[]] := by
  induction pieces with
  | nil => rfl
  | cons piece rest ih =>
      obtain ⟨hpiece, hrest⟩ := List.forall_mem_cons.mp h
      rw [List.flatMap_cons, List.append_assoc, List.singleton_append,
        splitOn_append_cons hpiece, ih hrest, List.cons_append]

-- Pieces that each begin with the separator, after a first one that does not.
theorem splitOn_append_flatMap_cons {separator : UInt8} {first : Bytes} {pieces : List Bytes}
    (hfirst : separator ∉ first) (h : ∀ piece ∈ pieces, separator ∉ piece) :
    splitOn separator (first ++ pieces.flatMap (separator :: ·)) = first :: pieces := by
  induction pieces generalizing first with
  | nil => simpa using splitOn_of_not_mem hfirst
  | cons piece rest ih =>
      obtain ⟨hpiece, hrest⟩ := List.forall_mem_cons.mp h
      rw [List.flatMap_cons, List.cons_append, splitOn_append_cons hfirst, ih hpiece hrest]

-- A line end is found at the same place whatever comes after it. The line before it may end in
-- a carriage return, so the first of these bytes may not be the first carriage return.

theorem eq_nil_of_append_crlf {before after piece rest : Bytes} (h : ¬crlf <:+: before ++ piece)
    (heq : crlf ++ rest = piece ++ (crlf ++ after)) : piece = [] := by
  match piece with
  | [] => rfl
  | [byte] =>
      have hfeed : lineFeed = carriageReturn :=
        List.head_eq_of_cons_eq (List.tail_eq_of_cons_eq heq)
      cases hfeed
  | first :: second :: more =>
      have hreturn : carriageReturn = first := List.head_eq_of_cons_eq heq
      have hfeed : lineFeed = second := List.head_eq_of_cons_eq (List.tail_eq_of_cons_eq heq)
      subst hreturn hfeed
      exact absurd ⟨before, more, by simp [crlf]⟩ h

theorem append_crlf_inj {body other rest after : Bytes} (hbody : ¬crlf <:+: body)
    (hother : ¬crlf <:+: other) (h : body ++ (crlf ++ rest) = other ++ (crlf ++ after)) :
    body = other ∧ rest = after := by
  have hsame : body = other := by
    rcases List.append_eq_append_iff.mp h with ⟨piece, rfl, heq⟩ | ⟨piece, rfl, heq⟩
    · rw [eq_nil_of_append_crlf hother heq, List.append_nil]
    · rw [eq_nil_of_append_crlf hbody heq, List.append_nil]
  subst hsame
  exact ⟨rfl, List.append_cancel_left (List.append_cancel_left h)⟩

end KeyValue.Bytes
