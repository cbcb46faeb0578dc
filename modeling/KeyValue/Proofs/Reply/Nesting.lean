import KeyValue.Proofs.Reply.RoundTrip

namespace KeyValue.Reply

variable {reply : Reply} {items : List Reply} {limit : Nat}

-- A way from a reply down into its items, and the number of arrays that it goes through.
inductive Descent : Reply → Nat → Prop where
  | stop (reply : Reply) : Descent reply 0
  | into {items : List Reply} {item : Reply} {arrays : Nat} (hitem : item ∈ items)
      (h : Descent item arrays) : Descent (.array items) (arrays + 1)

theorem nesting_array_of_ne_nil (h : items ≠ []) :
    (array items).nesting = deepest items + 1 := by
  cases items with
  | nil => exact absurd rfl h
  | cons first rest => rw [nesting]

theorem nesting_le_deepest {item : Reply} (h : item ∈ items) : item.nesting ≤ deepest items := by
  induction items with
  | nil => cases h
  | cons first rest ih =>
      rw [deepest]
      rcases List.mem_cons.mp h with rfl | hrest
      · exact Nat.le_max_left ..
      · exact (ih hrest).trans (Nat.le_max_right ..)

theorem deepest_le_iff : deepest items ≤ limit ↔ ∀ item ∈ items, item.nesting ≤ limit := by
  induction items with
  | nil => simp [deepest]
  | cons first rest ih => simp [deepest, ih]

theorem exists_nesting_eq_deepest (h : items ≠ []) :
    ∃ item ∈ items, item.nesting = deepest items := by
  induction items with
  | nil => exact absurd rfl h
  | cons first rest ih =>
      by_cases hle : deepest rest ≤ first.nesting
      · refine ⟨first, List.mem_cons_self, ?_⟩
        rw [deepest, Nat.max_eq_left hle]
      · have hrest : rest ≠ [] := by
          rintro rfl
          exact hle (Nat.zero_le _)
        obtain ⟨item, hitem, hnesting⟩ := ih hrest
        refine ⟨item, List.mem_cons_of_mem _ hitem, ?_⟩
        rw [deepest, Nat.max_eq_right (Nat.le_of_not_le hle), hnesting]

theorem Descent.le_nesting {arrays : Nat} (h : Descent reply arrays) : arrays ≤ reply.nesting := by
  induction h with
  | stop reply => exact Nat.zero_le _
  | into hitem _ ih =>
      rw [nesting_array_of_ne_nil (List.ne_nil_of_mem hitem)]
      exact Nat.succ_le_succ (ih.trans (nesting_le_deepest hitem))

theorem descent_nesting (reply : Reply) : Descent reply reply.nesting := by
  match reply with
  | .array (first :: rest) =>
      obtain ⟨item, hitem, hnesting⟩ :=
        exists_nesting_eq_deepest (List.cons_ne_nil first rest)
      have hsmaller := List.sizeOf_lt_of_mem hitem
      rw [nesting, ← hnesting]
      exact .into hitem (descent_nesting item)
  | .array [] | .simple _ | .error _ | .integer _ | .bulk _ | .nil | .nilArray =>
      simp only [nesting]
      exact .stop _
termination_by sizeOf reply
decreasing_by
  rw [Reply.array.sizeOf_spec]
  omega

theorem nesting_le_iff : reply.nesting ≤ limit ↔ ∀ arrays, Descent reply arrays → arrays ≤ limit :=
  ⟨fun h _ hdescent => hdescent.le_nesting.trans h, fun h => h _ (descent_nesting reply)⟩

namespace Reader

-- Arrays are opened on the way down until one is too many. What stands before that one is
-- read and closed as in any other reply.

mutual

theorem run_assemble_encode_of_lt (reply : Reply) (opened : List OpenArray) (h : reply.Legible)
    (hroom : opened.length ≤ maxNesting) (hdepth : maxNesting < opened.length + reply.nesting)
    (rest : Bytes) (ending : Ending) :
    ((assemble opened).run ⟨reply.encode ++ rest, ending⟩).1 = .error .nestingTooDeep := by
  match reply with
  | .array (first :: items) =>
      rw [nesting] at hdepth
      rw [run_assemble_of_header (run_frame_encode h rest ending)]
      split
      · rfl
      · exact run_assemble_encodeAll_of_lt first items [] opened h.2 (by omega) (by omega) rest
          ending
  | .array [] | .simple _ | .error _ | .integer _ | .bulk _ | .nil | .nilArray =>
      simp only [nesting] at hdepth
      omega
termination_by sizeOf reply

theorem run_assemble_encodeAll_of_lt (first : Reply) (items before : List Reply)
    (opened : List OpenArray) (h : AllLegible (first :: items)) (hroom : opened.length < maxNesting)
    (hdepth : maxNesting < opened.length + (deepest (first :: items) + 1)) (rest : Bytes)
    (ending : Ending) :
    ((assemble (⟨items.length + 1, before⟩ :: opened)).run
      ⟨encodeAll (first :: items) ++ rest, ending⟩).1 = .error .nestingTooDeep := by
  obtain ⟨hfirst, hitems⟩ := h
  have hlength : (⟨items.length + 1, before⟩ :: opened).length = opened.length + 1 :=
    List.length_cons
  rw [deepest] at hdepth
  rw [encodeAll, List.append_assoc]
  by_cases hdeep : maxNesting < opened.length + 1 + first.nesting
  · exact run_assemble_encode_of_lt first _ hfirst (by omega) (by omega) _ ending
  · rw [run_assemble_encode first _ hfirst (by omega)]
    cases items with
    | nil =>
        rw [deepest] at hdepth
        omega
    | cons second more =>
        rw [List.length_cons, resume_of_missing]
        exact run_assemble_encodeAll_of_lt second more (first :: before) opened hitems hroom
          (by omega) rest ending
termination_by sizeOf (first :: items)

end

end Reader

-- Whatever follows, a legible reply is read as it was written, and not a byte more, unless
-- it has a place with too many arrays around it. Such a reply is always refused for that.
theorem read_encode_append (h : reply.Legible) (rest : Bytes) (ending : Ending) :
    ((∀ arrays, Descent reply arrays → arrays ≤ maxNesting) →
      read.run ⟨reply.encode ++ rest, ending⟩ = (.ok reply, ⟨rest, ending⟩)) ∧
    ((∃ arrays, Descent reply arrays ∧ maxNesting < arrays) →
      (read.run ⟨reply.encode ++ rest, ending⟩).1 = .error .nestingTooDeep) := by
  refine ⟨fun hdescents => run_read_encode h (nesting_le_iff.mpr hdescents) rest ending, ?_⟩
  rintro ⟨arrays, hdescent, hdeep⟩
  have hnesting : maxNesting < reply.nesting := Nat.lt_of_lt_of_le hdeep hdescent.le_nesting
  exact Reader.run_assemble_encode_of_lt reply [] h (Nat.zero_le _) (by simpa using hnesting) rest
    ending

-- Empty and missing values of all kinds, single halves of a line end, and the least integer,
-- at the last level that is allowed.
def edgeReply : Reply := .array [
  .simple "\r",
  .array [.integer Int64.minValue, .nil, .nilArray, .array [], .bulk [], .simple ""],
  .error "\n\r"]

-- A reply that is only too deep at its last place.
def deepReply : Reply := .array [.simple "", .array [.array [], .array [.nil]]]

theorem edgeReply_read :
    (edgeReply.Legible ∧ (∀ arrays, Descent edgeReply arrays → arrays ≤ maxNesting) ∧
      ∀ rest ending, read.run ⟨edgeReply.encode ++ rest, ending⟩ =
        (.ok edgeReply, ⟨rest, ending⟩)) ∧
    (deepReply.Legible ∧ (∃ arrays, Descent deepReply arrays ∧ maxNesting < arrays) ∧
      ∀ rest ending, (read.run ⟨deepReply.encode ++ rest, ending⟩).1 =
        .error .nestingTooDeep) := by
  have hedge : edgeReply.Legible := by
    simp only [edgeReply, Legible, AllLegible, Reader.HasLineEnd]
    decide +kernel
  have hdeep : deepReply.Legible := by
    simp only [deepReply, Legible, AllLegible, Reader.HasLineEnd]
    decide +kernel
  have hshallow : ∀ arrays, Descent edgeReply arrays → arrays ≤ maxNesting :=
    nesting_le_iff.mp (by decide)
  have hdescent : ∃ arrays, Descent deepReply arrays ∧ maxNesting < arrays :=
    ⟨deepReply.nesting, descent_nesting deepReply, by decide⟩
  exact ⟨⟨hedge, hshallow, fun rest ending => (read_encode_append hedge rest ending).1 hshallow⟩,
    hdeep, hdescent, fun rest ending => (read_encode_append hdeep rest ending).2 hdescent⟩

end KeyValue.Reply
