import KeyValue.Proofs.Reply.Line

namespace KeyValue.Reply

mutual

-- A reply that fits through the reader: no line ends within a text, and no text, data or
-- count is beyond the limit for its kind.
def Legible : Reply → Prop
  | .simple text | .error text =>
      ¬Reader.HasLineEnd (Bytes.ofText text) ∧ (Bytes.ofText text).length < maxLine
  | .bulk data => data.length ≤ maxBulk
  | .array items => items.length ≤ Int64.maxValue.toInt ∧ AllLegible items
  | .integer _ | .nil | .nilArray => True

def AllLegible : List Reply → Prop
  | [] => True
  | item :: rest => item.Legible ∧ AllLegible rest

end

mutual

-- The number of arrays with items that lie around each other at the deepest place.
def nesting : Reply → Nat
  | .array [] => 0
  | .array (first :: rest) => deepest (first :: rest) + 1
  | _ => 0

def deepest : List Reply → Nat
  | [] => 0
  | item :: rest => max item.nesting (deepest rest)

end

theorem allLegible_iff {items : List Reply} : AllLegible items ↔ ∀ item ∈ items, item.Legible := by
  induction items with
  | nil => simp [AllLegible]
  | cons item rest ih => simp [AllLegible, ih]

namespace Reader

theorem line_append (sigil : UInt8) (body rest : Bytes) :
    Wire.line sigil body ++ rest = sigil :: (body ++ (Bytes.crlf ++ rest)) := by
  simp [Wire.line]

theorem run_frame (sigil : UInt8) (bytes : Bytes) (ending : Ending) :
    frame.run ⟨sigil :: bytes, ending⟩ = (frameBody sigil).run ⟨bytes, ending⟩ :=
  run_bind_of_ok rfl

theorem run_take (data rest : Bytes) (ending : Ending) :
    (take data.length).run ⟨data ++ rest, ending⟩ = (.ok data, ⟨rest, ending⟩) := by
  simp [run, take]

theorem run_bulkBody {numeral data : Bytes} (hnumeral : LineNumeral numeral data.length)
    (h : data.length ≤ maxBulk) (rest : Bytes) (ending : Ending) :
    bulkBody.run ⟨numeral ++ (Bytes.crlf ++ (data ++ (Bytes.crlf ++ rest))), ending⟩ =
      (.ok (.bulk data), ⟨rest, ending⟩) := by
  have hlength : (Int64.ofNat data.length).toInt = data.length :=
    toInt_ofNat (Int.le_trans (Int.ofNat_le.mpr h) (by decide))
  have hnil : ¬(data.length : Int) = -1 := by omega
  have hlimit : ¬((data.length : Int) < 0 ∨ (maxBulk : Int) < data.length) := by omega
  rw [← hlength] at hnumeral
  rw [bulkBody, run_bind_of_ok (run_integerLine hnumeral _ ending), hlength, if_neg hnil,
    if_neg hlimit, Int.toNat_natCast, run_bind_of_ok (run_take data _ ending),
    run_bind_of_ok (run_take Bytes.crlf rest ending), if_pos rfl]
  rfl

theorem run_bulkBody_nil {numeral : Bytes} (hnumeral : LineNumeral numeral (-1)) (rest : Bytes)
    (ending : Ending) :
    bulkBody.run ⟨numeral ++ (Bytes.crlf ++ rest), ending⟩ = (.ok .nil, ⟨rest, ending⟩) := by
  have hminus : LineNumeral numeral (-1 : Int64).toInt := hnumeral
  rw [bulkBody, run_bind_of_ok (run_integerLine hminus rest ending)]
  rfl

theorem run_arrayHeader {numeral : Bytes} {count : Nat} (hnumeral : LineNumeral numeral count)
    (h : count ≤ Int64.maxValue.toInt) (rest : Bytes) (ending : Ending) :
    arrayHeader.run ⟨numeral ++ (Bytes.crlf ++ rest), ending⟩ =
      (.ok (if count = 0 then .complete (.array []) else .header count), ⟨rest, ending⟩) := by
  have hcount : (Int64.ofNat count).toInt = count := toInt_ofNat h
  have hnil : ¬(count : Int) = -1 := by omega
  have hsign : ¬(count : Int) < 0 := by omega
  rw [← hcount] at hnumeral
  rw [arrayHeader, run_bind_of_ok (run_integerLine hnumeral rest ending), hcount,
    if_neg hnil, if_neg hsign, Int.toNat_natCast]
  by_cases hzero : count = 0
  · simp only [hzero, Int.natCast_eq_zero, if_true]
    rfl
  · simp only [hzero, Int.natCast_eq_zero, if_false]
    rfl

theorem run_arrayHeader_nil {numeral : Bytes} (hnumeral : LineNumeral numeral (-1))
    (rest : Bytes) (ending : Ending) :
    arrayHeader.run ⟨numeral ++ (Bytes.crlf ++ rest), ending⟩ =
      (.ok (.complete .nilArray), ⟨rest, ending⟩) := by
  have hminus : LineNumeral numeral (-1 : Int64).toInt := hnumeral
  rw [arrayHeader, run_bind_of_ok (run_integerLine hminus rest ending)]
  rfl

theorem run_frame_of_ok {α : Type} {sigil : UInt8} {reader : Reader α} (wrap : α → Frame)
    (hbody : frameBody sigil = reader >>= fun value => pure (wrap value)) {bytes rest : Bytes}
    {ending : Ending} {value : α} (h : reader.run ⟨bytes, ending⟩ = (.ok value, ⟨rest, ending⟩)) :
    frame.run ⟨sigil :: bytes, ending⟩ = (.ok (wrap value), ⟨rest, ending⟩) := by
  rw [run_frame, hbody, run_bind_of_ok h]
  rfl

-- Only an array with items takes more than one frame.
theorem run_frame_encode {reply : Reply} (h : reply.Legible) (rest : Bytes) (ending : Ending) :
    frame.run ⟨reply.encode ++ rest, ending⟩ =
      match reply with
      | .array (first :: items) =>
          (.ok (.header (items.length + 1)), ⟨encodeAll (first :: items) ++ rest, ending⟩)
      | _ => (.ok (.complete reply), ⟨rest, ending⟩) := by
  cases reply with
  | simple text =>
      rw [encode, line_append]
      exact run_frame_of_ok (.complete <| .simple ·) rfl (run_textLine h.1 h.2 rest ending)
  | error text =>
      rw [encode, line_append]
      exact run_frame_of_ok (.complete <| .error ·) rfl (run_textLine h.1 h.2 rest ending)
  | integer value =>
      rw [encode, line_append]
      have hvalue := run_integerLine (lineNumeral_bytes value) rest ending
      exact run_frame_of_ok (.complete <| .integer ·) rfl hvalue
  | bulk data =>
      rw [encode, Wire.bulk, List.append_assoc, line_append, List.append_assoc]
      have hlength : data.length ≤ Int64.maxValue.toInt :=
        Int.le_trans (Int.ofNat_le.mpr h) (by decide)
      have hdata := run_bulkBody (lineNumeral_bytes_natCast hlength) h rest ending
      exact run_frame_of_ok .complete rfl hdata
  | nil =>
      rw [encode, line_append]
      exact run_frame_of_ok .complete rfl (run_bulkBody_nil (lineNumeral_bytes (-1)) rest ending)
  | nilArray =>
      rw [encode, line_append, run_frame]
      exact run_arrayHeader_nil (lineNumeral_bytes (-1)) rest ending
  | array items =>
      rw [encode, List.append_assoc, line_append, run_frame]
      show arrayHeader.run _ = _
      rw [run_arrayHeader (lineNumeral_bytes_natCast h.1) h.1]
      cases items with
      | nil => rfl
      | cons first items => rfl

-- What the reader goes on with when a value is complete.
def resume (value : Reply) (opened : List OpenArray) : Reader Reply :=
  match close value opened with
  | .inl reply => pure reply
  | .inr stillOpen => assemble stillOpen

-- An array that misses more than the value stays open.
theorem resume_of_missing (value : Reply) (missing : Nat) (before : List Reply)
    (opened : List OpenArray) :
    resume value (⟨missing + 2, before⟩ :: opened) =
      assemble (⟨missing + 1, value :: before⟩ :: opened) := by
  have hmore : ¬missing + 2 ≤ 1 := by omega
  rw [resume, close, if_neg hmore]
  rfl

variable {opened : List OpenArray} {stream after : Stream}

theorem run_assemble_of_complete {value : Reply}
    (h : frame.run stream = (.ok (.complete value), after)) :
    (assemble opened).run stream = (resume value opened).run after := by
  rw [run, assemble]
  split
  all_goals
    rename_i hframe
    rw [h] at hframe
    cases hframe
  unfold resume
  cases close value opened <;> rfl

theorem run_assemble_of_header {count : Nat}
    (h : frame.run stream = (.ok (.header count), after)) :
    (assemble opened).run stream =
      if maxNesting ≤ opened.length then (.error .nestingTooDeep, after)
      else (assemble (⟨count, []⟩ :: opened)).run after := by
  rw [run, assemble]
  split
  all_goals
    rename_i hframe
    rw [h] at hframe
    cases hframe
  rfl

theorem run_assemble_of_failure {cause : ReadError} (h : frame.run stream = (.error cause, after)) :
    (assemble opened).run stream = (.error cause, after) := by
  rw [run, assemble]
  split
  all_goals
    rename_i hframe
    rw [h] at hframe
    cases hframe
  rfl

theorem run_assemble_of_error {cause : ReadError} (h : (frame.run stream).1 = .error cause) :
    ((assemble opened).run stream).1 = .error cause := by
  rcases hframe : frame.run stream with ⟨outcome, rest⟩
  rw [hframe] at h
  cases h
  rw [run_assemble_of_failure hframe]

mutual

-- An array below the nesting limit is read item by item and closed with its last one, and
-- whatever it is an item of goes on from there.
theorem run_assemble_encode (reply : Reply) (opened : List OpenArray) (h : reply.Legible)
    (hdepth : opened.length + reply.nesting ≤ maxNesting) (rest : Bytes) (ending : Ending) :
    (assemble opened).run ⟨reply.encode ++ rest, ending⟩ =
      (resume reply opened).run ⟨rest, ending⟩ := by
  have hframe := run_frame_encode h rest ending
  match reply with
  | .array (first :: items) =>
      rw [nesting] at hdepth
      have hroom : ¬maxNesting ≤ opened.length := by omega
      rw [run_assemble_of_header hframe, if_neg hroom]
      exact run_assemble_encodeAll first items [] opened h.2 (by omega) rest ending
  | .array [] | .simple _ | .error _ | .integer _ | .bulk _ | .nil | .nilArray =>
      exact run_assemble_of_complete hframe
termination_by sizeOf reply

theorem run_assemble_encodeAll (first : Reply) (items before : List Reply)
    (opened : List OpenArray) (h : AllLegible (first :: items))
    (hdepth : opened.length + (deepest (first :: items) + 1) ≤ maxNesting) (rest : Bytes)
    (ending : Ending) :
    (assemble (⟨items.length + 1, before⟩ :: opened)).run
        ⟨encodeAll (first :: items) ++ rest, ending⟩ =
      (resume (.array (before.reverse ++ first :: items)) opened).run ⟨rest, ending⟩ := by
  obtain ⟨hfirst, hitems⟩ := h
  rw [deepest] at hdepth
  have hwithin : (⟨items.length + 1, before⟩ :: opened).length + first.nesting ≤ maxNesting := by
    rw [List.length_cons]
    omega
  rw [encodeAll, List.append_assoc, run_assemble_encode first _ hfirst hwithin]
  cases hcase : items with
  | nil => simp [resume, close, encodeAll]
  | cons second more =>
      subst hcase
      have hrest := run_assemble_encodeAll second more (first :: before) opened hitems
        (by omega) rest ending
      rw [List.reverse_cons, List.append_assoc, List.singleton_append] at hrest
      rw [List.length_cons, resume_of_missing]
      exact hrest
termination_by sizeOf (first :: items)

end

end Reader

-- Whatever follows, a reply is read as it was written, and not a byte more.
theorem run_read_encode {reply : Reply} (h : reply.Legible) (hdepth : reply.nesting ≤ maxNesting)
    (rest : Bytes) (ending : Ending) :
    read.run ⟨reply.encode ++ rest, ending⟩ = (.ok reply, ⟨rest, ending⟩) := by
  rw [read, Reader.run_assemble_encode reply [] h (by simpa using hdepth)]
  rfl

end KeyValue.Reply
