import KeyValue.Proofs.Reply.Nesting
import KeyValue.Proofs.Reply.RecursiveDescent

namespace KeyValue.Reply

mutual

-- The bytes are the reply as it is encoded, except that each number in it, an integer or the
-- length of data or of an array, is spelled as `numeral` allows.
def Written (numeral : Bytes → Int → Prop) : Reply → Bytes → Prop
  | .simple text, bytes => bytes = Wire.line Sigil.simple (Bytes.ofText text)
  | .error text, bytes => bytes = Wire.line Sigil.error (Bytes.ofText text)
  | .integer value, bytes =>
      ∃ spelled, numeral spelled value.toInt ∧ bytes = Wire.line Sigil.integer spelled
  | .bulk data, bytes =>
      ∃ spelled, numeral spelled data.length ∧
        bytes = Wire.line Sigil.bulk spelled ++ (data ++ Bytes.crlf)
  | .nil, bytes => ∃ spelled, numeral spelled (-1) ∧ bytes = Wire.line Sigil.bulk spelled
  | .array items, bytes =>
      ∃ spelled rest, numeral spelled items.length ∧ WrittenAll numeral items rest ∧
        bytes = Wire.line Sigil.array spelled ++ rest
  | .nilArray, bytes => ∃ spelled, numeral spelled (-1) ∧ bytes = Wire.line Sigil.array spelled

def WrittenAll (numeral : Bytes → Int → Prop) : List Reply → Bytes → Prop
  | [], bytes => bytes = []
  | item :: rest, bytes =>
      ∃ first more, Written numeral item first ∧ WrittenAll numeral rest more ∧
        bytes = first ++ more

end

-- Plain decimal numerals make it the encoding itself.

mutual

theorem written_plain_iff (reply : Reply) (bytes : Bytes) :
    Written (fun spelled value => spelled = Decimal.bytes value) reply bytes ↔
      bytes = reply.encode := by
  match reply with
  | .array items =>
      simp only [Written, writtenAll_plain_iff, encode]
      simp
  | .simple _ | .error _ | .integer _ | .bulk _ | .nil | .nilArray =>
      simp [Written, encode, Wire.bulk]

theorem writtenAll_plain_iff (items : List Reply) (bytes : Bytes) :
    WrittenAll (fun spelled value => spelled = Decimal.bytes value) items bytes ↔
      bytes = encodeAll items := by
  match items with
  | [] => simp [WrittenAll, encodeAll]
  | item :: rest => simp [WrittenAll, written_plain_iff item, writtenAll_plain_iff rest, encodeAll]

end

namespace Reader

-- The language of a reader: which bytes it takes for which value, whatever comes after them.
def Recognizes {α : Type} (reader : Reader α) (language : α → Bytes → Prop) : Prop :=
  ∀ stream value after, reader.run stream = (.ok value, after) ↔
    ∃ taken, language value taken ∧ stream = ⟨taken ++ after.bytes, after.ending⟩

theorem recognizes_textLine : Recognizes textLine fun text taken =>
    ¬HasLineEnd (Bytes.ofText text) ∧ (Bytes.ofText text).length < maxLine ∧
      taken = Bytes.ofText text ++ Bytes.crlf := by
  intro stream text after
  constructor
  · intro h
    obtain ⟨body, between, hline, hrest⟩ := run_bind_eq_ok_iff.mp h
    obtain ⟨hbody, hsize, rfl⟩ := run_line_eq_ok_iff.mp hline
    split at hrest
    · rename_i heq
      cases hrest
      cases Bytes.ofText_of_toText? heq
      exact ⟨_, ⟨hbody, hsize, rfl⟩, by rw [List.append_assoc]⟩
    · cases hrest
  · rintro ⟨taken, ⟨hbody, hsize, rfl⟩, rfl⟩
    rw [List.append_assoc]
    exact run_textLine hbody hsize after.bytes after.ending

theorem recognizes_integerLine : Recognizes integerLine fun value taken =>
    ∃ numeral, LineNumeral numeral value.toInt ∧ taken = numeral ++ Bytes.crlf := by
  intro stream value after
  constructor
  · intro h
    obtain ⟨text, between, htext, hrest⟩ := run_bind_eq_ok_iff.mp h
    obtain ⟨taken, ⟨hbody, hsize, rfl⟩, rfl⟩ := (recognizes_textLine _ _ _).mp htext
    split at hrest
    · rename_i heq
      cases hrest
      exact ⟨_, ⟨_, ⟨Decimal.toInt64?_eq_some_iff.mp heq, hsize⟩, rfl⟩, rfl⟩
    · cases hrest
  · rintro ⟨taken, ⟨numeral, hnumeral, rfl⟩, rfl⟩
    rw [List.append_assoc]
    exact run_integerLine hnumeral after.bytes after.ending

theorem recognizes_take (count : Nat) :
    Recognizes (take count) fun data taken => data.length = count ∧ taken = data := by
  intro stream data after
  constructor
  · intro h
    simp only [run, take] at h
    split at h
    · cases h
    · rename_i henough
      cases h
      refine ⟨_, ⟨?_, rfl⟩, ?_⟩
      · have hle := List.length_take_le count stream.bytes
        omega
      · rw [List.take_append_drop]
  · rintro ⟨taken, ⟨rfl, rfl⟩, rfl⟩
    exact run_take taken after.bytes after.ending

theorem recognizes_map {α β : Type} {reader : Reader α} {language : α → Bytes → Prop}
    (h : Recognizes reader language) (wrap : α → β) :
    Recognizes (reader >>= fun value => pure (wrap value)) fun result taken =>
      ∃ value, result = wrap value ∧ language value taken := by
  intro stream result after
  constructor
  · intro hrun
    obtain ⟨value, between, hvalue, hpure⟩ := run_bind_eq_ok_iff.mp hrun
    cases hpure
    obtain ⟨taken, hlanguage, rfl⟩ := (h _ _ _).mp hvalue
    exact ⟨taken, ⟨value, rfl, hlanguage⟩, rfl⟩
  · rintro ⟨taken, ⟨value, rfl, hlanguage⟩, rfl⟩
    rw [run_bind_of_ok ((h _ _ _).mpr ⟨taken, hlanguage, rfl⟩)]
    rfl

theorem recognizes_bulkBody : Recognizes bulkBody fun reply taken =>
    ∃ numeral, (reply = .nil ∧ LineNumeral numeral (-1) ∧ taken = numeral ++ Bytes.crlf) ∨
      ∃ data, reply = .bulk data ∧ data.length ≤ maxBulk ∧ LineNumeral numeral data.length ∧
        taken = numeral ++ (Bytes.crlf ++ (data ++ Bytes.crlf)) := by
  intro stream reply after
  constructor
  · intro h
    obtain ⟨length, between, hlength, hrest⟩ := run_bind_eq_ok_iff.mp h
    obtain ⟨_, ⟨numeral, hnumeral, rfl⟩, rfl⟩ := (recognizes_integerLine _ _ _).mp hlength
    split at hrest
    · rename_i hnil
      cases hrest
      rw [hnil] at hnumeral
      exact ⟨_, ⟨numeral, .inl ⟨rfl, hnumeral, rfl⟩⟩, rfl⟩
    split at hrest
    · cases hrest
    · rename_i hnil hlimit
      obtain ⟨_, middle, hdata, hend⟩ := run_bind_eq_ok_iff.mp hrest
      obtain ⟨_, last, hending, hlast⟩ := run_bind_eq_ok_iff.mp hend
      obtain ⟨data, ⟨hsize, rfl⟩, rfl⟩ := (recognizes_take _ _ _ _).mp hdata
      obtain ⟨ending, ⟨-, rfl⟩, hmiddle⟩ := (recognizes_take _ _ _ _).mp hending
      split at hlast
      · rename_i hcrlf
        cases hlast
        subst hcrlf
        have hvalue : length.toInt = data.length := by omega
        rw [hvalue] at hnumeral hlimit
        refine ⟨_, ⟨numeral, .inr ⟨data, rfl, by omega, hnumeral, rfl⟩⟩, ?_⟩
        rw [hmiddle]
        simp
      · cases hlast
  · rintro ⟨_, ⟨numeral, ⟨rfl, hnumeral, rfl⟩ | ⟨data, rfl, hsize, hnumeral, rfl⟩⟩, rfl⟩
    · rw [List.append_assoc]
      exact run_bulkBody_nil hnumeral after.bytes after.ending
    · simp only [List.append_assoc]
      exact run_bulkBody hnumeral hsize after.bytes after.ending

theorem recognizes_times {item : Reader Reply} {numeral : Bytes → Int → Prop}
    {good : Reply → Prop}
    (h : Recognizes item fun reply taken => good reply ∧ Written numeral reply taken)
    (count : Nat) :
    Recognizes (times item count) fun items taken =>
      items.length = count ∧ (∀ reply ∈ items, good reply) ∧ WrittenAll numeral items taken := by
  induction count with
  | zero =>
      intro stream items after
      constructor
      · intro hrun
        cases hrun
        exact ⟨[], ⟨rfl, by simp, rfl⟩, rfl⟩
      · rintro ⟨taken, ⟨hlength, -, hwritten⟩, rfl⟩
        cases List.length_eq_zero_iff.mp hlength
        cases hwritten
        rfl
  | succ count ih =>
      intro stream items after
      constructor
      · intro hrun
        obtain ⟨first, between, hfirst, hrest⟩ := run_bind_eq_ok_iff.mp hrun
        obtain ⟨rest, last, hitems, hlast⟩ := run_bind_eq_ok_iff.mp hrest
        cases hlast
        obtain ⟨before, ⟨hgood, hbefore⟩, rfl⟩ := (h _ _ _).mp hfirst
        obtain ⟨more, ⟨hlength, hall, hmore⟩, hbetween⟩ := (ih _ _ _).mp hitems
        refine ⟨before ++ more, ⟨?_, ?_, before, more, hbefore, hmore, rfl⟩, ?_⟩
        · rw [List.length_cons, hlength]
        · exact List.forall_mem_cons.mpr ⟨hgood, hall⟩
        · rw [hbetween, List.append_assoc]
      · rintro ⟨taken, ⟨hlength, hall, hwritten⟩, rfl⟩
        rcases items with _ | ⟨first, rest⟩
        · cases hlength
        · obtain ⟨before, more, hbefore, hmore, rfl⟩ := hwritten
          obtain ⟨hgood, hrest⟩ := List.forall_mem_cons.mp hall
          have hfirst : item.run ⟨before ++ more ++ after.bytes, after.ending⟩ =
              (.ok first, ⟨more ++ after.bytes, after.ending⟩) :=
            (h _ _ _).mpr ⟨before, ⟨hgood, hbefore⟩, by rw [List.append_assoc]⟩
          have hitems : (times item count).run ⟨more ++ after.bytes, after.ending⟩ =
              (.ok rest, after) :=
            (ih _ _ _).mpr ⟨more, ⟨Nat.succ.inj hlength, hrest, hmore⟩, rfl⟩
          rw [times, run_bind_of_ok hfirst, run_bind_of_ok hitems]
          rfl

-- The replies that may stand within so many arrays.
def Fits (depth : Nat) (reply : Reply) : Prop := reply.Legible ∧ depth + reply.nesting ≤ maxNesting

-- An array of which there is at least one item fits where its items fit one level down.
theorem fits_array_iff {depth : Nat} {items : List Reply} (hne : items ≠ [])
    (hroom : depth < maxNesting) :
    Fits depth (.array items) ↔
      items.length ≤ Int64.maxValue.toInt ∧ ∀ item ∈ items, Fits (depth + 1) item := by
  simp only [Fits, Legible, allLegible_iff, nesting_array_of_ne_nil hne]
  have hdeepest : depth + (deepest items + 1) ≤ maxNesting ↔
      ∀ item ∈ items, depth + 1 + item.nesting ≤ maxNesting := by
    have hlimit : depth + (deepest items + 1) ≤ maxNesting ↔
        deepest items ≤ maxNesting - (depth + 1) := by omega
    rw [hlimit, deepest_le_iff]
    refine forall₂_congr fun item _ => ?_
    omega
  rw [hdeepest]
  constructor
  · rintro ⟨⟨hlength, hlegible⟩, hnesting⟩
    exact ⟨hlength, fun item hitem => ⟨hlegible item hitem, hnesting item hitem⟩⟩
  · rintro ⟨hlength, hfits⟩
    exact ⟨⟨hlength, fun item hitem => (hfits item hitem).1⟩,
      fun item hitem => (hfits item hitem).2⟩

-- The part of the descent that follows the sigil of an array.
def arrayBody (depth : Nat) (item : Reader Reply) : Reader Reply := do
  let count ← integerLine
  if count.toInt = -1 then return .nilArray
  else if count.toInt = 0 then return .array []
  else if count.toInt < -1 then throw (.invalidLength count)
  else if maxNesting ≤ depth then throw .nestingTooDeep
  else return .array (← times item count.toInt.toNat)

variable {depth : Nat} {item : Reader Reply} {stream after : Stream} {reply : Reply}

theorem written_of_arrayBody (hdepth : depth ≤ maxNesting)
    (hitem : depth < maxNesting → Recognizes item fun reply taken =>
      Fits (depth + 1) reply ∧ Written LineNumeral reply taken)
    (h : (arrayBody depth item).run stream = (.ok reply, after)) :
    ∃ taken, (Fits depth reply ∧ Written LineNumeral reply (Sigil.array :: taken)) ∧
      stream = ⟨taken ++ after.bytes, after.ending⟩ := by
  obtain ⟨count, between, hcount, hrest⟩ := run_bind_eq_ok_iff.mp h
  obtain ⟨_, ⟨numeral, hnumeral, rfl⟩, rfl⟩ := (recognizes_integerLine _ _ _).mp hcount
  split at hrest
  · rename_i hnil
    cases hrest
    rw [hnil] at hnumeral
    exact ⟨_, ⟨⟨trivial, hdepth⟩, numeral, hnumeral, rfl⟩, rfl⟩
  split at hrest
  · rename_i hzero
    cases hrest
    rw [hzero] at hnumeral
    have hfits : Fits depth (.array []) := ⟨⟨by decide, trivial⟩, hdepth⟩
    exact ⟨_, ⟨hfits, numeral, [], hnumeral, rfl, by simp [Wire.line]⟩, rfl⟩
  split at hrest
  · cases hrest
  split at hrest
  · cases hrest
  · rename_i hnil hzero hsign hroom
    have hlt : depth < maxNesting := Nat.not_le.mp hroom
    obtain ⟨items, last, hitems, hlast⟩ := run_bind_eq_ok_iff.mp hrest
    cases hlast
    obtain ⟨more, ⟨hlength, hall, hmore⟩, rfl⟩ := (recognizes_times (hitem hlt) _ _ _ _).mp hitems
    -- The count is positive here, so the number of items gives it back.
    have hvalue : count.toInt = items.length := by omega
    have hne : items ≠ [] := by
      rintro rfl
      rw [List.length_nil] at hvalue
      omega
    have hmax : (items.length : Int) ≤ Int64.maxValue.toInt := hvalue ▸ Int64.toInt_le count
    rw [hvalue] at hnumeral
    have hfits : Fits depth (.array items) := (fits_array_iff hne hlt).mpr ⟨hmax, hall⟩
    refine ⟨numeral ++ Bytes.crlf ++ more, ⟨hfits, numeral, more, hnumeral, hmore, ?_⟩, ?_⟩
    · simp [Wire.line]
    · simp

theorem run_arrayBody_of_written {items : List Reply} {numeral more : Bytes}
    (hitem : depth < maxNesting → Recognizes item fun reply taken =>
      Fits (depth + 1) reply ∧ Written LineNumeral reply taken)
    (hfits : Fits depth (.array items)) (hnumeral : LineNumeral numeral items.length)
    (hmore : WrittenAll LineNumeral items more) (rest : Bytes) (ending : Ending) :
    (arrayBody depth item).run ⟨numeral ++ (Bytes.crlf ++ (more ++ rest)), ending⟩ =
      (.ok (.array items), ⟨rest, ending⟩) := by
  have hvalue : (Int64.ofNat items.length).toInt = items.length := toInt_ofNat hfits.1.1
  have hnil : ¬(items.length : Int) = -1 := by omega
  have hsign : ¬(items.length : Int) < -1 := by omega
  rw [← hvalue] at hnumeral
  rw [arrayBody, run_bind_of_ok (run_integerLine hnumeral _ ending), hvalue, if_neg hnil]
  rcases items with _ | ⟨first, others⟩
  · cases hmore
    rfl
  · have hzero : ¬((first :: others).length : Int) = 0 := by
      rw [List.length_cons]
      omega
    have hlt : depth < maxNesting := by
      have hnesting := hfits.2
      rw [nesting] at hnesting
      omega
    obtain ⟨-, hall⟩ := (fits_array_iff (List.cons_ne_nil first others) hlt).mp hfits
    have hitems : (times item (first :: others).length).run ⟨more ++ rest, ending⟩ =
        (.ok (first :: others), ⟨rest, ending⟩) :=
      (recognizes_times (hitem hlt) _ _ _ _).mpr ⟨more, ⟨rfl, hall, hmore⟩, rfl⟩
    rw [if_neg hzero, if_neg hsign, if_neg (Nat.not_le.mpr hlt), Int.toNat_natCast,
      run_bind_of_ok hitems]
    rfl

-- One case for each sigil.
theorem written_of_replyAt (hdepth : depth ≤ maxNesting)
    (hitem : depth < maxNesting → Recognizes (replyAt (depth + 1)) fun reply taken =>
      Fits (depth + 1) reply ∧ Written LineNumeral reply taken)
    (h : (replyAt depth).run stream = (.ok reply, after)) :
    ∃ taken, (Fits depth reply ∧ Written LineNumeral reply taken) ∧
      stream = ⟨taken ++ after.bytes, after.ending⟩ := by
  rw [replyAt] at h
  obtain ⟨sigil, between, hsigil, hbody⟩ := run_bind_eq_ok_iff.mp h
  rcases stream with ⟨_ | ⟨first, bytes⟩, ending⟩
  · cases hsigil
  cases hsigil
  split at hbody
  · subst sigil
    obtain ⟨_, ⟨text, rfl, hline, hsize, rfl⟩, hstream⟩ :=
      (recognizes_map recognizes_textLine simple _ _ _).mp hbody
    cases hstream
    exact ⟨_, ⟨⟨⟨hline, hsize⟩, hdepth⟩, rfl⟩, rfl⟩
  split at hbody
  · subst sigil
    obtain ⟨_, ⟨text, rfl, hline, hsize, rfl⟩, hstream⟩ :=
      (recognizes_map recognizes_textLine error _ _ _).mp hbody
    cases hstream
    exact ⟨_, ⟨⟨⟨hline, hsize⟩, hdepth⟩, rfl⟩, rfl⟩
  split at hbody
  · subst sigil
    obtain ⟨_, ⟨value, rfl, numeral, hnumeral, rfl⟩, hstream⟩ :=
      (recognizes_map recognizes_integerLine integer _ _ _).mp hbody
    cases hstream
    exact ⟨_, ⟨⟨trivial, hdepth⟩, numeral, hnumeral, rfl⟩, rfl⟩
  split at hbody
  · subst sigil
    obtain ⟨_, ⟨numeral, ⟨rfl, hnumeral, rfl⟩ | ⟨data, rfl, hsize, hnumeral, rfl⟩⟩, hstream⟩ :=
      (recognizes_bulkBody _ _ _).mp hbody
    · cases hstream
      exact ⟨_, ⟨⟨trivial, hdepth⟩, numeral, hnumeral, rfl⟩, rfl⟩
    · cases hstream
      exact ⟨_, ⟨⟨hsize, hdepth⟩, numeral, hnumeral, rfl⟩, by simp [Wire.line]⟩
  split at hbody
  · subst sigil
    obtain ⟨taken, hwritten, hstream⟩ := written_of_arrayBody hdepth hitem hbody
    cases hstream
    exact ⟨_, hwritten, rfl⟩
  · cases hbody

-- One case for each kind of reply. A line is a sigil and what the reader of the kind takes.
theorem run_replyAt_of_written {taken : Bytes}
    (hitem : depth < maxNesting → Recognizes (replyAt (depth + 1)) fun reply taken =>
      Fits (depth + 1) reply ∧ Written LineNumeral reply taken)
    (hfits : Fits depth reply) (hwritten : Written LineNumeral reply taken) (rest : Bytes)
    (ending : Ending) :
    (replyAt depth).run ⟨taken ++ rest, ending⟩ = (.ok reply, ⟨rest, ending⟩) := by
  rw [replyAt]
  cases reply with
  | simple text =>
      cases hwritten
      rw [line_append]
      exact run_bind_of_ok (run_textLine hfits.1.1 hfits.1.2 rest ending)
  | error text =>
      cases hwritten
      rw [line_append]
      exact run_bind_of_ok (run_textLine hfits.1.1 hfits.1.2 rest ending)
  | integer value =>
      obtain ⟨numeral, hnumeral, rfl⟩ := hwritten
      rw [line_append]
      exact run_bind_of_ok (run_integerLine hnumeral rest ending)
  | bulk data =>
      obtain ⟨numeral, hnumeral, rfl⟩ := hwritten
      rw [List.append_assoc, line_append, List.append_assoc]
      exact run_bulkBody hnumeral hfits.1 rest ending
  | nil =>
      obtain ⟨numeral, hnumeral, rfl⟩ := hwritten
      rw [line_append]
      exact run_bulkBody_nil hnumeral rest ending
  | array items =>
      obtain ⟨numeral, more, hnumeral, hmore, rfl⟩ := hwritten
      rw [List.append_assoc, line_append]
      exact run_arrayBody_of_written hitem hfits hnumeral hmore rest ending
  | nilArray =>
      obtain ⟨numeral, hnumeral, rfl⟩ := hwritten
      have hminus : LineNumeral numeral (-1 : Int64).toInt := hnumeral
      rw [line_append]
      exact run_bind_of_ok (run_integerLine hminus rest ending)

theorem recognizes_replyAt (depth : Nat) (hdepth : depth ≤ maxNesting) :
    Recognizes (replyAt depth) fun reply taken =>
      Fits depth reply ∧ Written LineNumeral reply taken := by
  have hitem : depth < maxNesting → Recognizes (replyAt (depth + 1)) fun reply taken =>
      Fits (depth + 1) reply ∧ Written LineNumeral reply taken :=
    fun hlt => recognizes_replyAt (depth + 1) hlt
  intro stream reply after
  constructor
  · exact written_of_replyAt hdepth hitem
  · rintro ⟨taken, ⟨hfits, hwritten⟩, rfl⟩
    exact run_replyAt_of_written hitem hfits hwritten after.bytes after.ending
termination_by maxNesting - depth

end Reader

-- The reader accepts the spellings of the legible replies that are not nested too deep, and
-- nothing else. A spelling with plain decimal numerals is the encoding.
theorem accepted_iff_spelled (stream after : Stream) (reply : Reply) :
    (read.run stream = (.ok reply, after) ↔
      ∃ taken, stream = ⟨taken ++ after.bytes, after.ending⟩ ∧
        Written Reader.LineNumeral reply taken ∧ reply.Legible ∧ reply.nesting ≤ maxNesting) ∧
    ∀ bytes, Written (fun spelled value => spelled = Decimal.bytes value) reply bytes ↔
      bytes = reply.encode := by
  refine ⟨?_, written_plain_iff reply⟩
  have hread := Reader.recognizes_replyAt 0 (Nat.zero_le _) stream reply after
  rw [read_eq_replyAt, hread]
  constructor
  · rintro ⟨taken, ⟨⟨hlegible, hnesting⟩, hwritten⟩, hstream⟩
    exact ⟨taken, hstream, hwritten, hlegible, by simpa using hnesting⟩
  · rintro ⟨taken, hstream, hwritten, hlegible, hnesting⟩
    exact ⟨taken, ⟨⟨hlegible, by simpa using hnesting⟩, hwritten⟩, hstream⟩

end KeyValue.Reply
