import KeyValue.Proofs.Reply.Process
import KeyValue.Proofs.Reply.Spelling

namespace KeyValue.Reply

-- A way into a reply through so many arrays, each an item of the one before. The last of them
-- has these items, or none.
inductive Nested : Reply → Nat → List Reply → Prop where
  | here (items : List Reply) : Nested (.array items) 1 items
  | inside {items innermost : List Reply} {item : Reply} {arrays : Nat} (hitem : item ∈ items)
      (h : Nested item arrays innermost) : Nested (.array items) (arrays + 1) innermost

-- Only an array that is empty can lie deeper than the nesting of the reply.
theorem Nested.le_nesting {reply : Reply} {arrays : Nat} {innermost : List Reply}
    (h : Nested reply arrays innermost) :
    (innermost ≠ [] → arrays ≤ reply.nesting) ∧ arrays ≤ reply.nesting + 1 := by
  induction h with
  | here items =>
      refine ⟨fun hne => ?_, Nat.le_add_left _ _⟩
      rw [nesting_array_of_ne_nil hne]
      exact Nat.le_add_left _ _
  | @inside items innermost item arrays hitem _ ih =>
      have hdeepest : item.nesting ≤ deepest items := nesting_le_deepest hitem
      rw [nesting_array_of_ne_nil (List.ne_nil_of_mem hitem)]
      refine ⟨fun hne => ?_, ?_⟩
      · have hle := ih.1 hne
        omega
      · have hle := ih.2
        omega

namespace Reader

variable {α : Type} {stream after : Stream} {count depth : Nat}

theorem readError_ne_nestingTooDeep (ending : Ending) : ending.readError ≠ .nestingTooDeep := by
  intro h
  rcases ending.readError_eq with heq | ⟨cause, heq⟩
  all_goals
    rw [heq] at h
    cases h

theorem lineFrom_ne_nestingTooDeep (ending : Ending) (kept : Bytes) (size : Nat) (bytes : Bytes) :
    (lineFrom ending kept size bytes).1 ≠ .error .nestingTooDeep := by
  induction bytes generalizing kept size with
  | nil => exact fun h => readError_ne_nestingTooDeep ending (Except.error.inj h)
  | cons byte rest ih =>
      rw [lineFrom]
      split
      · rintro ⟨⟩
      split
      · rintro ⟨⟩
      · exact ih _ _

-- Only the nesting of arrays is an error of this kind.
theorem Built.run_ne_nestingTooDeep {reader : Reader α} (h : Built (· ≠ .nestingTooDeep) reader)
    (stream after : Stream) : reader.run stream ≠ (.error .nestingTooDeep, after) := by
  induction h generalizing stream after with
  | pure value => rintro ⟨⟩
  | throw h =>
      intro hrun
      cases hrun
      exact h rfl
  | bind _ _ hreader hnext =>
      intro hrun
      rcases run_bind_eq_error_iff.mp hrun with hfirst | ⟨value, between, -, hrest⟩
      · exact hreader _ _ hfirst
      · exact hnext value _ _ hrest
  | byte =>
      intro hrun
      rcases stream with ⟨_ | ⟨first, rest⟩, ending⟩
      · exact readError_ne_nestingTooDeep ending (Except.error.inj (Prod.mk.inj hrun).1)
      · cases hrun
  | take count =>
      intro hrun
      simp only [run, Reader.take] at hrun
      split at hrun
      · exact readError_ne_nestingTooDeep _ (Except.error.inj (Prod.mk.inj hrun).1)
      · cases hrun
  | line => exact fun hrun => lineFrom_ne_nestingTooDeep _ _ _ _ (Prod.mk.inj hrun).1

theorem run_frame_header {numeral : Bytes} (hnumeral : LineNumeral numeral count)
    (hcount : count ≤ Int64.maxValue.toInt) (rest : Bytes) (ending : Ending) :
    frame.run ⟨Wire.line Sigil.array numeral ++ rest, ending⟩ =
      (.ok (if count = 0 then .complete (.array []) else .header count), ⟨rest, ending⟩) := by
  rw [line_append, run_frame]
  exact run_arrayHeader hnumeral hcount rest ending

theorem run_frame_eq_header_iff : frame.run stream = (.ok (.header count), after) ↔
    0 < count ∧ count ≤ Int64.maxValue.toInt ∧ ∃ numeral, LineNumeral numeral count ∧
      stream = ⟨Wire.line Sigil.array numeral ++ after.bytes, after.ending⟩ := by
  constructor
  · intro h
    obtain ⟨bytes, value, hstream, hvalue, hpos, rfl⟩ := exists_count_of_header h
    obtain ⟨_, ⟨numeral, hnumeral, rfl⟩, hrest⟩ := (recognizes_integerLine _ _ _).mp hvalue
    obtain ⟨rfl, hending⟩ := Stream.mk.inj hrest
    have hcount : ((value.toInt.toNat : Nat) : Int) = value.toInt := by omega
    have hle : value.toInt ≤ Int64.maxValue.toInt := Int64.toInt_le value
    refine ⟨by omega, by omega, numeral, hcount ▸ hnumeral, ?_⟩
    rw [hstream, hending, line_append, List.append_assoc]
  · rintro ⟨hpos, hcount, numeral, hnumeral, rfl⟩
    have hzero : ¬count = 0 := by omega
    rw [run_frame_header hnumeral hcount, if_neg hzero]

-- What comes before an element that lies within so many arrays: the headers of these arrays,
-- each followed by the items that the element or the next of the arrays comes after.
inductive LeadsTo : Nat → Bytes → Prop where
  | outside : LeadsTo 0 []
  | inside {depth count : Nat} {before numeral body : Bytes} {items : List Reply}
      (h : LeadsTo depth before) (hnumeral : LineNumeral numeral count)
      (hcount : count ≤ Int64.maxValue.toInt) (hmore : items.length < count)
      (hitems : ∀ item ∈ items, Fits (depth + 1) item)
      (hbody : WrittenAll LineNumeral items body) :
      LeadsTo (depth + 1) (before ++ (Wire.line Sigil.array numeral ++ body))

variable {numeral before body : Bytes} {opened : List OpenArray}

-- Items are added to the innermost array as long as it misses one more.
theorem run_assemble_items {items : List Reply}
    (hitems : ∀ item ∈ items, Fits (opened.length + 1) item)
    (hbody : WrittenAll LineNumeral items body) (missing : Nat) (held : List Reply)
    (rest : Bytes) (ending : Ending) (hdepth : opened.length < maxNesting) :
    (assemble (⟨items.length + (missing + 1), held⟩ :: opened)).run ⟨body ++ rest, ending⟩ =
      (assemble (⟨missing + 1, items.reverse ++ held⟩ :: opened)).run ⟨rest, ending⟩ := by
  induction items generalizing body held with
  | nil =>
      cases hbody
      simp
  | cons item items ih =>
      obtain ⟨first, more, hfirst, hmore, rfl⟩ := hbody
      obtain ⟨hfits, hall⟩ := List.forall_mem_cons.mp hitems
      have hitem : (replyAt (opened.length + 1)).run ⟨first ++ (more ++ rest), ending⟩ =
          (.ok item, ⟨more ++ rest, ending⟩) :=
        (recognizes_replyAt _ hdepth _ _ _).mpr ⟨first, ⟨hfits, hfirst⟩, rfl⟩
      have hmissing : (item :: items).length + (missing + 1) = items.length + missing + 2 := by
        rw [List.length_cons]
        omega
      rw [List.append_assoc, hmissing, run_assemble, List.length_cons, run_bind_of_ok hitem,
        resume_of_missing, Nat.add_assoc, ih hall hmore]
      simp

theorem LeadsTo.run_read (h : LeadsTo depth before) (hdepth : depth ≤ maxNesting) :
    ∃ opened : List OpenArray, opened.length = depth ∧ ∀ rest ending,
      read.run ⟨before ++ rest, ending⟩ = (assemble opened).run ⟨rest, ending⟩ := by
  induction h with
  | outside => exact ⟨[], rfl, fun rest ending => rfl⟩
  | @inside depth count before numeral body items _ hnumeral hcount hmore hitems hbody ih =>
      obtain ⟨opened, rfl, hread⟩ := ih (Nat.le_of_succ_le hdepth)
      obtain ⟨missing, rfl⟩ := Nat.exists_eq_add_of_lt hmore
      refine ⟨⟨missing + 1, items.reverse⟩ :: opened, rfl, fun rest ending => ?_⟩
      have hroom : ¬maxNesting ≤ opened.length := by omega
      have hheader := run_frame_header hnumeral hcount (body ++ rest) ending
      rw [if_neg (by omega)] at hheader
      have hbefore : before ++ (Wire.line Sigil.array numeral ++ body) ++ rest =
          before ++ (Wire.line Sigil.array numeral ++ (body ++ rest)) := by simp
      rw [hbefore, hread, run_assemble_of_header hheader, if_neg hroom, Nat.add_assoc,
        run_assemble_items hitems hbody missing [] rest ending (Nat.not_le.mp hroom),
        List.append_nil]

theorem LeadsTo.run_read_header (h : LeadsTo maxNesting before)
    (hnumeral : LineNumeral numeral count) (hcount : count ≤ Int64.maxValue.toInt)
    (hpos : 0 < count) (rest : Bytes) (ending : Ending) :
    read.run ⟨before ++ (Wire.line Sigil.array numeral ++ rest), ending⟩ =
      (.error .nestingTooDeep, ⟨rest, ending⟩) := by
  obtain ⟨opened, hlength, hread⟩ := h.run_read (Nat.le_refl _)
  have hheader := run_frame_header hnumeral hcount rest ending
  rw [if_neg (by omega)] at hheader
  rw [hread, run_assemble_of_header hheader, if_pos (Nat.le_of_eq hlength.symm)]

-- The header of an empty array is a value and ends or stays within the arrays around it.
theorem LeadsTo.run_read_empty (h : LeadsTo maxNesting before) (hnumeral : LineNumeral numeral 0)
    (ending : Ending) :
    (read.run ⟨before ++ Wire.line Sigil.array numeral, ending⟩).1 ≠ .error .nestingTooDeep := by
  obtain ⟨opened, -, hread⟩ := h.run_read (Nat.le_refl _)
  have hheader : frame.run ⟨Wire.line Sigil.array numeral ++ [], ending⟩ =
      (.ok (.complete (.array [])), ⟨[], ending⟩) :=
    run_frame_header (Int.natCast_zero ▸ hnumeral) (by decide) [] ending
  rw [List.append_nil] at hheader
  rw [hread, run_assemble_of_complete hheader, resume]
  cases close (.array []) opened with
  | inl reply => rintro ⟨⟩
  | inr stillOpen =>
      -- Nothing follows, so only the end of the stream can be the error.
      have hend : (frame.run ⟨[], ending⟩).1 = .error ending.readError := rfl
      rw [run_assemble_of_error hend]
      exact fun heq => readError_ne_nestingTooDeep ending (Except.error.inj heq)

theorem exists_items_of_run_times {item : Reader α} {cause : ReadError}
    (h : (times item count).run stream = (.error cause, after)) :
    ∃ items between, items.length < count ∧
      (times item items.length).run stream = (.ok items, between) ∧
      item.run between = (.error cause, after) := by
  induction count generalizing stream with
  | zero => cases h
  | succ count ih =>
      rcases run_bind_eq_error_iff.mp h with hfirst | ⟨first, middle, hfirst, hrest⟩
      · exact ⟨[], stream, Nat.zero_lt_succ _, rfl, hfirst⟩
      rcases run_bind_eq_error_iff.mp hrest with hitems | ⟨_, _, _, hpure⟩
      · obtain ⟨items, between, hfewer, hread, hitem⟩ := ih hitems
        refine ⟨first :: items, between, Nat.succ_lt_succ hfewer, ?_, hitem⟩
        rw [List.length_cons, times, run_bind_of_ok hfirst, run_bind_of_ok hread]
        rfl
      · cases hpure

-- Where the descent is refused, it has come to a header that is one array too deep.
theorem LeadsTo.exists_header {depth : Nat} {before : Bytes} {stream after : Stream}
    (hbefore : LeadsTo depth before) (hdepth : depth ≤ maxNesting)
    (h : (replyAt depth).run stream = (.error .nestingTooDeep, after)) :
    ∃ more numeral count, LeadsTo maxNesting (before ++ more) ∧
      LineNumeral numeral (count : Nat) ∧ 0 < count ∧ count ≤ Int64.maxValue.toInt ∧
      stream = ⟨more ++ (Wire.line Sigil.array numeral ++ after.bytes), after.ending⟩ := by
  rw [replyAt_eq] at h
  rcases run_bind_eq_error_iff.mp h with hframe | ⟨reply | count, between, hframe, hrest⟩
  · exact absurd hframe (built_frame.run_ne_nestingTooDeep _ _)
  · cases hrest
  obtain ⟨hpos, hcount, numeral, hnumeral, rfl⟩ := run_frame_eq_header_iff.mp hframe
  rw [completed] at hrest
  split at hrest
  · rename_i hfull
    cases hrest
    obtain rfl : depth = maxNesting := Nat.le_antisymm hdepth hfull
    exact ⟨[], numeral, count, by rwa [List.append_nil], hnumeral, hpos, hcount, rfl⟩
  rename_i hroom
  have hinner : depth + 1 ≤ maxNesting := Nat.not_le.mp hroom
  rcases run_bind_eq_error_iff.mp hrest with htimes | ⟨_, _, _, hpure⟩
  · obtain ⟨items, middle, hfewer, hread, hitem⟩ := exists_items_of_run_times htimes
    obtain ⟨body, ⟨-, hitems, hbody⟩, rfl⟩ :=
      (recognizes_times (recognizes_replyAt (depth + 1) hinner) _ _ _ _).mp hread
    -- The items before the one that is refused are a part of the way to it.
    have hinside : LeadsTo (depth + 1) (before ++ (Wire.line Sigil.array numeral ++ body)) :=
      .inside hbefore hnumeral hcount hfewer hitems hbody
    obtain ⟨more, last, size, hleads, hlast, hsize, hmax, rfl⟩ :=
      hinside.exists_header hinner hitem
    refine ⟨Wire.line Sigil.array numeral ++ (body ++ more), last, size, ?_, hlast, hsize, hmax, ?_⟩
    · simpa using hleads
    · simp
  · cases hpure
termination_by maxNesting - depth

end Reader

-- A reply lies within the nesting limit, except that an empty array may lie one level deeper.
-- The reader refuses exactly the headers of arrays with items that lie within as many arrays
-- as the limit allows, once they are read, and none of an empty array.
theorem nesting_capped (stream after : Stream) :
    (∀ reply, read.run stream = (.ok reply, after) →
      ∀ arrays innermost, Nested reply arrays innermost →
        arrays ≤ maxNesting ∨ (arrays = maxNesting + 1 ∧ innermost = [])) ∧
    (read.run stream = (.error .nestingTooDeep, after) ↔
      ∃ before numeral count, Reader.LeadsTo maxNesting before ∧
        Reader.LineNumeral numeral (count : Nat) ∧ 0 < count ∧
        count ≤ Int64.maxValue.toInt ∧
        stream = ⟨before ++ (Wire.line Sigil.array numeral ++ after.bytes), after.ending⟩) ∧
    ∀ before numeral, Reader.LeadsTo maxNesting before → Reader.LineNumeral numeral 0 →
      stream.bytes = before ++ Wire.line Sigil.array numeral →
      (read.run stream).1 ≠ .error .nestingTooDeep := by
  refine ⟨fun reply hread arrays innermost hnested => ?_, ⟨fun hread => ?_, ?_⟩, ?_⟩
  · rw [read_eq_replyAt] at hread
    obtain ⟨_, ⟨⟨-, hnesting⟩, -⟩, -⟩ :=
      (Reader.recognizes_replyAt 0 (Nat.zero_le _) _ _ _).mp hread
    obtain ⟨hfull, hle⟩ := hnested.le_nesting
    by_cases hempty : innermost = []
    · rw [and_iff_left hempty]
      omega
    · have hless := hfull hempty
      omega
  · rw [read_eq_replyAt] at hread
    exact Reader.LeadsTo.outside.exists_header (Nat.zero_le _) hread
  · rintro ⟨before, numeral, count, hbefore, hnumeral, hpos, hcount, rfl⟩
    exact hbefore.run_read_header hnumeral hcount hpos after.bytes after.ending
  · intro before numeral hbefore hnumeral hbytes
    obtain ⟨_, ending⟩ := stream
    obtain rfl : _ = before ++ Wire.line Sigil.array numeral := hbytes
    exact hbefore.run_read_empty hnumeral ending

-- Three arrays around each other, the innermost of them empty.
def hollowReply : Reply := .array [.array [.array []]]

theorem hollowReply_read :
    Reader.LeadsTo maxNesting (Bytes.ofText "*1\r\n*1\r\n") ∧
    Reader.LineNumeral (Bytes.ofText "0") 0 ∧
    read.run ⟨Bytes.ofText "*1\r\n*1\r\n*0\r\n", .closed⟩ = (.ok hollowReply, ⟨[], .closed⟩) ∧
    Nested hollowReply 3 [] ∧ maxNesting < 3 := by
  have hone : Reader.LineNumeral (Bytes.ofText "1") (1 : Nat) :=
    ⟨by decide +kernel, by decide +kernel⟩
  have hzero : Reader.LineNumeral (Bytes.ofText "0") 0 :=
    ⟨by decide +kernel, by decide +kernel⟩
  have hitems : ∀ depth, ∀ item ∈ ([] : List Reply), Reader.Fits depth item := by
    rintro depth item ⟨⟩
  have hbody : WrittenAll Reader.LineNumeral [] [] := rfl
  have houter := Reader.LeadsTo.outside.inside hone (by decide) (by decide) (hitems 1) hbody
  have hinner := houter.inside hone (by decide) (by decide) (hitems 2) hbody
  have hlegible : hollowReply.Legible := by
    simp only [hollowReply, Legible, AllLegible]
    decide +kernel
  have hread := run_read_encode hlegible (by decide) [] .closed
  have hbytes : hollowReply.encode ++ [] = Bytes.ofText "*1\r\n*1\r\n*0\r\n" := by decide +kernel
  have hbefore : [] ++ (Wire.line Sigil.array (Bytes.ofText "1") ++ []) ++
      (Wire.line Sigil.array (Bytes.ofText "1") ++ []) = Bytes.ofText "*1\r\n*1\r\n" := by
    decide +kernel
  rw [hbytes] at hread
  rw [hbefore] at hinner
  have hnested : Nested hollowReply 3 [] :=
    .inside List.mem_cons_self (.inside List.mem_cons_self (.here []))
  exact ⟨hinner, hzero, hread, hnested, by decide⟩

end KeyValue.Reply
