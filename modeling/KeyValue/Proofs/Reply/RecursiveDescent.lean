import KeyValue.Proofs.Reply.RoundTrip
import Mathlib.Logic.Relation

namespace KeyValue.Reply

namespace Reader

-- So many values, one after the other.
def times {α : Type} (item : Reader α) : Nat → Reader (List α)
  | 0 => pure []
  | count + 1 => do
      let first ← item
      let rest ← times item count
      return first :: rest

-- One reply that lies within so many arrays, by recursive descent: the items of an array
-- are read by the same reader one level further down.
def replyAt (depth : Nat) : Reader Reply := do
  let sigil ← byte
  if sigil = Sigil.simple then return .simple (← textLine)
  else if sigil = Sigil.error then return .error (← textLine)
  else if sigil = Sigil.integer then return .integer (← integerLine)
  else if sigil = Sigil.bulk then bulkBody
  else if sigil = Sigil.array then
    let count ← integerLine
    if count.toInt = -1 then return .nilArray
    else if count.toInt = 0 then return .array []
    else if count.toInt < -1 then throw (.invalidLength count)
    else if maxNesting ≤ depth then throw .nestingTooDeep
    else return .array (← times (replyAt (depth + 1)) count.toInt.toNat)
  else throw (.unknownSigil sigil)
termination_by maxNesting - depth

-- What is left to read of a reply once its first frame is there.
def completed (depth : Nat) : Frame → Reader Reply
  | .complete reply => pure reply
  | .header count =>
      if maxNesting ≤ depth then throw .nestingTooDeep
      else return .array (← times (replyAt (depth + 1)) count)

theorem replyAt_eq (depth : Nat) : replyAt depth = frame >>= completed depth := by
  rw [replyAt, frame, bind_assoc]
  congr 1
  funext sigil
  unfold frameBody
  split
  · simp [completed]
  split
  · simp [completed]
  split
  · simp [completed]
  split
  · simp [completed]
  split
  · rw [arrayHeader, bind_assoc]
    congr 1
    funext count
    split
    · simp [completed]
    split
    · simp [completed]
    have hiff : count.toInt < -1 ↔ count.toInt < 0 := by omega
    simp only [hiff]
    split
    · rfl
    · simp [completed]
  · rfl

variable {opened : List OpenArray} {stream after : Stream}

-- Only an array whose count is positive has its items still to come.
theorem exists_count_of_header {count : Nat} (h : frame.run stream = (.ok (.header count), after)) :
    ∃ bytes value, stream = ⟨Sigil.array :: bytes, stream.ending⟩ ∧
      integerLine.run ⟨bytes, stream.ending⟩ = (.ok value, after) ∧ 0 < value.toInt ∧
      count = value.toInt.toNat := by
  obtain ⟨bytes, ending⟩ := stream
  obtain ⟨sigil, between, hsigil, h⟩ := run_bind_eq_ok_iff.mp h
  rcases bytes with _ | ⟨first, bytes⟩
  · cases hsigil
  cases hsigil
  have hno : ∀ {α : Type} {reader : Reader α} {wrap : α → Reply} {middle : Stream},
      (reader >>= fun value => pure (Frame.complete (wrap value))).run middle ≠
        (.ok (.header count), after) := by
    intro α reader wrap middle hrun
    obtain ⟨_, _, _, hpure⟩ := run_bind_eq_ok_iff.mp hrun
    cases hpure
  unfold frameBody at h
  split at h
  · exact absurd h hno
  split at h
  · exact absurd h hno
  split at h
  · exact absurd h hno
  split at h
  · exact absurd h hno
  split at h
  · subst sigil
    obtain ⟨value, middle, hvalue, h⟩ := run_bind_eq_ok_iff.mp h
    split at h
    · cases h
    split at h
    · cases h
    split at h
    · cases h
    · cases h
      exact ⟨bytes, value, rfl, hvalue, by omega, rfl⟩
  · cases h

theorem header_pos {count : Nat} (h : frame.run stream = (.ok (.header count), after)) :
    0 < count := by
  obtain ⟨_, value, -, -, hpos, rfl⟩ := exists_count_of_header h
  omega

-- An array that misses one item is complete with it.
theorem resume_of_last (value : Reply) (before : List Reply) (opened : List OpenArray) :
    resume value (⟨1, before⟩ :: opened) = resume (.array (before.reverse ++ [value])) opened := by
  simp [resume, close]

theorem run_assemble_times {item : Reader Reply}
    (hitem : ∀ inner stream, inner.length = opened.length + 1 →
      (assemble inner).run stream = (item >>= (resume · inner)).run stream)
    (missing : Nat) (before : List Reply) (stream : Stream) :
    (assemble (⟨missing + 1, before⟩ :: opened)).run stream =
      (times item (missing + 1) >>= fun items =>
        resume (.array (before.reverse ++ items)) opened).run stream := by
  induction missing generalizing before stream with
  | zero =>
      rw [hitem _ _ rfl, times, bind_assoc, run_bind, run_bind]
      rcases item.run stream with ⟨_ | value, after⟩
      · rfl
      · simp only [times, pure_bind, Nat.zero_add, resume_of_last]
  | succ missing ih =>
      rw [hitem _ _ rfl, times, bind_assoc, run_bind, run_bind]
      rcases item.run stream with ⟨_ | value, after⟩
      · rfl
      · simp only [resume_of_missing, ih, bind_assoc, pure_bind, List.reverse_cons,
          List.append_assoc, List.singleton_append]

theorem run_assemble (opened : List OpenArray) (stream : Stream) :
    (assemble opened).run stream =
      (replyAt opened.length >>= (resume · opened)).run stream := by
  rw [replyAt_eq, bind_assoc, run_bind]
  rcases hframe : frame.run stream with ⟨cause | value | count, after⟩
  · exact run_assemble_of_failure hframe
  · exact run_assemble_of_complete hframe
  · rw [run_assemble_of_header hframe]
    by_cases hfull : maxNesting ≤ opened.length
    · simp only [completed, if_pos hfull]
      rfl
    · obtain ⟨missing, rfl⟩ := Nat.exists_eq_add_of_le' (header_pos hframe)
      -- All that the loop knows of the arrays around an item is how many they are.
      have hitem : ∀ inner stream, inner.length = opened.length + 1 →
          (assemble inner).run stream =
            (replyAt (opened.length + 1) >>= (resume · inner)).run stream := by
        intro inner stream hinner
        rw [← hinner]
        exact run_assemble inner stream
      rw [if_neg hfull, run_assemble_times hitem]
      simp only [completed, if_neg hfull, bind_assoc, pure_bind, List.reverse_nil, List.nil_append]
termination_by maxNesting - opened.length

-- A turn of the loop that does not end it: another array is open, or the innermost one that
-- stays open has one item more.
inductive Turn : List OpenArray × Stream → List OpenArray × Stream → Prop where
  | opens {opened : List OpenArray} {stream after : Stream} {count : Nat}
      (hframe : frame.run stream = (.ok (.header count), after))
      (hroom : opened.length < maxNesting) : Turn (opened, stream) (⟨count, []⟩ :: opened, after)
  | adds {opened stillOpen : List OpenArray} {stream after : Stream} {value : Reply}
      (hframe : frame.run stream = (.ok (.complete value), after))
      (hclose : close value opened = .inr stillOpen) : Turn (opened, stream) (stillOpen, after)

theorem Turn.length_lt {before next : List OpenArray × Stream} (h : Turn before next) :
    next.2.bytes.length < before.2.bytes.length := by
  cases h with
  | opens hframe => exact frame_length_lt hframe
  | adds hframe => exact frame_length_lt hframe

theorem Turn.run_assemble {opened stillOpen : List OpenArray} {stream after : Stream}
    (h : Turn (opened, stream) (stillOpen, after)) :
    (assemble opened).run stream = (assemble stillOpen).run after := by
  cases h with
  | opens hframe hroom => rw [run_assemble_of_header hframe, if_neg (Nat.not_le.mpr hroom)]
  | adds hframe hclose => rw [run_assemble_of_complete hframe, resume, hclose]

-- What a value leaves open still misses something.
theorem missing_pos_of_close {value : Reply} {stillOpen : List OpenArray}
    (hclose : close value opened = .inr stillOpen) (h : ∀ array ∈ opened, 0 < array.missing) :
    ∀ array ∈ stillOpen, 0 < array.missing := by
  induction opened generalizing value with
  | nil => cases hclose
  | cons inner outer ih =>
      obtain ⟨-, houter⟩ := List.forall_mem_cons.mp h
      rw [close] at hclose
      split at hclose
      · exact ih hclose houter
      · cases hclose
        exact List.forall_mem_cons.mpr ⟨by simp only; omega, houter⟩

theorem missing_le_of_close {value reply : Reply} (hclose : close value opened = .inl reply) :
    ∀ array ∈ opened, array.missing ≤ 1 := by
  induction opened generalizing value with
  | nil => simp
  | cons inner outer ih =>
      rw [close] at hclose
      split at hclose
      · exact List.forall_mem_cons.mpr ⟨‹_›, ih hclose⟩
      · cases hclose

theorem missing_pos {states : List OpenArray × Stream}
    (h : Relation.ReflTransGen Turn ([], stream) states) :
    ∀ array ∈ states.1, 0 < array.missing := by
  induction h with
  | refl => simp
  | tail _ hturn ih =>
      cases hturn with
      | opens hframe => exact List.forall_mem_cons.mpr ⟨header_pos hframe, ih⟩
      | adds _ hclose => exact missing_pos_of_close hclose ih

-- The stream gets shorter with every turn, so one of them is the last.
theorem exists_last_turn (opened : List OpenArray) (stream : Stream) :
    ∃ stillOpen last, Relation.ReflTransGen Turn (opened, stream) (stillOpen, last) ∧
      (∀ next, ¬Turn (stillOpen, last) next) ∧
      (assemble opened).run stream = (assemble stillOpen).run last := by
  by_cases hlast : ∀ next, ¬Turn (opened, stream) next
  · exact ⟨opened, stream, .refl, hlast, rfl⟩
  · obtain ⟨⟨more, after⟩, hturn⟩ := not_forall_not.mp hlast
    obtain ⟨stillOpen, last, hturns, hend, hrun⟩ := exists_last_turn more after
    exact ⟨stillOpen, last, .head hturn hturns, hend, hturn.run_assemble.trans hrun⟩
termination_by stream.bytes.length
decreasing_by exact hturn.length_lt

theorem close_of_last_turn {reply : Reply} (hlast : ∀ next, ¬Turn (opened, stream) next)
    (hrun : (assemble opened).run stream = (.ok reply, after)) :
    ∃ value, frame.run stream = (.ok (.complete value), after) ∧
      close value opened = .inl reply := by
  rcases hframe : frame.run stream with ⟨cause | value | count, rest⟩
  · rw [run_assemble_of_failure hframe] at hrun
    cases hrun
  · rw [run_assemble_of_complete hframe, resume] at hrun
    cases hclose : close value opened with
    | inl result =>
        rw [hclose] at hrun
        cases hrun
        exact ⟨value, rfl, hclose⟩
    | inr stillOpen => exact absurd (.adds hframe hclose) (hlast _)
  · rw [run_assemble_of_header hframe] at hrun
    split at hrun
    · cases hrun
    · exact absurd (.opens hframe (Nat.not_le.mp ‹_›)) (hlast _)

end Reader

theorem read_eq_replyAt : read = Reader.replyAt 0 := by
  have hresume : (Reader.resume · []) = (pure : Reply → Reader Reply) := rfl
  funext stream
  refine (Reader.run_assemble [] stream).trans ?_
  rw [hresume, bind_pure]
  rfl

-- The loop over open arrays does what recursive descent does, on every stream. It comes to a
-- last turn, and if that gives a reply, then its value is the last item of each array that is
-- open.
theorem loop_descends (stream : Stream) :
    read.run stream = (Reader.replyAt 0).run stream ∧
    ∃ opened last, Relation.ReflTransGen Reader.Turn ([], stream) (opened, last) ∧
      (∀ next, ¬Reader.Turn (opened, last) next) ∧
      ∀ reply rest, read.run stream = (.ok reply, rest) →
        ∃ value, Reader.frame.run last = (.ok (.complete value), rest) ∧
          Reader.close value opened = .inl reply ∧ ∀ array ∈ opened, array.missing = 1 := by
  refine ⟨congrFun read_eq_replyAt stream, ?_⟩
  obtain ⟨opened, last, hturns, hlast, hrun⟩ := Reader.exists_last_turn [] stream
  refine ⟨opened, last, hturns, hlast, fun reply rest hread => ?_⟩
  obtain ⟨value, hframe, hclose⟩ := Reader.close_of_last_turn hlast (hrun.symm.trans hread)
  refine ⟨value, hframe, hclose, fun array harray => ?_⟩
  have hsome : 0 < array.missing := Reader.missing_pos hturns array harray
  have hone : array.missing ≤ 1 := Reader.missing_le_of_close hclose array harray
  omega

end KeyValue.Reply
