import KeyValue.Proofs.Reply.RecursiveDescent

namespace KeyValue.Reply.Reader

variable {α β : Type}

-- A reader that takes the bytes one by one. It is done, or it waits for one more byte, and
-- knows nothing of the bytes after that.
inductive Process (α : Type) where
  | done (outcome : Except ReadError α)
  | wait (next : UInt8 → Process α)

namespace Process

variable {process : Process α} {bytes taken : Bytes} {outcome : Except ReadError α}

def run : Process α → Stream → Except ReadError α × Stream
  | .done outcome, stream => (outcome, stream)
  | .wait next, stream =>
      match stream.bytes with
      | [] => (.error stream.ending.readError, stream)
      | byte :: rest => (next byte).run ⟨rest, stream.ending⟩

def bind : Process α → (α → Process β) → Process β
  | .done (.ok value), next => next value
  | .done (.error cause), _ => .done (.error cause)
  | .wait more, next => .wait fun byte => (more byte).bind next

theorem run_bind (process : Process α) (next : α → Process β) (stream : Stream) :
    (process.bind next).run stream =
      match process.run stream with
      | (.ok value, rest) => (next value).run rest
      | (.error cause, rest) => (.error cause, rest) := by
  induction process generalizing stream with
  | done outcome => cases outcome <;> rfl
  | wait more ih =>
      rcases stream with ⟨_ | ⟨byte, rest⟩, ending⟩
      · rfl
      · exact ih byte ⟨rest, ending⟩

-- Hands over bytes until the process is done. What it does not take comes back.
def feed : Process α → Bytes → Process α × Bytes
  | .done outcome, bytes => (.done outcome, bytes)
  | .wait next, [] => (.wait next, [])
  | .wait next, byte :: rest => (next byte).feed rest

-- The bytes come in reads of any size, and the next read is only made for a process that
-- still waits. The reads that are left begin with what the last one brought too much.
def deliver (ending : Ending) : Process α → List Bytes → Except ReadError α × List Bytes
  | .done outcome, [] => (outcome, [])
  | .wait _, [] => (.error ending.readError, [])
  | process, read :: reads =>
      match process.feed read with
      | (.done outcome, left) => (outcome, left :: reads)
      | (.wait next, _) => deliver ending (.wait next) reads

theorem run_append (process : Process α) (bytes more : Bytes) (ending : Ending) :
    process.run ⟨bytes ++ more, ending⟩ =
      match process.feed bytes with
      | (.done outcome, left) => (outcome, ⟨left ++ more, ending⟩)
      | (.wait next, _) => (wait next).run ⟨more, ending⟩ := by
  induction bytes generalizing process with
  | nil => cases process <;> rfl
  | cons byte rest ih =>
      cases process with
      | done outcome => rfl
      | wait next => exact ih (next byte)

-- A process ends in the same way however its bytes are split into reads.
theorem run_flatten (process : Process α) (reads : List Bytes) (ending : Ending) :
    process.run ⟨reads.flatten, ending⟩ =
      ((process.deliver ending reads).1, ⟨(process.deliver ending reads).2.flatten, ending⟩) := by
  induction reads generalizing process with
  | nil => cases process <;> rfl
  | cons read reads ih =>
      rw [List.flatten_cons, run_append, deliver]
      rcases process.feed read with ⟨_ | next, left⟩
      · rfl
      · exact ih (.wait next)

-- The process takes exactly these bytes and waits for each of them.
inductive Settles : Process α → Bytes → Except ReadError α → Prop where
  | done (outcome : Except ReadError α) : Settles (.done outcome) [] outcome
  | wait {next : UInt8 → Process α} {byte : UInt8} {rest : Bytes}
      {outcome : Except ReadError α} (h : Settles (next byte) rest outcome) :
      Settles (.wait next) (byte :: rest) outcome

theorem Settles.run_append (h : process.Settles taken outcome) (more : Bytes) (ending : Ending) :
    process.run ⟨taken ++ more, ending⟩ = (outcome, ⟨more, ending⟩) := by
  induction h with
  | done outcome => rfl
  | wait _ ih => exact ih

theorem Settles.run_part (h : process.Settles taken outcome) {part : Bytes}
    (hpart : part <+: taken) (hne : part ≠ taken) (ending : Ending) :
    process.run ⟨part, ending⟩ = (.error ending.readError, ⟨[], ending⟩) := by
  induction h generalizing part with
  | done outcome => exact absurd (List.prefix_nil.mp hpart) hne
  | @wait next byte rest _ _ ih =>
      rcases part with _ | ⟨first, part⟩
      · rfl
      · obtain ⟨rfl, hrest⟩ := List.cons_prefix_cons.mp hpart
        exact ih hrest fun heq => hne (congrArg (first :: ·) heq)

theorem starves_or_settles (process : Process α) (bytes : Bytes) :
    (∀ ending, process.run ⟨bytes, ending⟩ = (.error ending.readError, ⟨[], ending⟩)) ∨
    ∃ taken outcome, taken <+: bytes ∧ process.Settles taken outcome := by
  induction process generalizing bytes with
  | done outcome => exact .inr ⟨[], outcome, List.nil_prefix, .done outcome⟩
  | wait next ih =>
      rcases bytes with _ | ⟨byte, rest⟩
      · exact .inl fun ending => rfl
      · rcases ih byte rest with hstarves | ⟨taken, outcome, hpart, hsettles⟩
        · exact .inl hstarves
        · have hmore : byte :: taken <+: byte :: rest := List.cons_prefix_cons.mpr ⟨rfl, hpart⟩
          exact .inr ⟨byte :: taken, outcome, hmore, .wait hsettles⟩

end Process

-- The reader only ever takes the next byte.
def Sequential (reader : Reader α) : Prop :=
  ∃ process : Process α, ∀ stream, reader.run stream = process.run stream

theorem sequential_pure (value : α) : Sequential (pure value) := ⟨.done (.ok value), fun _ => rfl⟩

theorem sequential_bind {reader : Reader α} {next : α → Reader β} (hreader : Sequential reader)
    (hnext : ∀ value, Sequential (next value)) : Sequential (reader >>= next) := by
  obtain ⟨process, hprocess⟩ := hreader
  choose following hfollowing using hnext
  refine ⟨process.bind following, fun stream => ?_⟩
  rw [run_bind, Process.run_bind, hprocess]
  rcases process.run stream with ⟨_ | value, rest⟩
  · rfl
  · exact hfollowing value rest

theorem sequential_byte : Sequential byte := by
  refine ⟨.wait fun byte => .done (.ok byte), fun stream => ?_⟩
  rcases stream with ⟨_ | ⟨first, rest⟩, ending⟩ <;> rfl

-- Taking bytes at once is taking them one by one.
theorem take_succ (count : Nat) :
    take (count + 1) = byte >>= fun first => take count >>= fun rest => pure (first :: rest) := by
  funext stream
  refine Eq.trans ?_ (run_bind byte _ stream).symm
  rcases stream with ⟨_ | ⟨first, rest⟩, ending⟩
  · simp [run, take, byte]
  · refine Eq.trans ?_ (run_bind (take count) _ ⟨rest, ending⟩).symm
    simp only [run, take, List.take_succ_cons, List.drop_succ_cons, List.length_cons,
      Nat.add_lt_add_iff_right]
    split <;> rfl

theorem sequential_take (count : Nat) : Sequential (take count) := by
  induction count with
  | zero => exact ⟨.done (.ok []), fun stream => by simp [run, take, Process.run]⟩
  | succ count ih =>
      rw [take_succ]
      exact sequential_bind sequential_byte fun _ => sequential_bind ih fun _ => sequential_pure _

-- The room that is left in the line bounds the bytes that it takes.
theorem exists_process_lineFrom (room : Nat) (kept : Bytes) (size : Nat)
    (hroom : maxLine ≤ size + room) :
    ∃ process : Process Bytes, ∀ stream : Stream,
      process.run stream =
        ((lineFrom stream.ending kept size stream.bytes).1,
          ⟨(lineFrom stream.ending kept size stream.bytes).2, stream.ending⟩) := by
  induction room generalizing kept size with
  | zero =>
      refine ⟨.wait fun byte =>
        if byte = Bytes.lineFeed ∧ kept.head? = some Bytes.carriageReturn then
          .done (.ok kept.tail.reverse)
        else .done (.error .lineTooLong), fun stream => ?_⟩
      rcases stream with ⟨_ | ⟨byte, rest⟩, ending⟩
      · rfl
      · have hfull : maxLine ≤ size := hroom
        simp only [Process.run, lineFrom, if_pos hfull]
        split <;> rfl
  | succ room ih =>
      choose more hmore using fun byte => ih (byte :: kept) (size + 1) (by omega)
      refine ⟨.wait fun byte =>
        if byte = Bytes.lineFeed ∧ kept.head? = some Bytes.carriageReturn then
          .done (.ok kept.tail.reverse)
        else if maxLine ≤ size then .done (.error .lineTooLong)
        else more byte, fun stream => ?_⟩
      rcases stream with ⟨_ | ⟨byte, rest⟩, ending⟩
      · rfl
      · simp only [Process.run, lineFrom]
        split
        · rfl
        split
        · rfl
        · exact hmore byte ⟨rest, ending⟩

theorem sequential_line : Sequential line := by
  obtain ⟨process, hprocess⟩ := exists_process_lineFrom maxLine [] 0 (Nat.le_add_left _ _)
  exact ⟨process, fun stream => (hprocess stream).symm⟩

-- The readers that are made of a byte, of so many bytes and of a line, and throw errors of
-- these kinds only.
inductive Built (throws : ReadError → Prop) : {α : Type} → Reader α → Prop where
  | pure {α : Type} (value : α) : Built throws (pure value : Reader α)
  | throw {α : Type} {cause : ReadError} (h : throws cause) :
      Built throws (throw cause : Reader α)
  | bind {α β : Type} {reader : Reader α} {next : α → Reader β} (hreader : Built throws reader)
      (hnext : ∀ value, Built throws (next value)) : Built throws (reader >>= next)
  | byte : Built throws byte
  | take (count : Nat) : Built throws (take count)
  | line : Built throws line

variable {reader : Reader α} {throws others : ReadError → Prop}

theorem Built.mono (h : Built throws reader) (hle : ∀ cause, throws cause → others cause) :
    Built others reader := by
  induction h with
  | pure value => exact .pure value
  | throw h => exact .throw (hle _ h)
  | bind _ _ hreader hnext => exact .bind hreader hnext
  | byte => exact .byte
  | take count => exact .take count
  | line => exact .line

theorem Built.sequential (h : Built throws reader) : Sequential reader := by
  induction h with
  | pure value => exact sequential_pure value
  | throw h => exact ⟨.done (.error _), fun _ => rfl⟩
  | bind _ _ hreader hnext => exact sequential_bind hreader hnext
  | byte => exact sequential_byte
  | take count => exact sequential_take count
  | line => exact sequential_line

-- Nothing in a frame depends on the arrays around it.

theorem built_textLine : Built (· ≠ .nestingTooDeep) textLine := by
  refine .bind .line fun bytes => ?_
  split
  · exact .pure _
  · exact .throw (by rintro ⟨⟩)

theorem built_integerLine : Built (· ≠ .nestingTooDeep) integerLine := by
  refine .bind built_textLine fun text => ?_
  split
  · exact .pure _
  · exact .throw (by rintro ⟨⟩)

theorem built_bulkBody : Built (· ≠ .nestingTooDeep) bulkBody := by
  refine .bind built_integerLine fun length => ?_
  split
  · exact .pure _
  split
  · exact .throw (by rintro ⟨⟩)
  · refine .bind (.take _) fun data => .bind (.take _) fun ending => ?_
    split
    · exact .pure _
    · exact .throw (by rintro ⟨⟩)

theorem built_arrayHeader : Built (· ≠ .nestingTooDeep) arrayHeader := by
  refine .bind built_integerLine fun count => ?_
  split
  · exact .pure _
  split
  · exact .pure _
  split
  · exact .throw (by rintro ⟨⟩)
  · exact .pure _

theorem built_frame : Built (· ≠ .nestingTooDeep) frame := by
  refine .bind .byte fun sigil => ?_
  unfold frameBody
  split
  · exact .bind built_textLine fun _ => .pure _
  split
  · exact .bind built_textLine fun _ => .pure _
  split
  · exact .bind built_integerLine fun _ => .pure _
  split
  · exact .bind built_bulkBody fun _ => .pure _
  split
  · exact built_arrayHeader
  · exact .throw (by rintro ⟨⟩)

theorem Built.times {item : Reader α} (h : Built throws item) (count : Nat) :
    Built throws (times item count) := by
  induction count with
  | zero => exact .pure _
  | succ count ih => exact .bind h fun _ => .bind ih fun _ => .pure _

theorem built_replyAt (depth : Nat) : Built (fun _ => True) (replyAt depth) := by
  rw [replyAt_eq]
  refine .bind (built_frame.mono fun _ _ => trivial) fun first => ?_
  cases first with
  | complete reply => exact .pure _
  | header count =>
      rw [completed]
      split
      · exact .throw trivial
      · exact .bind ((built_replyAt (depth + 1)).times count) fun _ => .pure _
termination_by maxNesting - depth

end Reader

end KeyValue.Reply

namespace KeyValue

theorem Ending.readError_eq (ending : Ending) :
    ending.readError = .unexpectedEnd ∨ ∃ cause, ending.readError = .io cause := by
  rcases ending with _ | ⟨⟨_ | name, text⟩⟩
  · exact .inl rfl
  · exact .inl rfl
  · exact .inr ⟨_, rfl⟩

theorem Ending.readError_failed {cause : IoError} (h : cause.kind ≠ .unexpectedEnd) :
    (failed cause).readError = .io cause := by
  obtain ⟨_ | name, text⟩ := cause
  · exact absurd rfl h
  · rfl

end KeyValue

namespace KeyValue.Reply

variable {stream rest : Stream} {outcome : Except ReadError Reply} {taken other : Bytes}

theorem exists_process_read : ∃ process : Reader.Process Reply,
    ∀ stream, read.run stream = process.run stream :=
  read_eq_replyAt ▸ (Reader.built_replyAt 0).sequential

-- An outcome that the end of the stream has no part in is settled by the bytes taken.
theorem exists_settles {process : Reader.Process Reply}
    (hprocess : ∀ stream, read.run stream = process.run stream)
    (h : read.run stream = (outcome, rest)) (hended : outcome ≠ .error .unexpectedEnd)
    (hfailed : ∀ cause, outcome ≠ .error (.io cause)) :
    ∃ taken, stream = ⟨taken ++ rest.bytes, rest.ending⟩ ∧ process.Settles taken outcome := by
  obtain ⟨bytes, ending⟩ := stream
  rw [hprocess] at h
  rcases process.starves_or_settles bytes with hstarves | ⟨taken, settled, ⟨more, rfl⟩, hsettles⟩
  · rw [hstarves] at h
    cases h
    rcases ending.readError_eq with heq | ⟨cause, heq⟩
    · exact absurd (congrArg Except.error heq) hended
    · exact absurd (congrArg Except.error heq) (hfailed cause)
  · rw [hsettles.run_append] at h
    cases h
    exact ⟨taken, rfl, hsettles⟩

-- The bytes are one reply and nothing else.
def Frames (bytes : Bytes) (reply : Reply) : Prop :=
  ∀ ending, read.run ⟨bytes, ending⟩ = (.ok reply, ⟨[], ending⟩)

theorem Frames.run_append {bytes : Bytes} {reply : Reply} (h : Frames bytes reply) (more : Bytes)
    (ending : Ending) : read.run ⟨bytes ++ more, ending⟩ = (.ok reply, ⟨more, ending⟩) := by
  obtain ⟨process, hprocess⟩ := exists_process_read
  have hended : (.ok reply : Except ReadError Reply) ≠ .error .unexpectedEnd := by rintro ⟨⟩
  have hfailed : ∀ cause, (.ok reply : Except ReadError Reply) ≠ .error (.io cause) := by
    rintro _ ⟨⟩
  obtain ⟨taken, hstream, hsettles⟩ := exists_settles hprocess (h ending) hended hfailed
  have htaken : bytes = taken := by simpa using hstream
  rw [hprocess, htaken, hsettles.run_append]

theorem Frames.eq_of_append {bytes other more rest : Bytes} {reply another : Reply}
    (h : Frames bytes reply) (hother : Frames other another)
    (heq : bytes ++ more = other ++ rest) : bytes = other ∧ more = rest := by
  have hrun := h.run_append more .closed
  rw [heq, hother.run_append rest .closed] at hrun
  cases hrun
  exact ⟨List.append_cancel_right heq, rfl⟩

theorem Frames.ne_nil {bytes : Bytes} {reply : Reply} (h : Frames bytes reply) : bytes ≠ [] := by
  rintro rfl
  have hfirst : (Reader.frame.run ⟨[], .closed⟩).1 = .error .unexpectedEnd := rfl
  have hread : (read.run ⟨[], .closed⟩).1 = .error .unexpectedEnd :=
    Reader.run_assemble_of_error hfirst
  rw [h .closed] at hread
  cases hread

-- Reading again and again gives the replies back one by one.
theorem run_times_of_frames {frames : List Bytes} {replies : List Reply}
    (h : List.Forall₂ Frames frames replies) (more : Bytes) (ending : Ending) :
    (Reader.times read replies.length).run ⟨frames.flatten ++ more, ending⟩ =
      (.ok replies, ⟨more, ending⟩) := by
  induction h with
  | nil => rfl
  | @cons bytes reply frames replies hfirst _ ih =>
      have hnext := hfirst.run_append (frames.flatten ++ more) ending
      rw [List.length_cons, Reader.times, List.flatten_cons, List.append_assoc,
        Reader.run_bind_of_ok hnext, Reader.run_bind_of_ok ih]
      rfl

theorem frames_unique {frames others : List Bytes} {replies anothers : List Reply}
    (h : List.Forall₂ Frames frames replies) (hother : List.Forall₂ Frames others anothers)
    (heq : frames.flatten = others.flatten) : frames = others := by
  induction h generalizing others anothers with
  | nil =>
      cases hother with
      | nil => rfl
      | cons hfirst _ =>
          have hnil := (List.append_eq_nil_iff.mp heq.symm).1
          exact absurd hnil hfirst.ne_nil
  | cons hfirst _ ih =>
      cases hother with
      | nil =>
          have hnil := (List.append_eq_nil_iff.mp heq).1
          exact absurd hnil hfirst.ne_nil
      | cons hsecond hrest =>
          obtain ⟨rfl, hmore⟩ := hfirst.eq_of_append hsecond heq
          rw [ih hrest hmore]

-- The reader is a process that takes the bytes one by one, in whatever reads they come. Where
-- it ends for another reason than the end of the stream, it has taken all that it needs and
-- nothing more: the same bytes end it in the same way before any others, and when they break
-- off, then it reports how the stream ends. So a stream is replies in one way at most.
theorem read_takes_one_reply :
    ∃ process : Reader.Process Reply,
      (∀ reads ending, read.run ⟨reads.flatten, ending⟩ =
        ((process.deliver ending reads).1, ⟨(process.deliver ending reads).2.flatten, ending⟩)) ∧
      (∀ stream outcome rest, read.run stream = (outcome, rest) →
        outcome ≠ .error .unexpectedEnd → (∀ cause, outcome ≠ .error (.io cause)) →
        ∃ taken, stream = ⟨taken ++ rest.bytes, rest.ending⟩ ∧
          (∀ more ending, read.run ⟨taken ++ more, ending⟩ = (outcome, ⟨more, ending⟩)) ∧
          (∀ reads more ending, reads.flatten = taken ++ more →
            (process.deliver ending reads).1 = outcome ∧
              (process.deliver ending reads).2.flatten = more) ∧
          ∀ part, part <+: taken → part ≠ taken →
            read.run ⟨part, .closed⟩ = (.error .unexpectedEnd, ⟨[], .closed⟩) ∧
            ∀ cause, cause.kind ≠ .unexpectedEnd →
              read.run ⟨part, .failed cause⟩ = (.error (.io cause), ⟨[], .failed cause⟩)) ∧
      (∀ bytes other reply another, Frames bytes reply → Frames other another →
        bytes <+: other → bytes = other) ∧
      ∀ frames replies, List.Forall₂ Frames frames replies →
        (∀ more ending, (Reader.times read replies.length).run ⟨frames.flatten ++ more, ending⟩ =
          (.ok replies, ⟨more, ending⟩)) ∧
        ∀ others anothers, List.Forall₂ Frames others anothers →
          frames.flatten = others.flatten → frames = others := by
  obtain ⟨process, hprocess⟩ := exists_process_read
  have hreads : ∀ reads ending, read.run ⟨reads.flatten, ending⟩ =
      ((process.deliver ending reads).1, ⟨(process.deliver ending reads).2.flatten, ending⟩) :=
    fun reads ending => (hprocess _).trans (process.run_flatten reads ending)
  refine ⟨process, hreads, fun stream outcome rest h hended hfailed => ?_, ?_, ?_⟩
  · obtain ⟨taken, hstream, hsettles⟩ := exists_settles hprocess h hended hfailed
    have hrun : ∀ more ending, read.run ⟨taken ++ more, ending⟩ = (outcome, ⟨more, ending⟩) :=
      fun more ending => (hprocess _).trans (hsettles.run_append more ending)
    refine ⟨taken, hstream, hrun, fun reads more ending hflatten => ?_, fun part hpart hne => ?_⟩
    · have hboth := hreads reads ending
      rw [hflatten, hrun] at hboth
      cases hboth
      exact ⟨rfl, rfl⟩
    · have hcut : ∀ ending, read.run ⟨part, ending⟩ = (.error ending.readError, ⟨[], ending⟩) :=
        fun ending => (hprocess _).trans (hsettles.run_part hpart hne ending)
      refine ⟨hcut .closed, fun cause hcause => ?_⟩
      rw [hcut, Ending.readError_failed hcause]
  · rintro bytes other reply another hbytes hother ⟨more, hmore⟩
    have heq : bytes ++ more = other ++ [] := by rw [hmore, List.append_nil]
    exact (hbytes.eq_of_append hother heq).1
  · exact fun frames replies h => ⟨run_times_of_frames h, fun others anothers => frames_unique h⟩

-- Two replies in a row. The data in the first of them looks like the ends of lines.
theorem two_replies_taken :
    let first := Bytes.ofText "*2\r\n:-7\r\n$4\r\n\r\n\r\n\r\n"
    let second := Bytes.ofText "$-1\r\n"
    let reply := array [.integer (-7), .bulk (Bytes.ofText "\r\n\r\n")]
    read.run ⟨first ++ second, .closed⟩ = (.ok reply, ⟨second, .closed⟩) ∧
    List.Forall₂ Frames [first, second] [reply, .nil] ∧
    (∀ part, part <+: first → part ≠ first →
      read.run ⟨part, .closed⟩ = (.error .unexpectedEnd, ⟨[], .closed⟩)) ∧
    (∀ more ending, (Reader.times read 2).run ⟨[first, second].flatten ++ more, ending⟩ =
      (.ok [reply, .nil], ⟨more, ending⟩)) ∧
    ∃ process : Reader.Process Reply, ∀ reads more ending, reads.flatten = first ++ more →
      (process.deliver ending reads).1 = .ok reply ∧
        (process.deliver ending reads).2.flatten = more := by
  intro first second reply
  have hencoded : first = reply.encode ∧ second = nil.encode := by decide +kernel
  have hlegible : reply.Legible := by
    simp only [reply, Legible, AllLegible]
    decide +kernel
  have hread : read.run ⟨first ++ second, .closed⟩ = (.ok reply, ⟨second, .closed⟩) :=
    hencoded.1 ▸ run_read_encode hlegible (by decide) second .closed
  have hlast : read.run ⟨second ++ [], .closed⟩ = (.ok .nil, ⟨[], .closed⟩) :=
    hencoded.2 ▸ @run_read_encode nil trivial (by decide) [] .closed
  obtain ⟨process, -, htaken, -, hreplies⟩ := read_takes_one_reply
  obtain ⟨taken, hstream, hfirst, hdelivered, hcut⟩ :=
    htaken _ _ _ hread (by rintro ⟨⟩) (by rintro _ ⟨⟩)
  obtain ⟨other, hrest, hnil, -⟩ := htaken _ _ _ hlast (by rintro ⟨⟩) (by rintro _ ⟨⟩)
  obtain rfl : first = taken := by simpa using hstream
  obtain rfl : second = other := by simpa using hrest
  have hframes : List.Forall₂ Frames [first, second] [reply, .nil] := by
    refine .cons (fun ending => ?_) (.cons (fun ending => ?_) .nil)
    · simpa using hfirst [] ending
    · simpa using hnil [] ending
  exact ⟨hread, hframes, fun part hpart hne => (hcut part hpart hne).1, (hreplies _ _ hframes).1,
    process, hdelivered⟩

end KeyValue.Reply
