import KeyValue.Connection
import KeyValue.Proofs.Store.Housekeeping

namespace KeyValue

namespace Counters

-- What is counted once these requests have been executed and these replies written.
def tally (counters : Counters) (requests replies : List Bytes) : Counters where
  accepted := counters.accepted
  active := counters.active
  commands := counters.commands + requests.length
  bytesRead := counters.bytesRead + requests.flatten.length
  bytesWritten := counters.bytesWritten + replies.flatten.length

-- What is counted at first, and then after each of the replies.
def course (counters : Counters) (requests replies : List Bytes) : List Counters :=
  (List.range (replies.length + 1)).map fun turn =>
    counters.tally (requests.take turn) (replies.take turn)

variable (counters : Counters) (request reply : Bytes) (requests replies : List Bytes)

theorem tally_singleton : counters.tally [request] [] = counters.executed request.length := by
  simp [tally, executed]

theorem tally_cons :
    counters.tally (request :: requests) (reply :: replies) =
      ((counters.executed request.length).replied reply.length).tally requests replies := by
  simp only [tally, executed, replied, List.length_cons, List.flatten_cons, List.length_append,
    Nat.add_assoc, Nat.add_comm 1]

theorem course_cons :
    counters.course (request :: requests) (reply :: replies) =
      counters ::
        ((counters.executed request.length).replied reply.length).course requests replies := by
  rw [course, List.length_cons, List.range_succ_eq_map, List.map_cons, List.map_map, course]
  congr 1
  exact List.map_congr_left fun turn _ => tally_cons counters request reply _ _

theorem active_of_mem_course {during : Counters} (h : during ∈ counters.course requests replies) :
    during.active = counters.active := by
  obtain ⟨turn, -, rfl⟩ := List.mem_map.mp h
  rfl

end Counters

namespace Connection

-- The data of the reads, or of the chunks, before the first that is empty or fails.
def heard : List (Except IoError Bytes) → List Bytes
  | .ok (first :: data) :: rest => (first :: data) :: heard rest
  | _ => []

-- Whether the peer closes the connection after that, or a read fails.
def ending : List (Except IoError Bytes) → Except IoError Unit
  | .ok (_ :: _) :: rest => ending rest
  | .error cause :: _ => .error cause
  | _ => .ok ()

-- The same failure, one reply later.
def WriteFailure.later (failure : WriteFailure) : WriteFailure :=
  { failure with after := failure.after + 1 }

-- How many of so many requests are answered.
def answered (failure : Option WriteFailure) (requests : Nat) : Nat :=
  match failure with
  | none => requests
  | some failure => min requests failure.after

-- How many of them are executed. The one that is not answered is.
def executed (failure : Option WriteFailure) (requests : Nat) : Nat :=
  match failure with
  | none => requests
  | some failure => min requests (failure.after + 1)

-- What ends the conversation: a reply that cannot be written, or what comes after the requests.
def outcome (failure : Option WriteFailure) (requests : Nat) (ending : Except IoError Unit) :
    Except IoError Unit :=
  match failure with
  | none => ending
  | some failure => if failure.after < requests then .error failure.cause else ending

theorem answered_later (failure : Option WriteFailure) (requests : Nat) :
    answered (failure.map WriteFailure.later) (requests + 1) = answered failure requests + 1 := by
  cases failure with
  | none => rfl
  | some failure => exact Nat.add_min_add_right requests failure.after 1

theorem executed_later (failure : Option WriteFailure) (requests : Nat) :
    executed (failure.map WriteFailure.later) (requests + 1) = executed failure requests + 1 := by
  cases failure with
  | none => rfl
  | some failure => exact Nat.add_min_add_right requests (failure.after + 1) 1

theorem outcome_later (failure : Option WriteFailure) (requests : Nat)
    (ending : Except IoError Unit) :
    outcome (failure.map WriteFailure.later) (requests + 1) ending =
      outcome failure requests ending := by
  cases failure with
  | none => rfl
  | some failure => simp [outcome, WriteFailure.later]

theorem outcome_eq_ok_iff {failure : Option WriteFailure} {requests : Nat}
    {ending : Except IoError Unit} :
    outcome failure requests ending = .ok () ↔ ending = .ok () ∧
      ∀ blocking, failure = some blocking → requests ≤ blocking.after := by
  cases failure with
  | none => simp [outcome]
  | some blocking =>
      by_cases h : blocking.after < requests
      · simp [outcome, h]
      · simp [outcome, h, Nat.le_of_not_lt h]

-- The requests in these pieces of data, each at the instant when it is read.
def calls (times : Nat → Nat) (pieces : List Bytes) : List (Nat × List Bytes) :=
  pieces.mapIdx fun turn piece => (times turn, Request.decode piece)

def arrivals (times : Nat → Nat) (results : List (Except IoError Bytes)) : List Arrival :=
  results.mapIdx fun turn result => ⟨times turn, result⟩

-- All that a conversation comes to, without following it from read to read.
def account (failure : Option WriteFailure) (store : Store) (counters : Counters)
    (times : Nat → Nat) (pieces : List Bytes) (ending : Except IoError Unit) : Transcript :=
  let taken := pieces.take (executed failure pieces.length)
  let (replies, store) := store.serve (calls times taken)
  let sent := (replies.map Reply.encode).take (answered failure pieces.length)
  { replies := sent
    beforeReads := counters.course pieces sent
    outcome := outcome failure pieces.length ending
    store := store
    counters := counters.tally taken sent }

section

variable (failure : Option WriteFailure) (store : Store) (counters : Counters)
  (times : Nat → Nat) (piece : Bytes) (pieces : List Bytes) (ending : Except IoError Unit)

theorem account_nil :
    account failure store counters times [] ending =
      .finished ending [counters] store counters := by
  cases failure <;> rfl

-- The reply to the first request cannot be written.
theorem account_cons_of_failure (cause : IoError) :
    account (some ⟨0, cause⟩) store counters times (piece :: pieces) ending =
      .finished (.error cause) [counters] (store.execute (times 0) (Request.decode piece)).2
        (counters.executed piece.length) := by
  have htaken : executed (some ⟨0, cause⟩) (pieces.length + 1) = 1 :=
    Nat.min_eq_right (Nat.le_add_left 1 _)
  have hanswered : answered (some ⟨0, cause⟩) (pieces.length + 1) = 0 := Nat.min_zero _
  simp only [account, List.length_cons, htaken, hanswered, List.take_succ_cons, List.take_zero,
    Counters.tally_singleton]
  rfl

theorem account_cons :
    let (reply, next) := store.execute (times 0) (Request.decode piece)
    let bytes := reply.encode
    account (failure.map WriteFailure.later) store counters times (piece :: pieces) ending =
      .afterReply counters bytes
        (account failure next ((counters.executed piece.length).replied bytes.length)
          (fun turn => times (turn + 1)) pieces ending) := by
  simp only [account, List.length_cons, executed_later, answered_later, outcome_later,
    List.take_succ_cons, calls, List.mapIdx_cons, Store.serve, List.map_cons,
    Counters.course_cons, Counters.tally_cons]
  rfl

end

section

variable {failure : Option WriteFailure} {blocking : WriteFailure} {sent : Nat}
  (store : Store) (counters : Counters) (time : Nat) (first : UInt8) (data : Bytes)
  (rest : List Arrival)

theorem converse_cons_of_failure (h : failure.filter (·.after ≤ sent) = some blocking) :
    converse sent failure store counters (⟨time, .ok (first :: data)⟩ :: rest) =
      .finished (.error blocking.cause) [counters]
        (store.execute time (Request.decode (first :: data))).2
        (counters.executed (first :: data).length) := by
  simp only [converse, h]

theorem converse_cons (h : failure.filter (·.after ≤ sent) = none) :
    let (reply, next) := store.execute time (Request.decode (first :: data))
    let bytes := reply.encode
    converse sent failure store counters (⟨time, .ok (first :: data)⟩ :: rest) =
      .afterReply counters bytes
        (converse (sent + 1) failure next
          ((counters.executed (first :: data).length).replied bytes.length) rest) := by
  simp only [converse, h]

end

-- It makes no difference whether a reply has been sent or the failure comes one reply earlier.
theorem converse_succ (sent : Nat) (failure : Option WriteFailure) (store : Store)
    (counters : Counters) (arrivals : List Arrival) :
    converse (sent + 1) (failure.map WriteFailure.later) store counters arrivals =
      converse sent failure store counters arrivals := by
  have hfilter (sent : Nat) : (failure.map WriteFailure.later).filter (·.after ≤ sent + 1) =
      (failure.filter (·.after ≤ sent)).map WriteFailure.later := by
    cases failure with
    | none => rfl
    | some failure =>
        by_cases h : failure.after ≤ sent <;> simp [Option.filter, WriteFailure.later, h]
  induction arrivals generalizing sent store counters with
  | nil => rfl
  | cons arrival rest ih =>
      obtain ⟨time, result⟩ := arrival
      rcases result with cause | ⟨⟩ | ⟨first, data⟩
      · rfl
      · rfl
      · cases hblocking : failure.filter (·.after ≤ sent) with
        | some blocking =>
            have hlater := (hfilter sent).trans (congrArg (Option.map WriteFailure.later) hblocking)
            rw [converse_cons_of_failure store counters time first data rest hblocking,
              converse_cons_of_failure store counters time first data rest hlater]
            rfl
        | none =>
            have hlater := (hfilter sent).trans (congrArg (Option.map WriteFailure.later) hblocking)
            rw [converse_cons store counters time first data rest hblocking,
              converse_cons store counters time first data rest hlater, ih]

theorem converse_eq_account (failure : Option WriteFailure) (store : Store) (counters : Counters)
    (times : Nat → Nat) (results : List (Except IoError Bytes)) :
    converse 0 failure store counters (arrivals times results) =
      account failure store counters times (heard results) (ending results) := by
  induction results generalizing failure store counters times with
  | nil => exact (account_nil ..).symm
  | cons result rest ih =>
      rw [arrivals, List.mapIdx_cons]
      rcases result with cause | ⟨⟩ | ⟨first, data⟩
      · exact (account_nil ..).symm
      · exact (account_nil ..).symm
      · have hanswered (earlier : Option WriteFailure) :
            converse 0 (earlier.map WriteFailure.later) store counters
              (⟨times 0, .ok (first :: data)⟩ :: arrivals (fun turn => times (turn + 1)) rest) =
            account (earlier.map WriteFailure.later) store counters times
              ((first :: data) :: heard rest) (ending rest) := by
          have hfilter : (earlier.map WriteFailure.later).filter (·.after ≤ 0) = none := by
            cases earlier <;> simp [Option.filter, WriteFailure.later]
          rw [converse_cons store counters (times 0) first data _ hfilter, converse_succ, ih]
          exact (account_cons ..).symm
        rcases failure with _ | ⟨after, cause⟩
        · exact hanswered none
        · cases after with
          | zero => exact (account_cons_of_failure ..).symm
          | succ after => exact hanswered (some ⟨after, cause⟩)

end Connection

end KeyValue
