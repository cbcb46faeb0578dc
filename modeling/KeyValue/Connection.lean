import KeyValue.Command.Execute
import KeyValue.Reply.Wire
import KeyValue.Request
import KeyValue.Stream

namespace KeyValue

-- What a server counts over all of its connections. The counts have no bound here, where the
-- machine's words of 64 bits would start again from zero.
structure Counters where
  accepted : Nat
  active : Nat
  commands : Nat
  bytesRead : Nat
  bytesWritten : Nat
deriving DecidableEq

namespace Counters

def zero : Counters := ⟨0, 0, 0, 0, 0⟩

def opened (counters : Counters) : Counters :=
  { counters with accepted := counters.accepted + 1, active := counters.active + 1 }

def closed (counters : Counters) : Counters := { counters with active := counters.active - 1 }

def executed (counters : Counters) (bytes : Nat) : Counters :=
  { counters with commands := counters.commands + 1, bytesRead := counters.bytesRead + bytes }

def replied (counters : Counters) (bytes : Nat) : Counters :=
  { counters with bytesWritten := counters.bytesWritten + bytes }

end Counters

namespace Connection

-- The most that one read takes.
def chunkSize : Nat := 65536

-- The reads that deliver a non-empty piece of data which arrives at once.
def reads (data : Bytes) : List Bytes :=
  if data.length ≤ chunkSize then [data]
  else data.take chunkSize :: reads (data.drop chunkSize)
termination_by data.length
decreasing_by
  simp only [List.length_drop]
  simp only [chunkSize] at *
  omega

-- What one read brings at some instant. A read of no bytes means that the peer has closed.
structure Arrival where
  time : Nat
  result : Except IoError Bytes

-- After so many replies, writing the next one fails.
structure WriteFailure where
  after : Nat
  cause : IoError

-- What became of a connection.
structure Transcript where
  replies : List Bytes
  beforeReads : List Counters
  outcome : Except IoError Unit
  store : Store
  counters : Counters

namespace Transcript

def finished (outcome : Except IoError Unit) (beforeReads : List Counters) (store : Store)
    (counters : Counters) : Transcript := ⟨[], beforeReads, outcome, store, counters⟩

def afterReply (before : Counters) (reply : Bytes) (rest : Transcript) : Transcript :=
  { rest with replies := reply :: rest.replies, beforeReads := before :: rest.beforeReads }

end Transcript

-- Every read that brings bytes is one request, however much of it arrived, and is answered
-- with one reply. A reply that cannot be written is not counted, but its request is.
def converse (sent : Nat) (failure : Option WriteFailure) (store : Store) (counters : Counters) :
    List Arrival → Transcript
  | [] => .finished (.ok ()) [counters] store counters
  | arrival :: rest =>
      match arrival.result with
      | .error cause => .finished (.error cause) [counters] store counters
      | .ok [] => .finished (.ok ()) [counters] store counters
      | .ok (first :: data) =>
          let request := first :: data
          let (reply, store) := store.execute arrival.time (Request.decode request)
          let executed := counters.executed request.length
          match failure.filter (·.after ≤ sent) with
          | some failure => .finished (.error failure.cause) [counters] store executed
          | none =>
              let bytes := reply.encode
              .afterReply counters bytes
                (converse (sent + 1) failure store (executed.replied bytes.length) rest)

-- One connection from its acceptance to its end, whatever ends it.
def serve (failure : Option WriteFailure) (store : Store) (counters : Counters)
    (arrivals : List Arrival) : Transcript :=
  let transcript := converse 0 failure store counters.opened arrivals
  { transcript with counters := transcript.counters.closed }

end Connection

end KeyValue
