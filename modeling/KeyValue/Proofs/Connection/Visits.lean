import KeyValue.Proofs.Connection.Account

namespace KeyValue.Connection

theorem flatten_reads (data : Bytes) : (reads data).flatten = data := by
  fun_induction reads data with
  | case1 data hsize => simp
  | case2 data hsize ih => rw [List.flatten_cons, ih, List.take_append_drop]

theorem flatten_flatMap_reads (chunks : List Bytes) :
    (chunks.flatMap reads).flatten = chunks.flatten := by
  induction chunks with
  | nil => rfl
  | cons chunk rest ih =>
      rw [List.flatMap_cons, List.flatten_append, flatten_reads, ih, List.flatten_cons]

theorem read_of_mem_reads {data piece : Bytes} (hdata : data ≠ []) (hpiece : piece ∈ reads data) :
    piece ≠ [] ∧ piece.length ≤ chunkSize := by
  fun_induction reads data with
  | case1 data hsize =>
      cases List.mem_singleton.mp hpiece
      exact ⟨hdata, hsize⟩
  | case2 data hsize ih =>
      have hlength : chunkSize < data.length := Nat.lt_of_not_le hsize
      rcases List.mem_cons.mp hpiece with rfl | hpiece
      · have htake : (data.take chunkSize).length = chunkSize :=
          List.length_take_of_le (Nat.le_of_lt hlength)
        have hpositive : 0 < (data.take chunkSize).length := by
          rw [htake]
          decide
        exact ⟨List.ne_nil_of_length_pos hpositive, Nat.le_of_eq htake⟩
      · exact ih (by simpa using hlength) hpiece

theorem ne_nil_of_mem_heard {results : List (Except IoError Bytes)} {piece : Bytes}
    (h : piece ∈ heard results) : piece ≠ [] := by
  fun_induction heard results with
  | case1 first data rest ih =>
      rcases List.mem_cons.mp h with rfl | h
      · exact List.cons_ne_nil first data
      · exact ih h
  | case2 => cases h

-- What the reads bring of a chunk that arrives at once.
def cut : Except IoError Bytes → List (Except IoError Bytes)
  | .ok data => (reads data).map .ok
  | .error cause => [.error cause]

section

variable {pieces : List Bytes} (h : ∀ piece ∈ pieces, piece ≠ [])
  (rest : List (Except IoError Bytes))

include h

theorem heard_append : heard (pieces.map .ok ++ rest) = pieces ++ heard rest := by
  induction pieces with
  | nil => rfl
  | cons piece pieces ih =>
      obtain ⟨hpiece, hpieces⟩ := List.forall_mem_cons.mp h
      obtain ⟨first, data, rfl⟩ := List.exists_cons_of_ne_nil hpiece
      exact congrArg ((first :: data) :: ·) (ih hpieces)

theorem ending_append : ending (pieces.map .ok ++ rest) = ending rest := by
  induction pieces with
  | nil => rfl
  | cons piece pieces ih =>
      obtain ⟨hpiece, hpieces⟩ := List.forall_mem_cons.mp h
      obtain ⟨first, data, rfl⟩ := List.exists_cons_of_ne_nil hpiece
      exact ih hpieces

end

-- Cutting chunks into reads changes neither what is heard nor how it ends.
theorem cut_chunks (chunks : List (Except IoError Bytes)) :
    heard (chunks.flatMap cut) = (heard chunks).flatMap reads ∧
      ending (chunks.flatMap cut) = ending chunks := by
  induction chunks with
  | nil => exact ⟨rfl, rfl⟩
  | cons chunk rest ih =>
      rcases chunk with cause | ⟨⟩ | ⟨first, data⟩
      · exact ⟨rfl, rfl⟩
      · have hreads : reads [] = [[]] := by simp [reads]
        rw [List.flatMap_cons, cut, hreads]
        exact ⟨rfl, rfl⟩
      · have hpieces : ∀ piece ∈ reads (first :: data), piece ≠ [] :=
          fun piece hpiece => (read_of_mem_reads (List.cons_ne_nil first data) hpiece).1
        obtain ⟨hheard, hending⟩ := ih
        rw [List.flatMap_cons, cut, heard_append hpieces, ending_append hpieces, hheard, hending]
        exact ⟨rfl, rfl⟩

-- One connection, by what its peer sends and by the instants of the reads.
structure Visit where
  chunks : List (Except IoError Bytes)
  times : Nat → Nat
  failure : Option WriteFailure

namespace Visit

-- The reads before the connection is closed or a read fails.
def pieces (visit : Visit) : List Bytes := (heard visit.chunks).flatMap reads

-- How many of them are executed and how many are answered.
def executed (visit : Visit) : Nat := Connection.executed visit.failure visit.pieces.length

def answered (visit : Visit) : Nat := Connection.answered visit.failure visit.pieces.length

def taken (visit : Visit) : List Bytes := visit.pieces.take visit.executed

def calls (visit : Visit) : List (Nat × List Bytes) := Connection.calls visit.times visit.taken

def transcript (visit : Visit) (store : Store) (counters : Counters) : Transcript :=
  serve visit.failure store counters (arrivals visit.times (visit.chunks.flatMap cut))

-- What has become of a connection.
structure Settled (visit : Visit) (before : Store) (counted : Counters)
    (transcript : Transcript) : Prop where
  complete : visit.pieces.flatten = (heard visit.chunks).flatten
  bounded : ∀ piece ∈ visit.pieces, piece ≠ [] ∧ piece.length ≤ chunkSize
  store : transcript.store = (before.serve visit.calls).2
  replies : transcript.replies =
    ((before.serve visit.calls).1.map Reply.encode).take visit.answered
  outcome : transcript.outcome = .ok () ↔ ending visit.chunks = .ok () ∧
    ∀ failure, visit.failure = some failure → visit.pieces.length ≤ failure.after
  counters : transcript.counters = {
    accepted := counted.accepted + 1
    active := counted.active
    commands := counted.commands + visit.executed
    bytesRead := counted.bytesRead + visit.taken.flatten.length
    bytesWritten := counted.bytesWritten + transcript.replies.flatten.length }
  beforeReads : transcript.beforeReads = counted.opened.course visit.pieces transcript.replies
  active : ∀ during ∈ transcript.beforeReads, during.active = counted.active + 1

theorem length_taken (visit : Visit) : visit.taken.length = visit.executed := by
  rw [taken, List.length_take_of_le]
  unfold executed Connection.executed
  split
  · exact Nat.le_refl _
  · exact Nat.min_le_left _ _

theorem transcript_settled (visit : Visit) (store : Store) (counters : Counters) :
    visit.Settled store counters (visit.transcript store counters) := by
  obtain ⟨hheard, hending⟩ := cut_chunks visit.chunks
  have haccount : converse 0 visit.failure store counters.opened
      (arrivals visit.times (visit.chunks.flatMap cut)) =
      account visit.failure store counters.opened visit.times visit.pieces
        (ending visit.chunks) := by
    rw [converse_eq_account, hheard, hending, pieces]
  rw [transcript, serve, haccount]
  refine ⟨flatten_flatMap_reads _, fun piece hpiece => ?_, rfl, rfl, outcome_eq_ok_iff, ?_, rfl,
    fun during hduring => ?_⟩
  · obtain ⟨chunk, hchunk, hpiece⟩ := List.mem_flatMap.mp hpiece
    exact read_of_mem_reads (ne_nil_of_mem_heard hchunk) hpiece
  · rw [← visit.length_taken]
    rfl
  · exact Counters.active_of_mem_course _ _ _ hduring

end Visit

-- Connections one after another, over one store and one set of counters.
def serveAll (store : Store) (counters : Counters) :
    List Visit → List Transcript × Store × Counters
  | [] => ([], store, counters)
  | visit :: rest =>
      let transcript := visit.transcript store counters
      let (transcripts, store, counters) := serveAll transcript.store transcript.counters rest
      (transcript :: transcripts, store, counters)

theorem serveAll_append (store : Store) (counters : Counters) (visits visits' : List Visit) :
    serveAll store counters (visits ++ visits') =
      let (transcripts, store, counters) := serveAll store counters visits
      let (transcripts', store, counters) := serveAll store counters visits'
      (transcripts ++ transcripts', store, counters) := by
  induction visits generalizing store counters with
  | nil => rfl
  | cons visit rest ih =>
      rw [List.cons_append, serveAll, ih]
      rfl

theorem length_serveAll (store : Store) (counters : Counters) (visits : List Visit) :
    (serveAll store counters visits).1.length = visits.length := by
  induction visits generalizing store counters with
  | nil => rfl
  | cons visit rest ih => exact congrArg (· + 1) (ih _ _)

theorem store_serveAll (store : Store) (counters : Counters) (visits : List Visit) :
    (serveAll store counters visits).2.1 = (store.serve (visits.flatMap Visit.calls)).2 := by
  induction visits generalizing store counters with
  | nil => rfl
  | cons visit rest ih =>
      rw [List.flatMap_cons, Store.serve_append, ← (visit.transcript_settled store counters).store]
      exact ih _ _

theorem counters_serveAll (store : Store) (counters : Counters) (visits : List Visit) :
    (serveAll store counters visits).2.2 =
      { counters.tally (visits.flatMap Visit.taken)
          ((serveAll store counters visits).1.flatMap Transcript.replies) with
        accepted := counters.accepted + visits.length } := by
  induction visits generalizing store counters with
  | nil => rfl
  | cons visit rest ih =>
      have hvisit : (visit.transcript store counters).counters =
          { counters.tally visit.taken (visit.transcript store counters).replies with
            accepted := counters.accepted + 1 } := by
        rw [(visit.transcript_settled store counters).counters, ← visit.length_taken]
        rfl
      simp only [serveAll, ih, hvisit, Counters.tally, List.flatMap_cons, List.flatten_append,
        List.length_append, List.length_cons, Nat.add_assoc, Nat.add_comm 1]

-- Over any connections, one after another, the loop comes to executing what its reads bring in
-- order. Each connection is as its own requests and failures have it, and is counted exactly.
theorem connections_exact (store : Store) (counters : Counters) (visits : List Visit) :
    let (transcripts, final, counted) := serveAll store counters visits
    final = (store.serve (visits.flatMap Visit.calls)).2 ∧
    transcripts.length = visits.length ∧
    (∀ before visit after, visits = before ++ visit :: after →
      ∃ transcript, transcripts[before.length]? = some transcript ∧
        visit.Settled (store.serve (before.flatMap Visit.calls)).2
          (serveAll store counters before).2.2 transcript) ∧
    counted = { counters.tally (visits.flatMap Visit.taken)
        (transcripts.flatMap Transcript.replies) with
      accepted := counters.accepted + visits.length } := by
  refine ⟨store_serveAll store counters visits, length_serveAll store counters visits,
    fun before visit after hvisits => ?_, counters_serveAll store counters visits⟩
  subst hvisits
  rw [serveAll_append, ← store_serveAll store counters before]
  refine ⟨_, ?_, visit.transcript_settled _ _⟩
  rw [← length_serveAll store counters before]
  simp [serveAll]

-- The first reply cannot be written, but its request has been executed.
example :
    let failure : WriteFailure := ⟨0, ⟨.other "BrokenPipe", "pipe closed"⟩⟩
    let visits : List Visit := [
      ⟨[.ok (Bytes.ofText "SET k v\r\n"), .ok (Bytes.ofText "DEL k\r\n")], id, some failure⟩,
      ⟨[.ok (Bytes.ofText "GET k\r\n"), .ok [], .ok (Bytes.ofText "PING\r\n")], id, none⟩]
    (serveAll .empty .zero visits).1.map Transcript.replies =
        [[], [Bytes.ofText "$1\r\nv\r\n"]] ∧
      (serveAll .empty .zero visits).2.2 = ⟨2, 0, 2, 16, 7⟩ := by
  decide +kernel

end KeyValue.Connection
