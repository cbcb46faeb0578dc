import KeyValue.Proofs.Command.Contents
import KeyValue.Proofs.Command.Failure
import KeyValue.Proofs.Command.Replies
import KeyValue.Proofs.Request.RoundTrip
import KeyValue.Server

namespace KeyValue

open Connection (chunkSize)
open Reply (maxLine maxBulk)

theorem StoreError.length_message_lt (cause : StoreError) :
    (Bytes.ofText cause.message).length < maxLine := by
  cases cause <;> decide +kernel

theorem Verb.length_lowerName_le (verb : Verb) : (Bytes.ofText verb.lowerName).length ≤ 8 := by
  rw [lowerName, Bytes.ofText_ofList]
  cases verb <;> decide +kernel

theorem Command.length_lt_of_mem_words {text : String} (h : text ∈ words) :
    (Bytes.ofText text).length < maxLine := by
  revert h text
  decide +kernel

namespace Command

-- The refusal of an unknown command repeats its name, which can make it too long for a line.
def NameTooLong (tokens : List Bytes) : Prop :=
  ∃ name, parse tokens = .error (.unknown name) ∧
    maxLine ≤ (Bytes.ofText (Refusal.unknown name).message).length

theorem length_message_lt {tokens : List Bytes} {refusal : Refusal}
    (hparse : parse tokens = .error refusal) (hname : ¬NameTooLong tokens) :
    (Bytes.ofText refusal.message).length < maxLine := by
  cases refusal with
  | empty => decide +kernel
  | notAnInteger => decide +kernel
  | unknown name => exact Nat.lt_of_not_le fun hle => hname ⟨name, hparse, hle⟩
  | wrongArity verb =>
      have hverb := verb.length_lowerName_le
      have hbefore : (Bytes.ofText "ERR wrong number of arguments for '").length = 35 := by
        decide +kernel
      have hafter : (Bytes.ofText "' command").length = 9 := by decide +kernel
      have hlimit : maxLine = 65536 := rfl
      have hmessage : (Refusal.wrongArity verb).message =
          "ERR wrong number of arguments for '" ++ verb.lowerName ++ "' command" := rfl
      rw [hmessage, Bytes.ofText_append, Bytes.ofText_append, List.length_append,
        List.length_append]
      omega

end Command

namespace Store

variable {now : Nat} {store : Store} {tokens : List Bytes}

theorem execute_withinLimits (hsize : (Request.encode tokens).length ≤ chunkSize)
    (hstored : ∀ data, store.Holds data → data.length ≤ maxBulk)
    (hcount : ∀ items, (store.execute now tokens).1 = .array items →
      items.length ≤ Int64.maxValue.toInt)
    (hname : ¬Command.NameTooLong tokens) : (store.execute now tokens).1.WithinLimits := by
  have htoken : ∀ token ∈ tokens, token.length < maxLine := fun token hmem =>
    Nat.lt_of_lt_of_le (Request.length_lt_of_mem hmem) hsize
  have hdata : ∀ data, (store.execute now tokens).1.Carries data → data.length ≤ maxBulk := by
    intro data hcarries
    rcases execute_carries hcarries with hheld | hsent
    · exact hstored data hheld
    · exact Nat.le_trans (Nat.le_of_lt (htoken data hsent)) (by decide)
  cases hreply : (store.execute now tokens).1 with
  | simple text =>
      rcases execute_text hreply with hword | hsent
      · exact Command.length_lt_of_mem_words hword
      · exact htoken _ hsent
  | error text =>
      rcases refused_or_failed hreply with ⟨refusal, hparse, rfl⟩ | ⟨_, _, cause, rfl, _⟩
      · exact Command.length_message_lt hparse hname
      · exact cause.length_message_lt
  | integer | nil | nilArray => trivial
  | bulk data => exact hdata data (by rw [hreply]; rfl)
  | array items =>
      exact ⟨hcount items hreply, fun data hmem => hdata data (by rw [hreply]; exact hmem)⟩

theorem run_read_of_nameTooLong (h : Command.NameTooLong tokens) (ending : Ending) :
    (Reply.read.run ⟨(store.execute now tokens).1.encode, ending⟩).1 = .error .lineTooLong := by
  obtain ⟨name, hparse, hlong⟩ := h
  have hline : ¬Reply.Reader.HasLineEnd (Bytes.ofText (Refusal.unknown name).message) :=
    Reply.not_hasLineEnd_ofText (Refusal.unknown name).message_flat.1
  have htext := Reply.Reader.run_textLine_of_le hline hlong [] ending
  rw [List.append_nil] at htext
  rw [execute_of_refusal hparse]
  refine Reply.Reader.run_assemble_of_error ?_
  rw [Reply.encode, Wire.line, Reply.Reader.run_frame]
  exact Reply.Reader.run_bind_of_error htext

end Store

namespace Connection

theorem reads_of_le {data : Bytes} (h : data.length ≤ chunkSize) : reads data = [data] := by
  rw [reads, if_pos h]

theorem decode_encode_of_le {tokens : List Bytes}
    (hsize : (Request.encode tokens).length ≤ chunkSize) :
    Request.decode (Request.encode tokens) = tokens := by
  have hdecode := Request.decode_encode_append (Nat.lt_of_le_of_lt hsize (by decide)) []
  rwa [List.append_nil] at hdecode

-- A request that arrives in one read is answered with one reply.
theorem replies_serve (now : Nat) (store : Store) (counters : Counters) {tokens : List Bytes}
    (hsize : (Request.encode tokens).length ≤ chunkSize) :
    (serve none store counters [⟨now, .ok (Request.encode tokens)⟩]).replies =
      [(store.execute now tokens).1.encode] := by
  show [(store.execute now (Request.decode (Request.encode tokens))).1.encode] = _
  rw [decode_encode_of_le hsize]

end Connection

namespace Server

variable {server : Server} {bytes : Bytes} {tokens : List Bytes}

-- No client has been sent anything that it has not read.
def Quiet (server : Server) : Prop := ∀ client ∈ server.clients, client.inbox = []

theorem Quiet.connect (h : server.Quiet) (id : Nat) : (server.connect id).Quiet := by
  intro client hclient
  rcases List.mem_append.mp hclient with hold | hnew
  · exact h client hold
  · rw [List.mem_singleton.mp hnew]

theorem Quiet.inbox_eq_nil (h : server.Quiet) (id : Nat) :
    ((server.clients.find? (·.id == id)).map (·.inbox)).getD [] = [] := by
  cases hfind : server.clients.find? (·.id == id) with
  | none => rfl
  | some client => exact h client (List.mem_of_find?_eq_some hfind)

theorem Quiet.request (hquiet : server.Quiet) (now id : Nat) (hsize : bytes.length ≤ chunkSize) :
    let reply := (server.store.execute now (Request.decode bytes)).1
    let read := Reply.read.run ⟨reply.encode, .closed⟩
    (server.request now id bytes).1 = read.1 ∧
      (read.2.bytes = [] → (server.request now id bytes).2.Quiet) := by
  intro reply read
  have hanswer : server.answerAll now [bytes] =
      (reply.encode ++ [], (server.answer now bytes).2) := rfl
  have hinbox : (((server.answer now bytes).2.clients.find? (·.id == id)).map (·.inbox)).getD [] =
      [] := hquiet.inbox_eq_nil id
  simp only [Server.request, Connection.reads_of_le hsize, hanswer, hinbox, List.append_nil,
    List.nil_append]
  refine ⟨rfl, fun hrest client hclient => ?_⟩
  obtain ⟨other, hother, rfl⟩ := List.mem_map.mp hclient
  split
  · exact hrest
  · exact hquiet other hother

theorem Quiet.command (hquiet : server.Quiet) (now id : Nat)
    (hsize : (Request.encode tokens).length ≤ chunkSize) :
    let reply := (server.store.execute now tokens).1
    let read := Reply.read.run ⟨reply.encode, .closed⟩
    (server.command now id tokens).1 = read.1 ∧
      (read.2.bytes = [] → (server.command now id tokens).2.Quiet) := by
  intro reply
  have hreply : (server.store.execute now (Request.decode (Request.encode tokens))).1 = reply := by
    rw [Connection.decode_encode_of_le hsize]
  rw [← hreply, Server.command]
  split
  · exact hquiet.request now id hsize
  · exact (hquiet.connect id).request now id hsize

-- The client reads what the command was answered with, and all of it, except that the
-- refusal of an unknown command may be a longer line than the client reads. Stored data is
-- no longer than the client reads, and no array has more items than 64 bits count.
theorem client_agrees (now id : Nat) (server : Server) (tokens : List Bytes)
    (hquiet : server.Quiet) (hsize : (Request.encode tokens).length ≤ chunkSize)
    (hstored : ∀ data, server.store.Holds data → data.length ≤ maxBulk)
    (hcount : ∀ items, (server.store.execute now tokens).1 = .array items →
      items.length ≤ Int64.maxValue.toInt) :
    let reply := (server.store.execute now tokens).1
    let arrivals : List Connection.Arrival := [⟨now, .ok (Request.encode tokens)⟩]
    let written := (Connection.serve none server.store server.counters arrivals).replies.flatten
    let received := server.command now id tokens
    (¬Command.NameTooLong tokens →
      (∀ ending, Reply.read.run ⟨written, ending⟩ = (.ok reply, ⟨[], ending⟩)) ∧
        received.1 = .ok reply ∧ received.2.Quiet) ∧
    (Command.NameTooLong tokens →
      (∀ ending, (Reply.read.run ⟨written, ending⟩).1 = .error .lineTooLong) ∧
        received.1 = .error .lineTooLong) := by
  intro reply arrivals written received
  have hwritten : written = reply.encode := by
    show (Connection.serve none server.store server.counters arrivals).replies.flatten = _
    rw [Connection.replies_serve now server.store server.counters hsize, List.flatten_singleton]
  rw [hwritten]
  refine ⟨fun hname => ?_, fun hname => ?_⟩
  · have hlimits := Store.execute_withinLimits hsize hstored hcount hname
    have hread : ∀ ending, Reply.read.run ⟨reply.encode, ending⟩ = (.ok reply, ⟨[], ending⟩) := by
      intro ending
      have hrun := (Store.execute_flat now server.store tokens).run_read hlimits [] ending
      rwa [List.append_nil] at hrun
    obtain ⟨hreceived, hafter⟩ := hquiet.command now id hsize
    rw [hread] at hreceived hafter
    exact ⟨hread, hreceived, hafter rfl⟩
  · have hread : ∀ ending, (Reply.read.run ⟨reply.encode, ending⟩).1 = .error .lineTooLong :=
      Store.run_read_of_nameTooLong hname
    exact ⟨hread, (hquiet.command now id hsize).1.trans (hread .closed)⟩

-- A server that stores one string.
def shelfServer : Server := ⟨[100], (Store.empty.set 0 [107] [118]).2, .zero, []⟩

theorem length_le_of_shelfServer_holds {data : Bytes} (h : shelfServer.store.Holds data) :
    data.length ≤ maxBulk := by
  cases h with
  | key h =>
      have hkey : data ∈ [[107]] := h
      rw [List.mem_singleton.mp hkey]
      decide
  | cell h =>
      cases h with
      | string h =>
          change (ByteMap.empty.insert [107] [118]).get? _ = _ at h
          rw [ByteMap.get?_insert] at h
          split at h <;> cases h
          decide
      | item h => cases h
      | field h => cases h
      | value h => cases h

theorem shelfServer_client_agrees :
    let received := shelfServer.command 0 7 [Bytes.ofText "GET", [107]]
    received.1 = .ok (.bulk [118]) ∧ received.2.Quiet := by
  have hreply : (shelfServer.store.execute 0 [Bytes.ofText "GET", [107]]).1 = .bulk [118] := rfl
  have hparse : Command.parse [Bytes.ofText "GET", [107]] = .ok (.get [107]) := rfl
  have hname : ¬Command.NameTooLong [Bytes.ofText "GET", [107]] := by
    rintro ⟨name, hrefused, -⟩
    rw [hparse] at hrefused
    cases hrefused
  obtain ⟨hagree, -⟩ := client_agrees 0 7 shelfServer [Bytes.ofText "GET", [107]]
    (fun _ h => nomatch h) (by decide +kernel) (fun _ h => length_le_of_shelfServer_holds h)
    (fun items h => by rw [hreply] at h; cases h)
  obtain ⟨-, hreceived, hquiet⟩ := hagree hname
  exact ⟨hreceived.trans (congrArg Except.ok hreply), hquiet⟩

-- A byte that begins no character is read as a replacement character, whose three bytes come
-- back in the refusal.

theorem lossy_replicate (n : Nat) :
    Text.lossy (List.replicate n 255) = List.replicate n Text.replacement := by
  have hscan : ∀ chars, (List.replicate n (255 : UInt8)).foldl Text.Scan.push ⟨chars, none⟩ =
      ⟨List.replicate n Text.replacement ++ chars, none⟩ := by
    induction n with
    | zero => exact fun chars => rfl
    | succ n ih =>
        intro chars
        have hpush : Text.Scan.push ⟨chars, none⟩ 255 = ⟨Text.replacement :: chars, none⟩ := rfl
        rw [List.replicate_succ, List.foldl_cons, hpush, ih]
        simp [List.replicate_succ']
  rw [Text.lossy, hscan, List.append_nil, Text.Scan.finish, List.reverse_replicate]

theorem ofName?_eq_none {name : String} (h : Text.replacement ∈ name.toList) :
    Verb.ofName? name = none := by
  have hverb : ∀ verb : Verb, Text.replacement ∉ verb.name.toList := by
    intro verb
    cases verb <;> decide +kernel
  refine List.find?_eq_none.mpr fun verb _ hname => hverb verb ?_
  rwa [eq_of_beq hname]

theorem nameTooLong_replicate {n : Nat} (h : 21838 ≤ n) :
    Command.NameTooLong [List.replicate n 255] := by
  have hupper : Char.toUpper Text.replacement = Text.replacement := by decide
  have hmem : Text.replacement ∈ (String.ofList (List.replicate n Text.replacement)).toList := by
    rw [String.toList_ofList]
    exact List.mem_replicate.mpr ⟨by omega, rfl⟩
  refine ⟨String.ofList (List.replicate n Text.replacement), ?_, ?_⟩
  · simp only [Command.parse, lossy_replicate, List.map_replicate, hupper, ofName?_eq_none hmem]
  · have hmessage (name : String) : (Refusal.unknown name).message =
        "ERR unknown command '" ++ Text.oneLine name ++ "'" := rfl
    have hline : ¬(Text.replacement = '\r' ∨ Text.replacement = '\n') := by decide
    have hbefore : (Bytes.ofText "ERR unknown command '").length = 21 := by decide +kernel
    have hafter : (Bytes.ofText "'").length = 1 := by decide +kernel
    have hchar : (String.utf8EncodeChar Text.replacement).length = 3 := by decide +kernel
    have hlimit : maxLine = 65536 := rfl
    have hname : (Bytes.ofText (Text.oneLine
        (String.ofList (List.replicate n Text.replacement)))).length = n * 3 := by
      simp only [Text.oneLine, String.toList_ofList, List.map_replicate, hline, if_false,
        Bytes.ofText_ofList, List.length_flatMap, hchar, List.sum_replicate_nat]
    rw [hmessage, Bytes.ofText_append, Bytes.ofText_append, List.length_append,
      List.length_append]
    omega

theorem long_name_not_read :
    let tokens : List Bytes := [List.replicate 21838 255]
    let server : Server := ⟨[100], .empty, .zero, []⟩
    (Request.encode tokens).length ≤ chunkSize ∧ (∀ data, ¬server.store.Holds data) ∧
      (server.store.execute 0 tokens).1.isError = true ∧
      (server.command 0 7 tokens).1 = .error .lineTooLong := by
  intro tokens server
  have hlong : Command.NameTooLong tokens := nameTooLong_replicate (Nat.le_refl 21838)
  have hsize : (Request.encode tokens).length ≤ chunkSize := by
    rw [Request.encode, List.length_append, List.flatMap_singleton, Request.length_bulk,
      List.length_replicate]
    decide +kernel
  have hquiet : server.Quiet := fun _ h => by cases h
  refine ⟨hsize, fun data hdata => ?_, ?_, ?_⟩
  · cases hdata with
    | key h => cases h
    | cell h => exact Cell.not_holds_vacant data h
  · obtain ⟨name, hparse, -⟩ := hlong
    rw [Store.execute_of_refusal hparse]
    rfl
  · exact (hquiet.command 0 7 hsize).1.trans (Store.run_read_of_nameTooLong hlong .closed)

end Server

end KeyValue
