import KeyValue.Proofs.Command.Operation
import KeyValue.Proofs.Reply.RoundTrip

namespace KeyValue

namespace Text

theorem oneLine_has_no_break (text : String) :
    '\r' ∉ (oneLine text).toList ∧ '\n' ∉ (oneLine text).toList := by
  have hnot : ∀ char ∈ (oneLine text).toList, ¬(char = '\r' ∨ char = '\n') := by
    intro char hchar
    rw [oneLine, String.toList_ofList] at hchar
    obtain ⟨other, -, rfl⟩ := List.mem_map.mp hchar
    split
    · decide
    · assumption
  exact ⟨fun h => hnot _ h (.inl rfl), fun h => hnot _ h (.inr rfl)⟩

end Text

namespace Reply

-- A reply with one line of text, one piece of data, or an array of such pieces.
def Flat : Reply → Prop
  | .simple text | .error text => '\r' ∉ text.toList ∧ '\n' ∉ text.toList
  | .array items => ∀ item ∈ items, ∃ data, item = .bulk data
  | .integer _ | .bulk _ | .nil => True
  | .nilArray => False

instance (text : String) : Decidable (error text).Flat := inferInstanceAs (Decidable (_ ∧ _))

-- A flat reply that the reader accepts. The count of an array is a number of 64 bits, and no
-- machine holds more items than such a number tells.
def WithinLimits : Reply → Prop
  | .simple text | .error text => (Bytes.ofText text).length < maxLine
  | .bulk data => data.length ≤ maxBulk
  | .array items =>
      items.length ≤ Int64.maxValue.toInt ∧ ∀ data, .bulk data ∈ items → data.length ≤ maxBulk
  | .integer _ | .nil | .nilArray => True

theorem not_hasLineEnd_ofText {text : String} (h : '\r' ∉ text.toList) :
    ¬Reader.HasLineEnd (Bytes.ofText text) := by
  have hbyte : Bytes.carriageReturn ∉ Bytes.ofText text := fun hmem =>
    h (Bytes.mem_toList_of_mem_ofText (by decide) hmem)
  exact Reader.not_hasLineEnd_of_not_mem (by decide) hbyte

theorem Flat.legible {reply : Reply} (h : reply.Flat) (hlimits : reply.WithinLimits) :
    reply.Legible := by
  cases reply with
  | simple text => exact ⟨not_hasLineEnd_ofText h.1, hlimits⟩
  | error text => exact ⟨not_hasLineEnd_ofText h.1, hlimits⟩
  | bulk data => exact hlimits
  | array items =>
      refine ⟨hlimits.1, allLegible_iff.mpr fun item hitem => ?_⟩
      obtain ⟨data, rfl⟩ := h item hitem
      exact hlimits.2 data hitem
  | integer | nil | nilArray => trivial

theorem deepest_eq_zero {items : List Reply} (h : ∀ item ∈ items, ∃ data, item = .bulk data) :
    deepest items = 0 := by
  induction items with
  | nil => rfl
  | cons item rest ih =>
      obtain ⟨⟨data, rfl⟩, hrest⟩ := List.forall_mem_cons.mp h
      rw [deepest, ih hrest]
      rfl

theorem Flat.nesting_le {reply : Reply} (h : reply.Flat) : reply.nesting ≤ maxNesting := by
  cases reply with
  | array items =>
      cases items with
      | nil => decide
      | cons first rest =>
          rw [nesting, deepest_eq_zero h]
          decide
  | simple | error | integer | bulk | nil | nilArray => exact Nat.zero_le _

theorem Flat.run_read {reply : Reply} (h : reply.Flat) (hlimits : reply.WithinLimits)
    (rest : Bytes) (ending : Ending) :
    read.run ⟨reply.encode ++ rest, ending⟩ = (.ok reply, ⟨rest, ending⟩) :=
  run_read_encode (h.legible hlimits) h.nesting_le rest ending

theorem Flat.append {first second : String} (hfirst : (error first).Flat)
    (hsecond : (error second).Flat) : (error (first ++ second)).Flat := by
  simp only [Flat, String.toList_append, List.mem_append, not_or]
  exact ⟨⟨hfirst.1, hsecond.1⟩, hfirst.2, hsecond.2⟩

theorem Success.flat {reply : Reply} (h : reply.Success) : reply.Flat := by
  cases h with
  | line hreturn hfeed => exact ⟨hreturn, hfeed⟩
  | integer value => trivial
  | ofOption data => cases data <;> trivial
  | ofBytesList items =>
      intro item hitem
      obtain ⟨data, -, rfl⟩ := List.mem_map.mp hitem
      exact ⟨data, rfl⟩

end Reply

theorem StoreError.message_flat (cause : StoreError) : (Reply.error cause.message).Flat := by
  cases cause <;> decide +kernel

theorem Verb.lowerName_has_no_break (verb : Verb) :
    '\r' ∉ verb.lowerName.toList ∧ '\n' ∉ verb.lowerName.toList := by
  rw [lowerName, String.toList_ofList]
  cases verb <;> decide +kernel

theorem Refusal.message_flat (refusal : Refusal) : (Reply.error refusal.message).Flat := by
  cases refusal with
  | empty => decide +kernel
  | notAnInteger => decide +kernel
  | wrongArity verb =>
      have hbefore : (Reply.error "ERR wrong number of arguments for '").Flat := by decide +kernel
      have hafter : (Reply.error "' command").Flat := by decide +kernel
      exact (hbefore.append verb.lowerName_has_no_break).append hafter
  | unknown name =>
      have hbefore : (Reply.error "ERR unknown command '").Flat := by decide +kernel
      have hafter : (Reply.error "'").Flat := by decide +kernel
      exact (hbefore.append (Text.oneLine_has_no_break name)).append hafter

namespace Command

theorem run_flat (now : Nat) (command : Command) (store : Store) :
    (command.run now store).1.Flat := by
  rcases command.cannot_fail_or_operation with hnever | ⟨α, op, render, -, hrender, hop⟩
  · exact (hnever now store).flat
  · rw [hop]
    show (Reply.ofOutcome render (op.perform now store).1).Flat
    cases (op.perform now store).1 with
    | ok value => exact (hrender value).flat
    | error cause => exact cause.message_flat

end Command

namespace Store

theorem execute_flat (now : Nat) (store : Store) (tokens : List Bytes) :
    (store.execute now tokens).1.Flat := by
  unfold execute
  split
  · exact Command.run_flat now _ store
  · exact Refusal.message_flat _

-- Nothing that is stored or sent shifts the boundary between two replies.
theorem reply_is_one_frame (now : Nat) (store : Store) (tokens : List Bytes) :
    let reply := (store.execute now tokens).1
    reply.Flat ∧
      ∀ rest ending, reply.WithinLimits →
        Reply.read.run ⟨reply.encode ++ rest, ending⟩ = (.ok reply, ⟨rest, ending⟩) :=
  have hflat := execute_flat now store tokens
  ⟨hflat, fun rest ending hlimits => hflat.run_read hlimits rest ending⟩

-- A hash whose field is a line end and whose value is a whole reply.
def forgedStore : Store := (empty.setField 0 [104] Bytes.crlf (Bytes.ofText "+OK\r\n")).2

theorem forgedStore_reply_is_one_frame :
    let reply := (forgedStore.execute 0 [Bytes.ofText "HGETALL", [104]]).1
    let next := Reply.pong.encode
    reply = .array [.bulk Bytes.crlf, .bulk (Bytes.ofText "+OK\r\n")] ∧
      reply.Flat ∧ reply.WithinLimits ∧
      Reply.read.run ⟨reply.encode ++ next, .closed⟩ = (.ok reply, ⟨next, .closed⟩) := by
  intro reply next
  have hreply : reply = .array [.bulk Bytes.crlf, .bulk (Bytes.ofText "+OK\r\n")] := rfl
  have hlimits : reply.WithinLimits := by
    rw [hreply]
    refine ⟨by decide, fun data hdata => ?_⟩
    simp only [List.mem_cons, List.not_mem_nil, or_false, Reply.bulk.injEq] at hdata
    rcases hdata with rfl | rfl <;> decide
  obtain ⟨hflat, hread⟩ := reply_is_one_frame 0 forgedStore [Bytes.ofText "HGETALL", [104]]
  exact ⟨hreply, hflat, hlimits, hread next .closed hlimits⟩

end Store

end KeyValue
