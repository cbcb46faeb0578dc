import KeyValue.Reply.Wire
import KeyValue.Stream

namespace KeyValue

namespace Reply

inductive ReadError where
  | io (cause : IoError)
  | unexpectedEnd
  | unknownSigil (byte : UInt8)
  | invalidInteger (line : String)
  | invalidLength (length : Int64)
  | invalidText
  | missingLineEnd
  | lineTooLong
  | nestingTooDeep
deriving DecidableEq

-- Array levels in one reply that hold items.
def maxNesting : Nat := 2

-- Bytes in one bulk string.
def maxBulk : Nat := 512 * 1024 * 1024

-- Bytes of a line that may be kept before its line feed. The carriage return is one of them.
def maxLine : Nat := 64 * 1024

private def hexDigits (byte : UInt8) : String :=
  let digits := Nat.toDigits 16 byte.toNat
  String.ofList (if digits.length < 2 then '0' :: digits else digits)

def ReadError.message : ReadError → String
  | .io cause => cause.message
  | .unexpectedEnd => "connection closed in the middle of a reply"
  | .unknownSigil byte => "unknown reply type prefix: 0x" ++ hexDigits byte
  | .invalidInteger line => "invalid integer: " ++ line
  | .invalidLength length => "invalid length: " ++ Decimal.text length.toInt
  | .invalidText => "reply line is not valid UTF-8"
  | .missingLineEnd => "bulk string missing trailing CRLF"
  | .lineTooLong => "reply line exceeds " ++ Decimal.text maxLine ++ " bytes"
  | .nestingTooDeep => "array nesting deeper than " ++ Decimal.text maxNesting ++ " levels"

end Reply

def Ending.readError : Ending → Reply.ReadError
  | .closed => .unexpectedEnd
  | .failed cause =>
      match cause.kind with
      | .unexpectedEnd => .unexpectedEnd
      | .other _ => .io cause

namespace Reply

-- A reader leaves the rest of the stream, also when it fails.
abbrev Reader := ExceptT ReadError (StateM Stream)

namespace Reader

def run {α : Type} (reader : Reader α) (stream : Stream) : Except ReadError α × Stream :=
  reader stream

def byte : Reader UInt8 := fun stream =>
  match stream.bytes with
  | [] => (.error stream.ending.readError, stream)
  | first :: rest => (.ok first, { stream with bytes := rest })

-- The given number of bytes. A stream that holds fewer is used up.
def take (count : Nat) : Reader Bytes := fun stream =>
  let data := stream.bytes.take count
  if data.length < count then (.error stream.ending.readError, { stream with bytes := [] })
  else (.ok data, { stream with bytes := stream.bytes.drop count })

-- `kept` is the line so far, newest byte first, and `size` is its length.
def lineFrom (ending : Ending) (kept : Bytes) (size : Nat) :
    Bytes → Except ReadError Bytes × Bytes
  | [] => (.error ending.readError, [])
  | byte :: rest =>
      if byte = Bytes.lineFeed ∧ kept.head? = some Bytes.carriageReturn then
        (.ok kept.tail.reverse, rest)
      else if maxLine ≤ size then (.error .lineTooLong, rest)
      else lineFrom ending (byte :: kept) (size + 1) rest

-- The bytes up to the next line end, which is taken too.
def line : Reader Bytes := fun stream =>
  let (outcome, rest) := lineFrom stream.ending [] 0 stream.bytes
  (outcome, { stream with bytes := rest })

def textLine : Reader String := do
  match Bytes.toText? (← line) with
  | some text => return text
  | none => throw .invalidText

def integerLine : Reader Int64 := do
  let text ← textLine
  match Decimal.toInt64? (Bytes.ofText text) with
  | some value => return value
  | none => throw (.invalidInteger text)

-- What follows the sigil of a bulk string.
def bulkBody : Reader Reply := do
  let length ← integerLine
  if length.toInt = -1 then
    pure .nil
  else if length.toInt < 0 ∨ maxBulk < length.toInt then
    throw (.invalidLength length)
  else
    let data ← take length.toInt.toNat
    let ending ← take Bytes.crlf.length
    if ending = Bytes.crlf then pure (.bulk data) else throw .missingLineEnd

-- A reply that is complete in itself, or the header of an array with items to come.
inductive Frame where
  | complete (reply : Reply)
  | header (count : Nat)

-- What follows the sigil of an array.
def arrayHeader : Reader Frame := do
  let count ← integerLine
  if count.toInt = -1 then pure (.complete .nilArray)
  else if count.toInt = 0 then pure (.complete (.array []))
  else if count.toInt < 0 then throw (.invalidLength count)
  else pure (.header count.toInt.toNat)

def frameBody (sigil : UInt8) : Reader Frame :=
  if sigil = Sigil.simple then do return .complete (.simple (← textLine))
  else if sigil = Sigil.error then do return .complete (.error (← textLine))
  else if sigil = Sigil.integer then do return .complete (.integer (← integerLine))
  else if sigil = Sigil.bulk then do return .complete (← bulkBody)
  else if sigil = Sigil.array then arrayHeader
  else throw (.unknownSigil sigil)

def frame : Reader Frame := do
  let sigil ← byte
  frameBody sigil

-- A reader never gives bytes back.
def Forward {α : Type} (reader : Reader α) : Prop :=
  ∀ stream, (reader.run stream).2.bytes.length ≤ stream.bytes.length

theorem run_bind {α β : Type} (reader : Reader α) (next : α → Reader β) (stream : Stream) :
    (reader >>= next).run stream =
      match reader.run stream with
      | (.ok value, rest) => (next value).run rest
      | (.error cause, rest) => (.error cause, rest) := by
  simp only [run, bind, ExceptT.bind, ExceptT.mk, StateT.bind, ExceptT.bindCont]
  rcases reader stream with ⟨_ | _, rest⟩ <;> rfl

theorem forward_bind {α β : Type} {reader : Reader α} {next : α → Reader β}
    (hreader : Forward reader) (hnext : ∀ value, Forward (next value)) :
    Forward (reader >>= next) := by
  intro stream
  rw [run_bind]
  have h := hreader stream
  revert h
  rcases reader.run stream with ⟨_ | value, rest⟩
  · exact id
  · exact Nat.le_trans (hnext value rest)

theorem forward_pure {α : Type} (value : α) : Forward (pure value) := fun _ => Nat.le_refl _

theorem forward_throw {α : Type} (cause : ReadError) : Forward (throw cause : Reader α) :=
  fun _ => Nat.le_refl _

theorem forward_take (count : Nat) : Forward (take count) := by
  intro stream
  simp only [run, take]
  split <;> simp

theorem lineFrom_length_le (ending : Ending) (kept : Bytes) (size : Nat) (bytes : Bytes) :
    (lineFrom ending kept size bytes).2.length ≤ bytes.length := by
  induction bytes generalizing kept size with
  | nil => simp [lineFrom]
  | cons byte rest ih =>
      simp only [lineFrom]
      split
      · simp
      · split
        · simp
        · exact Nat.le_succ_of_le (ih _ _)

theorem forward_line : Forward line := fun _ => lineFrom_length_le _ _ _ _

theorem forward_textLine : Forward textLine := by
  refine forward_bind forward_line fun bytes => ?_
  split
  · exact forward_pure _
  · exact forward_throw _

theorem forward_integerLine : Forward integerLine := by
  refine forward_bind forward_textLine fun text => ?_
  split
  · exact forward_pure _
  · exact forward_throw _

theorem forward_bulkBody : Forward bulkBody := by
  refine forward_bind forward_integerLine fun length => ?_
  split
  · exact forward_pure _
  · split
    · exact forward_throw _
    · refine forward_bind (forward_take _) fun data => forward_bind (forward_take _) fun ending => ?_
      split
      · exact forward_pure _
      · exact forward_throw _

theorem forward_arrayHeader : Forward arrayHeader := by
  refine forward_bind forward_integerLine fun count => ?_
  split
  · exact forward_pure _
  split
  · exact forward_pure _
  split
  · exact forward_throw _
  · exact forward_pure _

theorem forward_frameBody (sigil : UInt8) : Forward (frameBody sigil) := by
  simp only [frameBody]
  split
  · exact forward_bind forward_textLine fun _ => forward_pure _
  split
  · exact forward_bind forward_textLine fun _ => forward_pure _
  split
  · exact forward_bind forward_integerLine fun _ => forward_pure _
  split
  · exact forward_bind forward_bulkBody fun _ => forward_pure _
  split
  · exact forward_arrayHeader
  · exact forward_throw _

-- Every frame takes at least its sigil.
theorem frame_length_lt {stream rest : Stream} {value : Frame}
    (h : frame.run stream = (.ok value, rest)) : rest.bytes.length < stream.bytes.length := by
  rw [frame, run_bind] at h
  rcases hbytes : stream.bytes with _ | ⟨sigil, bytes⟩
  · simp [run, byte, hbytes] at h
  · simp only [byte, run, hbytes] at h
    have hforward := forward_frameBody sigil { stream with bytes := bytes }
    rw [run, h] at hforward
    exact Nat.lt_succ_of_le hforward

-- An array whose header has been read. Its items so far stand newest first.
structure OpenArray where
  missing : Nat
  items : List Reply

-- Puts a complete value into the innermost open array. An array that gets its last item
-- this way is complete itself and goes on to the array around it.
def close (value : Reply) : List OpenArray → Reply ⊕ List OpenArray
  | [] => .inl value
  | inner :: outer =>
      if inner.missing ≤ 1 then close (.array (value :: inner.items).reverse) outer
      else .inr (⟨inner.missing - 1, value :: inner.items⟩ :: outer)

-- Reads frames until the outermost array, or a value outside all arrays, is complete.
def assemble (opened : List OpenArray) : Reader Reply := fun stream =>
  match h : frame.run stream with
  | (.error cause, rest) => (.error cause, rest)
  | (.ok (.header count), rest) =>
      if maxNesting ≤ opened.length then (.error .nestingTooDeep, rest)
      else
        have : rest.bytes.length < stream.bytes.length := frame_length_lt h
        assemble (⟨count, []⟩ :: opened) rest
  | (.ok (.complete value), rest) =>
      match close value opened with
      | .inl reply => (.ok reply, rest)
      | .inr stillOpen =>
          have : rest.bytes.length < stream.bytes.length := frame_length_lt h
          assemble stillOpen rest
termination_by stream => stream.bytes.length

end Reader

-- Exactly one reply, and not a byte more.
def read : Reader Reply := Reader.assemble []

end Reply

end KeyValue
