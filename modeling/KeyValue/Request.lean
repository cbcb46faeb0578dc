import KeyValue.Reply.Wire

namespace KeyValue.Request

-- A request is a list of byte strings, called its tokens. On the wire it is either an array
-- of bulk strings or, if it does not start with the array sigil, words between blanks.

def encode (tokens : List Bytes) : Bytes :=
  Wire.line Sigil.array (Decimal.bytes tokens.length) ++ tokens.flatMap Wire.bulk

-- The index of the first line end, counted from `start`.
def lineEndFrom (start : Nat) : Bytes → Option Nat
  | [] => none
  | [_] => none
  | first :: second :: rest =>
      if first = Bytes.carriageReturn ∧ second = Bytes.lineFeed then some start
      else lineEndFrom (start + 1) (second :: rest)

def lineEnd? (bytes : Bytes) : Option Nat := lineEndFrom 0 bytes

-- Sizes and positions are unsigned 64-bit numbers. Lengths come from the peer, so a sum
-- that does not fit is a malformed element and never wraps around.
def addSizes? (a b : Nat) : Option Nat := if a + b < UInt64.size then some (a + b) else none

-- A sigil, a numeral and a line end: the numeral's value and the size of the whole.
def header? (sigil : UInt8) : Bytes → Option (Nat × Nat)
  | [] => none
  | first :: rest =>
      if first = sigil then do
        let stop ← lineEnd? rest
        let value ← Decimal.toSize? (rest.take stop)
        return (value, 1 + stop + Bytes.crlf.length)
      else none

-- Where the parts of a bulk string of the given length end, after a header of the given size.
structure Extent where
  dataStart : Nat
  dataEnd : Nat
  stop : Nat
deriving DecidableEq

def extent? (start length : Nat) : Option Extent := do
  let dataEnd ← addSizes? start length
  let stop ← addSizes? dataEnd Bytes.crlf.length
  return ⟨start, dataEnd, stop⟩

-- One bulk string at the front: its data and the bytes after it. An element that is cut off
-- is no element.
def element? (bytes : Bytes) : Option (Bytes × Bytes) := do
  let (length, start) ← header? Sigil.bulk bytes
  let extent ← extent? start length
  let frame := bytes.take extent.stop
  if frame.length = extent.stop ∧ frame.drop extent.dataEnd = Bytes.crlf then
    return ((frame.take extent.dataEnd).drop extent.dataStart, bytes.drop extent.stop)
  else none

-- At most `count` elements, up to the first that is malformed or cut off.
def elements : Nat → Bytes → List Bytes
  | 0, _ => []
  | count + 1, bytes =>
      match element? bytes with
      | some (token, rest) => token :: elements count rest
      | none => []

def ofArray (bytes : Bytes) : List Bytes :=
  match header? Sigil.array bytes with
  | some (count, start) => elements count (bytes.drop start)
  | none => []

-- Space, tab, line feed, form feed and carriage return.
def isBlank (byte : UInt8) : Bool :=
  byte = 32 || byte = 9 || byte = 10 || byte = 12 || byte = 13

def ofWords (bytes : Bytes) : List Bytes := (bytes.splitWhere isBlank).filter (· ≠ [])

-- Decoding never fails. From a malformed or truncated array it keeps the tokens before the
-- fault, and whether those are enough is for the command to say.
def decode (bytes : Bytes) : List Bytes :=
  if bytes.head? = some Sigil.array then ofArray bytes else ofWords bytes

end KeyValue.Request
