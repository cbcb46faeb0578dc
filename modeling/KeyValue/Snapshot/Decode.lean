import KeyValue.Snapshot.Encode

namespace KeyValue.Snapshot

inductive Value where
  | string (value : Bytes)
  | list (items : List Bytes)
  | hash (fields : ByteMap Bytes)
deriving DecidableEq

structure Record where
  key : Bytes
  value : Value
deriving DecidableEq

-- A field and its value, parted by the first colon.
def field? (token : Bytes) : Option (Bytes × Bytes) :=
  match token.dropWhile (· ≠ colon) with
  | [] => none
  | _ :: value => some (unescape (token.takeWhile (· ≠ colon)), unescape value)

def fields? (tokens : List Bytes) : Option (ByteMap Bytes) :=
  (tokens.mapM field?).map ByteMap.ofList

-- For a string, tokens after the first are ignored, and a missing one stands for the empty
-- string. A field that is set twice keeps its last value.
def value? (tag : UInt8) (tokens : List Bytes) : Option Value :=
  if tag = stringTag then some (.string ((tokens.head?.map unescape).getD []))
  else if tag = listTag then some (.list (tokens.map unescape))
  else if tag = hashTag then (fields? tokens).map .hash
  else none

-- A line without a key, with an unknown tag or with a field that has no colon is malformed.
def record? (line : Bytes) : Option Record :=
  match line.splitOn Bytes.space with
  | (tag :: byte :: key) :: tokens =>
      (value? tag tokens).map fun value => ⟨unescape (byte :: key), value⟩
  | _ => none

-- How many lines gave a string, a list or a hash, and how many were malformed.
structure Counts where
  strings : Nat
  lists : Nat
  hashes : Nat
  skipped : Nat
deriving DecidableEq

namespace Counts

def zero : Counts := ⟨0, 0, 0, 0⟩

def keys (counts : Counts) : Nat := counts.strings + counts.lists + counts.hashes

def skip (counts : Counts) : Counts := { counts with skipped := counts.skipped + 1 }

-- An empty list or hash gives no key.
def add (counts : Counts) : Value → Counts
  | .string _ => { counts with strings := counts.strings + 1 }
  | .list items =>
      if items.isEmpty then counts else { counts with lists := counts.lists + 1 }
  | .hash fields =>
      if fields.isEmpty then counts else { counts with hashes := counts.hashes + 1 }

end Counts

-- A record takes the place of everything that earlier ones put under its key. An empty list
-- or hash only removes that.
def Record.store (record : Record) (data : Namespaces) : Namespaces :=
  let data := data.erase record.key
  match record.value with
  | .string value => { data with strings := data.strings.insert record.key value }
  | .list items =>
      if items.isEmpty then data
      else { data with lists := data.lists.insert record.key items }
  | .hash fields =>
      if fields.isEmpty then data
      else { data with hashes := data.hashes.insert record.key fields }

-- What the lines so far have given.
structure Loaded where
  data : Namespaces
  counts : Counts
deriving DecidableEq

def Loaded.line (loaded : Loaded) (line : Bytes) : Loaded :=
  if line.isEmpty then loaded
  else
    match record? line with
    | some record => ⟨record.store loaded.data, loaded.counts.add record.value⟩
    | none => { loaded with counts := loaded.counts.skip }

-- Decoding never fails. Malformed lines are counted and have no other effect.
def decode (contents : Bytes) : Loaded :=
  (contents.splitOn Bytes.lineFeed).foldl Loaded.line ⟨.empty, .zero⟩

end KeyValue.Snapshot
