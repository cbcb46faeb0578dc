import KeyValue.Keyspace
import KeyValue.Snapshot.Escape

namespace KeyValue.Snapshot

-- One line for each key: a tag for its kind, the key, and then its value, elements or
-- fields, with a space before each. Strings go first, then lists, then hashes, and each
-- kind in the byte order of its keys.

def stringTag : UInt8 := 75
def listTag : UInt8 := 76
def hashTag : UInt8 := 72

def record (tag : UInt8) (key : Bytes) (tokens : List Bytes) : Bytes :=
  tag :: (escape key ++ tokens.flatMap (Bytes.space :: ·) ++ [Bytes.lineFeed])

def fieldToken (field value : Bytes) : Bytes := escape field ++ colon :: escape value

def encodeStrings (strings : ByteMap Bytes) : Bytes :=
  strings.entries.flatMap fun (key, value) => record stringTag key [escape value]

def encodeLists (lists : ByteMap (List Bytes)) : Bytes :=
  lists.entries.flatMap fun (key, items) => record listTag key (items.map escape)

def encodeHashes (hashes : ByteMap (ByteMap Bytes)) : Bytes :=
  hashes.entries.flatMap fun (key, fields) =>
    record hashTag key (fields.entries.map fun (field, value) => fieldToken field value)

def encode (data : Namespaces) : Bytes :=
  encodeStrings data.strings ++ encodeLists data.lists ++ encodeHashes data.hashes

end KeyValue.Snapshot
