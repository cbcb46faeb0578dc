import KeyValue.ByteMap
import KeyValue.Clock

namespace KeyValue

inductive Kind where
  | string
  | list
  | hash
deriving DecidableEq

def Kind.name : Kind → String
  | .string => "string"
  | .list => "list"
  | .hash => "hash"

-- The stored values, one map for each kind. Nothing here keeps a key from standing in
-- several maps, or a list or hash from being empty. The store's operations see to that.
structure Namespaces where
  strings : ByteMap Bytes
  lists : ByteMap (List Bytes)
  hashes : ByteMap (ByteMap Bytes)
deriving DecidableEq

namespace Namespaces

def empty : Namespaces := ⟨.empty, .empty, .empty⟩

instance : Inhabited Namespaces := ⟨empty⟩

def size (data : Namespaces) : Nat := data.strings.size + data.lists.size + data.hashes.size

-- The kind of the value under a key. The first map that has the key decides.
def kind? (data : Namespaces) (key : Bytes) : Option Kind :=
  if data.strings.contains key then some .string
  else if data.lists.contains key then some .list
  else if data.hashes.contains key then some .hash
  else none

def erase (data : Namespaces) (key : Bytes) : Namespaces where
  strings := data.strings.erase key
  lists := data.lists.erase key
  hashes := data.hashes.erase key

-- Keys of all kinds. A key in several maps is listed several times.
def keys (data : Namespaces) : List Bytes :=
  data.strings.keys ++ data.lists.keys ++ data.hashes.keys

end Namespaces

-- The values, and the instants at which some of the keys cease to exist.
structure Keyspace where
  data : Namespaces
  deadlines : ByteMap Nat
deriving DecidableEq

namespace Keyspace

def empty : Keyspace := ⟨.empty, .empty⟩

instance : Inhabited Keyspace := ⟨empty⟩

def kind? (keyspace : Keyspace) (key : Bytes) : Option Kind := keyspace.data.kind? key

def erase (keyspace : Keyspace) (key : Bytes) : Keyspace where
  data := keyspace.data.erase key
  deadlines := keyspace.deadlines.erase key

-- A key is due from its deadline on.
def isDue (keyspace : Keyspace) (now : Nat) (key : Bytes) : Bool :=
  match keyspace.deadlines.get? key with
  | some deadline => deadline ≤ now
  | none => false

-- A key that is due is gone before anything looks at it.
def evict (keyspace : Keyspace) (now : Nat) (key : Bytes) : Keyspace :=
  if keyspace.isDue now key then keyspace.erase key else keyspace

def dueKeys (keyspace : Keyspace) (now : Nat) : List Bytes :=
  (keyspace.deadlines.filter fun _ deadline => deadline ≤ now).keys

def purge (keyspace : Keyspace) (now : Nat) : Keyspace :=
  (keyspace.dueKeys now).foldl erase keyspace

def setString (keyspace : Keyspace) (key value : Bytes) : Keyspace :=
  { keyspace with data.strings := keyspace.data.strings.insert key value }

-- The list under a key, empty if there is none.
def listAt (keyspace : Keyspace) (key : Bytes) : List Bytes :=
  (keyspace.data.lists.get? key).getD []

def setList (keyspace : Keyspace) (key : Bytes) (items : List Bytes) : Keyspace :=
  { keyspace with data.lists := keyspace.data.lists.insert key items }

-- The fields of the hash under a key, none if there is no hash.
def hashAt (keyspace : Keyspace) (key : Bytes) : ByteMap Bytes :=
  (keyspace.data.hashes.get? key).getD .empty

def setHash (keyspace : Keyspace) (key : Bytes) (fields : ByteMap Bytes) : Keyspace :=
  { keyspace with data.hashes := keyspace.data.hashes.insert key fields }

-- Stores what is left of a list after a removal. The key goes when nothing is left.
def keepList (keyspace : Keyspace) (key : Bytes) (items : List Bytes) : Keyspace :=
  if items.isEmpty then keyspace.erase key else keyspace.setList key items

def keepHash (keyspace : Keyspace) (key : Bytes) (fields : ByteMap Bytes) : Keyspace :=
  if fields.isEmpty then keyspace.erase key else keyspace.setHash key fields

end Keyspace

end KeyValue
