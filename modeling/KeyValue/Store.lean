import KeyValue.Keyspace

namespace KeyValue

inductive StoreError where
  | wrongType
  | noSuchKey
  | indexOutOfRange
  | invalidExpire
deriving DecidableEq

def StoreError.message : StoreError → String
  | .wrongType => "WRONGTYPE Operation against a key holding the wrong kind of value"
  | .noSuchKey => "ERR no such key"
  | .indexOutOfRange => "ERR index out of range"
  | .invalidExpire => "ERR invalid expire time"

-- A keyspace, and the number of keys that have ever been evicted from it because they were due.
-- That number has no bound here, where a word of 64 bits would start again from zero.
structure Store where
  keyspace : Keyspace
  evicted : Nat
deriving DecidableEq

namespace Store

def empty : Store := ⟨.empty, 0⟩

instance : Inhabited Store := ⟨empty⟩

structure Stats where
  strings : Nat
  lists : Nat
  hashes : Nat
  expiring : Nat
  evicted : Nat
deriving DecidableEq

def Stats.keys (stats : Stats) : Nat := stats.strings + stats.lists + stats.hashes

-- Looking at the counts evicts nothing, so keys that are due still count.
def stats (store : Store) : Stats where
  strings := store.keyspace.data.strings.size
  lists := store.keyspace.data.lists.size
  hashes := store.keyspace.data.hashes.size
  expiring := store.keyspace.deadlines.size
  evicted := store.evicted

def evict (now : Nat) (key : Bytes) (store : Store) : Store where
  keyspace := store.keyspace.evict now key
  evicted := store.evicted + if store.keyspace.isDue now key then 1 else 0

-- Evicts every key that is due, and tells how many there were.
def purge (now : Nat) (store : Store) : Nat × Store :=
  let due := store.keyspace.dueKeys now
  (due.length, ⟨store.keyspace.purge now, store.evicted + due.length⟩)

-- Every operation on a key first evicts the key if it is due.
def onKey {α : Type} (now : Nat) (key : Bytes) (act : Keyspace → α × Keyspace)
    (store : Store) : α × Store :=
  let store := store.evict now key
  let (answer, keyspace) := act store.keyspace
  (answer, { store with keyspace := keyspace })

-- An operation on values of one kind. It fails on a key of another kind, before it changes
-- anything, and a key without a value suits every kind.
def typed {α : Type} (kind : Kind) (now : Nat) (key : Bytes)
    (act : Keyspace → Except StoreError α × Keyspace) (store : Store) :
    Except StoreError α × Store :=
  store.onKey now key fun keyspace =>
    match keyspace.kind? key with
    | some other => if other = kind then act keyspace else (.error .wrongType, keyspace)
    | none => act keyspace

-- A typed operation that only reads.
def typedRead {α : Type} (kind : Kind) (now : Nat) (key : Bytes) (read : Keyspace → α)
    (store : Store) : Except StoreError α × Store :=
  store.typed kind now key fun keyspace => (.ok (read keyspace), keyspace)

end Store

end KeyValue
