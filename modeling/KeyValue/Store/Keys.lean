import KeyValue.Glob
import KeyValue.Store

namespace KeyValue.Store

-- The counter of evictions goes on.
def flushAll (store : Store) : Store := { store with keyspace := .empty }

-- All keys that match, in byte order.
def keys (now : Nat) (pattern : Bytes) (store : Store) : List Bytes × Store :=
  let (_, store) := store.purge now
  (Bytes.sort (store.keyspace.data.keys.filter (Glob.accepts pattern)), store)

def kind? (now : Nat) (key : Bytes) (store : Store) : Option Kind × Store :=
  store.onKey now key fun keyspace => (keyspace.kind? key, keyspace)

-- Tells whether there was a value to delete.
def delete (now : Nat) (key : Bytes) (store : Store) : Bool × Store :=
  store.onKey now key fun keyspace => ((keyspace.kind? key).isSome, keyspace.erase key)

-- With no seconds left, or fewer, the key is due at once.
def deadline? (now : Nat) (seconds : Int64) : Option Nat :=
  if seconds.toInt < 0 then some now else Clock.after? now seconds.toInt.toNat

-- The deadline is computed first. One that does not exist leaves everything as it is.
def expire (now : Nat) (key : Bytes) (seconds : Int64) (store : Store) :
    Except StoreError Unit × Store :=
  match deadline? now seconds with
  | none => (.error .invalidExpire, store)
  | some deadline =>
      store.onKey now key fun keyspace =>
        match keyspace.kind? key with
        | none => (.error .noSuchKey, keyspace)
        | some _ =>
            (.ok (), { keyspace with deadlines := keyspace.deadlines.insert key deadline })

def moveEntry {α : Type} (old new : Bytes) (map : ByteMap α) : ByteMap α :=
  match map.get? old with
  | some value => (map.erase old).insert new value
  | none => map

def moveValue (kind : Kind) (old new : Bytes) (data : Namespaces) : Namespaces :=
  match kind with
  | .string => { data with strings := moveEntry old new data.strings }
  | .list => { data with lists := moveEntry old new data.lists }
  | .hash => { data with hashes := moveEntry old new data.hashes }

-- Whatever the new key held is gone, with its deadline, before the value moves there.
def moveKey (kind : Kind) (old new : Bytes) (keyspace : Keyspace) : Keyspace :=
  let keyspace := keyspace.erase new
  { data := moveValue kind old new keyspace.data
    deadlines := moveEntry old new keyspace.deadlines }

def rename (now : Nat) (old new : Bytes) (store : Store) : Except StoreError Unit × Store :=
  let store := (store.evict now old).evict now new
  match store.keyspace.kind? old with
  | none => (.error .noSuchKey, store)
  | some kind =>
      if old = new then (.ok (), store)
      else (.ok (), { store with keyspace := moveKey kind old new store.keyspace })

-- The values of all keys that are not due.
def snapshot (now : Nat) (store : Store) : Namespaces × Store :=
  let (_, store) := store.purge now
  (store.keyspace.data, store)

-- Takes the place of everything stored. No key has a deadline afterwards.
def restore (data : Namespaces) (store : Store) : Store :=
  { store with keyspace := ⟨data, .empty⟩ }

end KeyValue.Store
