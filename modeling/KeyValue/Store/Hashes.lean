import KeyValue.Store

namespace KeyValue.Store

-- Tells whether the field is new.
def setField (now : Nat) (key field value : Bytes) (store : Store) :
    Except StoreError Bool × Store :=
  store.typed .hash now key fun keyspace =>
    let fields := keyspace.hashAt key
    (.ok !fields.contains field, keyspace.setHash key (fields.insert field value))

-- Without any fields to set, an absent key stays absent.
def setFields (now : Nat) (key : Bytes) (pairs : List (Bytes × Bytes)) (store : Store) :
    Except StoreError Unit × Store :=
  store.typed .hash now key fun keyspace =>
    if pairs.isEmpty then (.ok (), keyspace)
    else (.ok (), keyspace.setHash key ((keyspace.hashAt key).insertAll pairs))

def getField (now : Nat) (key field : Bytes) (store : Store) :
    Except StoreError (Option Bytes) × Store :=
  store.typedRead .hash now key fun keyspace => (keyspace.hashAt key).get? field

def hasField (now : Nat) (key field : Bytes) (store : Store) :
    Except StoreError Bool × Store :=
  store.typedRead .hash now key fun keyspace => (keyspace.hashAt key).contains field

-- Tells whether there was such a field.
def deleteField (now : Nat) (key field : Bytes) (store : Store) :
    Except StoreError Bool × Store :=
  store.typed .hash now key fun keyspace =>
    match keyspace.data.hashes.get? key with
    | none => (.ok false, keyspace)
    | some fields => (.ok (fields.contains field), keyspace.keepHash key (fields.erase field))

-- Fields with their values, in the byte order of the fields.
def hashPairs (now : Nat) (key : Bytes) (store : Store) :
    Except StoreError (List (Bytes × Bytes)) × Store :=
  store.typedRead .hash now key fun keyspace => (keyspace.hashAt key).entries

def hashFields (now : Nat) (key : Bytes) (store : Store) :
    Except StoreError (List Bytes) × Store :=
  store.typedRead .hash now key fun keyspace => (keyspace.hashAt key).keys

-- In byte order, as often as they occur.
def hashValues (now : Nat) (key : Bytes) (store : Store) :
    Except StoreError (List Bytes) × Store :=
  store.typedRead .hash now key fun keyspace => Bytes.sort (keyspace.hashAt key).values

def hashSize (now : Nat) (key : Bytes) (store : Store) : Except StoreError Nat × Store :=
  store.typedRead .hash now key fun keyspace => (keyspace.hashAt key).size

end KeyValue.Store
