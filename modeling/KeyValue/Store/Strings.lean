import KeyValue.Store

namespace KeyValue.Store

-- A new value has no deadline.
def set (now : Nat) (key value : Bytes) (store : Store) : Except StoreError Unit × Store :=
  store.typed .string now key fun keyspace =>
    (.ok (), { keyspace.setString key value with deadlines := keyspace.deadlines.erase key })

def get (now : Nat) (key : Bytes) (store : Store) :
    Except StoreError (Option Bytes) × Store :=
  store.typedRead .string now key fun keyspace => keyspace.data.strings.get? key

end KeyValue.Store
