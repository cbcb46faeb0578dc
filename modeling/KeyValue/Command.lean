import KeyValue.Store.Lists

namespace KeyValue

-- The names under which commands are called.
inductive Verb where
  | ping | echo | flushAll | keys | type | del | unlink | expire | rename
  | set | get
  | lpush | rpush | lpop | rpop | llen | lget | lrem | lindex | lset
  | hset | hget | hexists | hdel | hgetall | hkeys | hvals | hlen | hmset
deriving DecidableEq

namespace Verb

def all : List Verb := [
  .ping, .echo, .flushAll, .keys, .type, .del, .unlink, .expire, .rename,
  .set, .get,
  .lpush, .rpush, .lpop, .rpop, .llen, .lget, .lrem, .lindex, .lset,
  .hset, .hget, .hexists, .hdel, .hgetall, .hkeys, .hvals, .hlen, .hmset]

def name : Verb → String
  | .ping => "PING"
  | .echo => "ECHO"
  | .flushAll => "FLUSHALL"
  | .keys => "KEYS"
  | .type => "TYPE"
  | .del => "DEL"
  | .unlink => "UNLINK"
  | .expire => "EXPIRE"
  | .rename => "RENAME"
  | .set => "SET"
  | .get => "GET"
  | .lpush => "LPUSH"
  | .rpush => "RPUSH"
  | .lpop => "LPOP"
  | .rpop => "RPOP"
  | .llen => "LLEN"
  | .lget => "LGET"
  | .lrem => "LREM"
  | .lindex => "LINDEX"
  | .lset => "LSET"
  | .hset => "HSET"
  | .hget => "HGET"
  | .hexists => "HEXISTS"
  | .hdel => "HDEL"
  | .hgetall => "HGETALL"
  | .hkeys => "HKEYS"
  | .hvals => "HVALS"
  | .hlen => "HLEN"
  | .hmset => "HMSET"

def lowerName (verb : Verb) : String := String.ofList (verb.name.toList.map Char.toLower)

def ofName? (name : String) : Option Verb := all.find? (·.name == name)

end Verb

-- A request with its arguments understood. DEL and UNLINK are the same command.
inductive Command where
  | ping
  | echo (message : Bytes)
  | flushAll
  | keys (pattern : Bytes)
  | type (key : Bytes)
  | delete (key : Bytes)
  | expire (key : Bytes) (seconds : Int64)
  | rename (old new : Bytes)
  | set (key value : Bytes)
  | get (key : Bytes)
  | push (side : Store.Side) (key : Bytes) (values : List Bytes)
  | pop (side : Store.Side) (key : Bytes)
  | listLength (key : Bytes)
  | listItems (key : Bytes)
  | listRemove (key : Bytes) (count : Int64) (value : Bytes)
  | listIndex (key : Bytes) (index : Int64)
  | listSet (key : Bytes) (index : Int64) (value : Bytes)
  | setField (key field value : Bytes)
  | setFields (key : Bytes) (pairs : List (Bytes × Bytes))
  | getField (key field : Bytes)
  | hasField (key field : Bytes)
  | deleteField (key field : Bytes)
  | hashPairs (key : Bytes)
  | hashFields (key : Bytes)
  | hashValues (key : Bytes)
  | hashSize (key : Bytes)
deriving DecidableEq

end KeyValue
