import KeyValue.Command
import KeyValue.Decimal
import KeyValue.Text.Lossy

namespace KeyValue

-- Why a request is not a command. None of these ever reaches the store.
inductive Refusal where
  | empty
  | unknown (name : String)
  | wrongArity (verb : Verb)
  | notAnInteger
deriving DecidableEq

-- The name of an unknown command comes from the client. Errors are lines, so line ends in
-- the name become spaces.
def Text.oneLine (text : String) : String :=
  String.ofList (text.toList.map fun char => if char = '\r' ∨ char = '\n' then ' ' else char)

def Refusal.message : Refusal → String
  | .empty => "ERR empty command"
  | .unknown name => "ERR unknown command '" ++ Text.oneLine name ++ "'"
  | .wrongArity verb =>
      "ERR wrong number of arguments for '" ++ verb.lowerName ++ "' command"
  | .notAnInteger => "ERR value is not an integer or out of range"

namespace Command

-- Arguments taken two by two. An odd number of them does not pair up.
def pairs? : List Bytes → Option (List (Bytes × Bytes))
  | [] => some []
  | [_] => none
  | first :: second :: rest => (pairs? rest).map ((first, second) :: ·)

def integer (argument : Bytes) : Except Refusal Int64 :=
  match Decimal.toInt64? argument with
  | some value => .ok value
  | none => .error .notAnInteger

-- Arguments beyond those a command needs are ignored, except where any number may follow.
def ofArguments (verb : Verb) (arguments : List Bytes) : Except Refusal Command :=
  match verb, arguments with
  | .ping, _ => .ok .ping
  | .echo, message :: _ => .ok (.echo message)
  | .flushAll, _ => .ok .flushAll
  | .keys, [] => .ok (.keys (Bytes.ofText "*"))
  | .keys, pattern :: _ => .ok (.keys pattern)
  | .type, key :: _ => .ok (.type key)
  | .del, key :: _ => .ok (.delete key)
  | .unlink, key :: _ => .ok (.delete key)
  | .expire, key :: seconds :: _ => (integer seconds).map (.expire key ·)
  | .rename, old :: new :: _ => .ok (.rename old new)
  | .set, key :: value :: _ => .ok (.set key value)
  | .get, key :: _ => .ok (.get key)
  | .lpush, key :: value :: values => .ok (.push .head key (value :: values))
  | .rpush, key :: value :: values => .ok (.push .tail key (value :: values))
  | .lpop, key :: _ => .ok (.pop .head key)
  | .rpop, key :: _ => .ok (.pop .tail key)
  | .llen, key :: _ => .ok (.listLength key)
  | .lget, key :: _ => .ok (.listItems key)
  | .lrem, key :: count :: value :: _ => (integer count).map (.listRemove key · value)
  | .lindex, key :: index :: _ => (integer index).map (.listIndex key ·)
  | .lset, key :: index :: value :: _ => (integer index).map (.listSet key · value)
  | .hset, key :: field :: value :: _ => .ok (.setField key field value)
  | .hget, key :: field :: _ => .ok (.getField key field)
  | .hexists, key :: field :: _ => .ok (.hasField key field)
  | .hdel, key :: field :: _ => .ok (.deleteField key field)
  | .hgetall, key :: _ => .ok (.hashPairs key)
  | .hkeys, key :: _ => .ok (.hashFields key)
  | .hvals, key :: _ => .ok (.hashValues key)
  | .hlen, key :: _ => .ok (.hashSize key)
  | .hmset, key :: field :: rest =>
      match pairs? (field :: rest) with
      | some pairs => .ok (.setFields key pairs)
      | none => .error (.wrongArity .hmset)
  | verb, _ => .error (.wrongArity verb)

-- The first token names the command, in upper or lower case. A name that is not text is
-- read with replacement characters, which no command's name has.
def parse : List Bytes → Except Refusal Command
  | [] => .error .empty
  | name :: arguments =>
      let name := String.ofList ((Text.lossy name).map Char.toUpper)
      match Verb.ofName? name with
      | some verb => ofArguments verb arguments
      | none => .error (.unknown name)

end Command

end KeyValue
