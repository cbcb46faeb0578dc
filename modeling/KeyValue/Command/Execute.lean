import KeyValue.Command.Parse
import KeyValue.Reply
import KeyValue.Store.Hashes
import KeyValue.Store.Keys
import KeyValue.Store.Strings

namespace KeyValue

namespace Reply

-- The reply to an operation that may fail.
def ofOutcome {α : Type} (render : α → Reply) : Except StoreError α → Reply
  | .ok value => render value
  | .error cause => .error cause.message

end Reply

namespace Command

-- A message that fits on a line is answered as one. Any other message keeps its bytes.
def echoReply (message : Bytes) : Reply :=
  match Bytes.toText? message with
  | some text =>
      if '\r' ∈ text.toList ∨ '\n' ∈ text.toList then .bulk message else .simple text
  | none => .bulk message

def kindReply : Option Kind → Reply
  | some kind => .simple kind.name
  | none => .simple "none"

def answer {α : Type} (reply : α → Reply) (result : α × Store) : Reply × Store :=
  (reply result.1, result.2)

def run (now : Nat) (command : Command) (store : Store) : Reply × Store :=
  match command with
  | .ping => (.pong, store)
  | .echo message => (echoReply message, store)
  | .flushAll => (.ok, store.flushAll)
  | .keys pattern => answer .ofBytesList (store.keys now pattern)
  | .type key => answer kindReply (store.kind? now key)
  | .delete key => answer .ofBool (store.delete now key)
  | .expire key seconds => answer (.ofOutcome fun _ => .ok) (store.expire now key seconds)
  | .rename old new => answer (.ofOutcome fun _ => .ok) (store.rename now old new)
  | .set key value => answer (.ofOutcome fun _ => .ok) (store.set now key value)
  | .get key => answer (.ofOutcome .ofOption) (store.get now key)
  | .push side key values => answer (.ofOutcome .ofLength) (store.push side now key values)
  | .pop side key => answer (.ofOutcome .ofOption) (store.pop side now key)
  | .listLength key => answer (.ofOutcome .ofLength) (store.listLength now key)
  | .listItems key => answer (.ofOutcome .ofBytesList) (store.listItems now key)
  | .listRemove key count value =>
      answer (.ofOutcome .ofLength) (store.listRemove now key count value)
  | .listIndex key index => answer (.ofOutcome .ofOption) (store.listIndex now key index)
  | .listSet key index value =>
      answer (.ofOutcome fun _ => .ok) (store.listSet now key index value)
  | .setField key field value =>
      -- The reply is 1 for a field that had a value too.
      answer (.ofOutcome fun _ => .integer 1) (store.setField now key field value)
  | .setFields key pairs => answer (.ofOutcome fun _ => .ok) (store.setFields now key pairs)
  | .getField key field => answer (.ofOutcome .ofOption) (store.getField now key field)
  | .hasField key field => answer (.ofOutcome .ofBool) (store.hasField now key field)
  | .deleteField key field => answer (.ofOutcome .ofBool) (store.deleteField now key field)
  | .hashPairs key =>
      answer (.ofOutcome fun pairs => .ofBytesList (pairs.flatMap fun (field, value) =>
        [field, value])) (store.hashPairs now key)
  | .hashFields key => answer (.ofOutcome .ofBytesList) (store.hashFields now key)
  | .hashValues key => answer (.ofOutcome .ofBytesList) (store.hashValues now key)
  | .hashSize key => answer (.ofOutcome .ofLength) (store.hashSize now key)

end Command

-- Every request has exactly one reply.
def Store.execute (now : Nat) (tokens : List Bytes) (store : Store) : Reply × Store :=
  match Command.parse tokens with
  | .ok command => command.run now store
  | .error refusal => (.error refusal.message, store)

end KeyValue
