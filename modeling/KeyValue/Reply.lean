import KeyValue.Decimal

namespace KeyValue

-- What the server answers to one request. Arrays may nest, although every command answers
-- with at most one level of them.
inductive Reply where
  | simple (text : String)
  | error (text : String)
  | integer (value : Int64)
  | bulk (data : Bytes)
  | nil
  | array (items : List Reply)
  | nilArray
deriving Repr, BEq, Inhabited

namespace Reply

def ok : Reply := .simple "OK"

def pong : Reply := .simple "PONG"

def ofOption : Option Bytes → Reply
  | some data => .bulk data
  | none => .nil

def ofBytesList (items : List Bytes) : Reply := .array (items.map .bulk)

def ofLength (length : Nat) : Reply := .integer (Int64.ofNat length)

def ofBool (answer : Bool) : Reply := .integer (if answer then 1 else 0)

def isNil : Reply → Bool
  | .nil | .nilArray => true
  | _ => false

def isError : Reply → Bool
  | .error _ => true
  | _ => false

-- The text of a simple string, or of a bulk string that is well-formed UTF-8.
def text? : Reply → Option String
  | .simple text => some text
  | .bulk data => Bytes.toText? data
  | _ => none

def items? : Reply → Option (List Reply)
  | .array items => some items
  | _ => none

end Reply

end KeyValue
