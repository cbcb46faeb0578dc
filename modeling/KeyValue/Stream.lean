import KeyValue.Bytes

namespace KeyValue

-- What went wrong below the protocol. Only an early end of the data is told apart, because
-- a reader reports it in the same way as a closed connection.
inductive IoError.Kind where
  | unexpectedEnd
  | other (name : String)
deriving DecidableEq

structure IoError where
  kind : IoError.Kind
  text : String
deriving DecidableEq

def IoError.message (error : IoError) : String := "I/O error: " ++ error.text

-- How a stream of bytes ends: the peer closes it, or a read fails.
inductive Ending where
  | closed
  | failed (error : IoError)
deriving DecidableEq

-- All bytes that will still arrive, and what comes after them. How they are split into
-- reads does not matter to a reader that takes them one by one.
structure Stream where
  bytes : Bytes
  ending : Ending
deriving DecidableEq

end KeyValue
