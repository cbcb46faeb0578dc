import KeyValue.Reply

namespace KeyValue.Reply

-- Replies as a person reads them: numbered array items on lines of their own, and the size
-- in place of data that is not text. Nested arrays are not indented.

mutual

def display : Reply → String
  | .simple text => text
  | .error text => "(error) " ++ text
  | .integer value => "(integer) " ++ Decimal.text value.toInt
  | .bulk data =>
      match Bytes.toText? data with
      | some text => "\"" ++ text ++ "\""
      | none => "(binary data, " ++ Decimal.text data.length ++ " bytes)"
  | .nil | .nilArray => "(nil)"
  | .array [] => "(empty array)"
  | .array items => String.intercalate "\n" (displayItems 1 items)

def displayItems (number : Nat) : List Reply → List String
  | [] => []
  | item :: rest =>
      (Decimal.text number ++ ") " ++ display item) :: displayItems (number + 1) rest

end

end KeyValue.Reply
