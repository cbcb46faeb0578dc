import KeyValue.Reply

namespace KeyValue

-- The first byte of a frame tells its kind.
namespace Sigil

def simple : UInt8 := 43
def error : UInt8 := 45
def integer : UInt8 := 58
def bulk : UInt8 := 36
def array : UInt8 := 42

end Sigil

namespace Wire

def line (sigil : UInt8) (body : Bytes) : Bytes := sigil :: (body ++ Bytes.crlf)

-- The data may hold any bytes, line ends too, because its length goes before it.
def bulk (data : Bytes) : Bytes :=
  line Sigil.bulk (Decimal.bytes data.length) ++ (data ++ Bytes.crlf)

end Wire

namespace Reply

mutual

def encode : Reply → Bytes
  | .simple text => Wire.line Sigil.simple (Bytes.ofText text)
  | .error text => Wire.line Sigil.error (Bytes.ofText text)
  | .integer value => Wire.line Sigil.integer (Decimal.bytes value.toInt)
  | .bulk data => Wire.bulk data
  | .nil => Wire.line Sigil.bulk (Decimal.bytes (-1))
  | .array items => Wire.line Sigil.array (Decimal.bytes items.length) ++ encodeAll items
  | .nilArray => Wire.line Sigil.array (Decimal.bytes (-1))

def encodeAll : List Reply → Bytes
  | [] => []
  | item :: rest => encode item ++ encodeAll rest

end

end Reply

end KeyValue
