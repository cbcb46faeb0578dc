import KeyValue.Bytes

namespace KeyValue.Snapshot

-- Tokens of a snapshot line. Bytes that separate tokens, fields or lines, and the percent
-- sign itself, are written as a percent sign and two hexadecimal digits. The empty token is
-- written as a percent sign alone, so no written token is empty.

def percent : UInt8 := 37
def colon : UInt8 := 58

def isReserved (byte : UInt8) : Bool :=
  byte = percent || byte = colon || byte = 32 || (9 ≤ byte && byte ≤ 13)

def hexDigit (value : UInt8) : UInt8 := if value < 10 then 48 + value else 55 + value

def escapeByte (byte : UInt8) : Bytes :=
  if isReserved byte then [percent, hexDigit (byte / 16), hexDigit (byte % 16)] else [byte]

def escape (token : Bytes) : Bytes :=
  if token.isEmpty then [percent] else token.flatMap escapeByte

-- The value of a hexadecimal digit, in upper or lower case.
def hexValue? (digit : UInt8) : Option UInt8 :=
  if 48 ≤ digit ∧ digit ≤ 57 then some (digit - 48)
  else if 65 ≤ digit ∧ digit ≤ 70 then some (digit - 55)
  else if 97 ≤ digit ∧ digit ≤ 102 then some (digit - 87)
  else none

def hexByte? (high low : UInt8) : Option UInt8 :=
  match hexValue? high, hexValue? low with
  | some high, some low => some (high * 16 + low)
  | _, _ => none

-- A percent sign that two hexadecimal digits do not follow stands for itself.
def unescapeAll : Bytes → Bytes
  | [] => []
  | [byte] => [byte]
  | [first, second] => [first, second]
  | first :: second :: third :: rest =>
      if first = percent then
        match hexByte? second third with
        | some byte => byte :: unescapeAll rest
        | none => first :: unescapeAll (second :: third :: rest)
      else first :: unescapeAll (second :: third :: rest)

def unescape (token : Bytes) : Bytes := if token = [percent] then [] else unescapeAll token

end KeyValue.Snapshot
