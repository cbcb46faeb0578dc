import KeyValue.Bytes

namespace KeyValue.Decimal

-- Plain decimal numerals: no leading zeros, and a minus sign where the value is negative.

def digits (n : Nat) : List Char := Nat.toDigits 10 n

def chars (n : Int) : List Char :=
  if n < 0 then '-' :: digits n.natAbs else digits n.natAbs

def text (n : Int) : String := String.ofList (chars n)

def bytes (n : Int) : Bytes := (chars n).map fun char => char.toNat.toUInt8

def isDigit (byte : UInt8) : Bool := 48 ≤ byte && byte ≤ 57

def valueFrom (start : Nat) (numeral : Bytes) : Nat :=
  numeral.foldl (fun value byte => 10 * value + (byte.toNat - 48)) start

-- The value of one or more digits. Leading zeros are allowed.
def toNat? (numeral : Bytes) : Option Nat :=
  if numeral ≠ [] ∧ numeral.all isDigit then some (valueFrom 0 numeral) else none

-- Digits after at most one sign.
def toInt? : Bytes → Option Int
  | 43 :: numeral => (toNat? numeral).map Int.ofNat
  | 45 :: numeral => (toNat? numeral).map fun n => -Int.ofNat n
  | numeral => (toNat? numeral).map Int.ofNat

def toInt64? (numeral : Bytes) : Option Int64 :=
  match toInt? numeral with
  | some n =>
      if Int64.minValue.toInt ≤ n ∧ n ≤ Int64.maxValue.toInt then some (Int64.ofInt n) else none
  | none => none

-- Unsigned 64-bit values, from digits alone.
def toSize? (numeral : Bytes) : Option Nat := (toNat? numeral).filter (· < UInt64.size)

end KeyValue.Decimal
