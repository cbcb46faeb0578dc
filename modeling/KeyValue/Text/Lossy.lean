import KeyValue.Bytes

namespace KeyValue.Text

-- Reading arbitrary bytes as UTF-8. Well-formed sequences give their scalar value. Every
-- maximal stretch that begins a sequence but cannot be finished gives one replacement
-- character, and so does every byte that can begin no sequence.

def replacement : Char := '\uFFFD'

-- A sequence that has begun. The range for the next byte excludes overlong forms,
-- surrogates and values above U+10FFFF right after the first byte.
structure Unfinished where
  value : Nat
  missing : Nat
  low : UInt8
  high : UInt8
deriving DecidableEq

inductive Opening where
  | scalar (char : Char)
  | sequence (unfinished : Unfinished)
  | none
deriving DecidableEq

def opening (byte : UInt8) : Opening :=
  let bits := byte.toNat
  if bits < 0x80 then .scalar (Char.ofNat bits)
  else if bits < 0xC2 then .none
  else if bits < 0xE0 then .sequence ⟨bits - 0xC0, 1, 0x80, 0xBF⟩
  else if bits = 0xE0 then .sequence ⟨0, 2, 0xA0, 0xBF⟩
  else if bits = 0xED then .sequence ⟨0xD, 2, 0x80, 0x9F⟩
  else if bits < 0xF0 then .sequence ⟨bits - 0xE0, 2, 0x80, 0xBF⟩
  else if bits = 0xF0 then .sequence ⟨0, 3, 0x90, 0xBF⟩
  else if bits < 0xF4 then .sequence ⟨bits - 0xF0, 3, 0x80, 0xBF⟩
  else if bits = 0xF4 then .sequence ⟨4, 3, 0x80, 0x8F⟩
  else .none

-- The characters read so far, newest first, and the sequence that waits for its next byte.
structure Scan where
  chars : List Char
  pending : Option Unfinished
deriving DecidableEq

def Scan.begin (chars : List Char) (byte : UInt8) : Scan :=
  match opening byte with
  | .scalar char => ⟨char :: chars, none⟩
  | .sequence unfinished => ⟨chars, some unfinished⟩
  | .none => ⟨replacement :: chars, none⟩

def Scan.push (scan : Scan) (byte : UInt8) : Scan :=
  match scan.pending with
  | none => .begin scan.chars byte
  | some unfinished =>
      if unfinished.low ≤ byte ∧ byte ≤ unfinished.high then
        let value := unfinished.value * 64 + (byte.toNat - 0x80)
        if unfinished.missing ≤ 1 then ⟨Char.ofNat value :: scan.chars, none⟩
        else ⟨scan.chars, some ⟨value, unfinished.missing - 1, 0x80, 0xBF⟩⟩
      else .begin (replacement :: scan.chars) byte

def Scan.finish (scan : Scan) : List Char :=
  match scan.pending with
  | none => scan.chars.reverse
  | some _ => (replacement :: scan.chars).reverse

def lossy (bytes : Bytes) : List Char := (bytes.foldl Scan.push ⟨[], none⟩).finish

end KeyValue.Text
