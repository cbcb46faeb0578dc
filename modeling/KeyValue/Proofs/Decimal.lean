import KeyValue.Decimal
import Mathlib.Data.Nat.Digits.Defs

namespace KeyValue.Decimal

-- Every number is read back from its numeral.

def byteOf (char : Char) : UInt8 := char.toNat.toUInt8

theorem bytes_natCast (n : Nat) : bytes n = (digits n).map byteOf := by
  have hnot : ¬(n : Int) < 0 := by omega
  simp only [bytes, chars, hnot, if_false, Int.natAbs_natCast]
  rfl

theorem bytes_negative {n : Int} (h : n < 0) : bytes n = 45 :: (digits n.natAbs).map byteOf := by
  simp only [bytes, chars, h, if_true, List.map_cons]
  rfl

theorem toNat_of_isDigit {char : Char} (h : char.isDigit = true) :
    48 ≤ char.toNat ∧ char.toNat ≤ 57 := by
  simp only [Char.isDigit, Bool.and_eq_true, decide_eq_true_eq, ge_iff_le,
    UInt32.le_iff_toNat_le] at h
  exact h

theorem toNat_byteOf {char : Char} (h : char.isDigit = true) :
    (byteOf char).toNat = char.toNat := by
  have hrange := toNat_of_isDigit h
  simp only [byteOf, Nat.toUInt8_eq, UInt8.toNat_ofNat']
  omega

theorem isDigit_byteOf {char : Char} (h : char.isDigit = true) : isDigit (byteOf char) = true := by
  have hrange := toNat_of_isDigit h
  have hbyte := toNat_byteOf h
  simp only [isDigit, Bool.and_eq_true, decide_eq_true_eq, UInt8.le_iff_toNat_le, hbyte]
  exact hrange

theorem isDigit_of_mem_digits {n : Nat} {char : Char} (h : char ∈ digits n) :
    char.isDigit = true :=
  Nat.isDigit_of_mem_toDigits (by decide) (by decide) h

theorem valueFrom_map_byteOf (start : Nat) {numeral : List Char}
    (h : ∀ char ∈ numeral, char.isDigit = true) :
    valueFrom start (numeral.map byteOf) = Nat.ofDigitChars 10 numeral start := by
  induction numeral generalizing start with
  | nil => rfl
  | cons char rest ih =>
      obtain ⟨hchar, hrest⟩ := List.forall_mem_cons.mp h
      calc
        valueFrom start ((char :: rest).map byteOf) =
            valueFrom (10 * start + ((byteOf char).toNat - 48)) (rest.map byteOf) := rfl
        _ = Nat.ofDigitChars 10 rest (10 * start + (char.toNat - 48)) := by
          rw [toNat_byteOf hchar, ih _ hrest]
        _ = Nat.ofDigitChars 10 (char :: rest) start := Nat.ofDigitChars_cons.symm

theorem toNat?_map_byteOf (n : Nat) : toNat? ((digits n).map byteOf) = some n := by
  have hdigit : ∀ char ∈ digits n, char.isDigit = true := fun char => isDigit_of_mem_digits
  have hall : ((digits n).map byteOf).all isDigit = true := by
    rw [List.all_map, List.all_eq_true]
    exact fun char hchar => isDigit_byteOf (hdigit char hchar)
  have hne : (digits n).map byteOf ≠ [] := by simp [digits]
  rw [toNat?, if_pos ⟨hne, hall⟩, valueFrom_map_byteOf 0 hdigit]
  exact congrArg some Nat.ofDigitChars_ten_toDigits

theorem toSize?_bytes {n : Nat} (h : n < UInt64.size) : toSize? (bytes n) = some n := by
  rw [toSize?, bytes_natCast, toNat?_map_byteOf, Option.filter_some, if_pos (decide_eq_true h)]

-- A sign is no digit, so a numeral without one is read as it stands.
theorem toInt?_of_all_isDigit {numeral : Bytes} (h : ∀ byte ∈ numeral, isDigit byte = true) :
    toInt? numeral = (toNat? numeral).map Int.ofNat := by
  unfold toInt?
  split
  · exact absurd (h 43 (List.mem_cons_self ..)) (by decide)
  · exact absurd (h 45 (List.mem_cons_self ..)) (by decide)
  · rfl

theorem isDigit_of_mem_map_byteOf {n : Nat} {byte : UInt8} (h : byte ∈ (digits n).map byteOf) :
    isDigit byte = true := by
  obtain ⟨char, hchar, rfl⟩ := List.mem_map.mp h
  exact isDigit_byteOf (isDigit_of_mem_digits hchar)

theorem toInt?_bytes (n : Int) : toInt? (bytes n) = some n := by
  by_cases hsign : n < 0
  · rw [bytes_negative hsign]
    simp only [toInt?, toNat?_map_byteOf, Option.map_some, Option.some.injEq, Int.ofNat_eq_natCast]
    omega
  · obtain ⟨k, rfl⟩ := Int.eq_ofNat_of_zero_le (Int.not_lt.mp hsign)
    rw [bytes_natCast, toInt?_of_all_isDigit fun byte => isDigit_of_mem_map_byteOf,
      toNat?_map_byteOf]
    rfl

theorem bytes_injective {m n : Int} (h : bytes m = bytes n) : m = n := by
  have hm := toInt?_bytes m
  rw [h, toInt?_bytes] at hm
  exact (Option.some.inj hm).symm

theorem toInt64?_bytes (value : Int64) : toInt64? (bytes value.toInt) = some value := by
  have hlow : Int64.minValue.toInt ≤ value.toInt := Int64.le_toInt value
  have hhigh : value.toInt ≤ Int64.maxValue.toInt := Int64.toInt_le value
  simp only [toInt64?, toInt?_bytes, hlow, hhigh, and_self, if_true, Int64.ofInt_toInt]

-- What a numeral is made of.
theorem mem_bytes {n : Int} {byte : UInt8} (h : byte ∈ bytes n) :
    byte = 45 ∨ isDigit byte = true := by
  by_cases hsign : n < 0
  · rw [bytes_negative hsign, List.mem_cons] at h
    exact h.imp_right isDigit_of_mem_map_byteOf
  · obtain ⟨k, rfl⟩ := Int.eq_ofNat_of_zero_le (Int.not_lt.mp hsign)
    rw [bytes_natCast] at h
    exact .inr (isDigit_of_mem_map_byteOf h)

theorem carriageReturn_not_mem_bytes (n : Int) : Bytes.carriageReturn ∉ bytes n := by
  intro h
  rcases mem_bytes h with heq | hdigit
  · cases heq
  · cases hdigit

theorem length_digits_le {n count : Nat} (hcount : 0 < count) (h : n < 10 ^ count) :
    (digits n).length ≤ count :=
  (Nat.length_toDigits_le_iff (by decide) hcount).mpr h

theorem length_bytes_le (value : Int64) : (bytes value.toInt).length ≤ 20 := by
  have hlow : Int64.minValue.toInt ≤ value.toInt := Int64.le_toInt value
  have hhigh : value.toInt ≤ Int64.maxValue.toInt := Int64.toInt_le value
  have hmin : Int64.minValue.toInt = -9223372036854775808 := rfl
  have hmax : Int64.maxValue.toInt = 9223372036854775807 := rfl
  have hdigits : (digits value.toInt.natAbs).length ≤ 19 :=
    length_digits_le (by decide) (by omega)
  simp only [bytes, chars, List.length_map]
  split
  · simp only [List.length_cons]
    omega
  · omega

-- One or more digits that spell the value, the most significant first. Zeros may stand in
-- front, so a value has many numerals.
structure IsNumeral (numeral : Bytes) (value : Nat) : Prop where
  nonempty : numeral ≠ []
  digits : ∀ byte ∈ numeral, 48 ≤ byte ∧ byte ≤ 57
  spells : Nat.ofDigits 10 (numeral.reverse.map fun byte => byte.toNat - 48) = value

theorem valueFrom_eq_ofDigits (start : Nat) (numeral : Bytes) :
    valueFrom start numeral =
      start * 10 ^ numeral.length +
        Nat.ofDigits 10 (numeral.reverse.map fun byte => byte.toNat - 48) := by
  induction numeral generalizing start with
  | nil => simp [valueFrom]
  | cons byte rest ih =>
      have hstep : valueFrom start (byte :: rest) =
          valueFrom (10 * start + (byte.toNat - 48)) rest := rfl
      rw [hstep, ih, List.reverse_cons, List.map_append, Nat.ofDigits_append, List.map_singleton,
        Nat.ofDigits_singleton, List.length_map, List.length_reverse, List.length_cons]
      ring

theorem toNat?_eq_some_iff {numeral : Bytes} {value : Nat} :
    toNat? numeral = some value ↔ IsNumeral numeral value := by
  have hvalue : valueFrom 0 numeral =
      Nat.ofDigits 10 (numeral.reverse.map fun byte => byte.toNat - 48) := by
    simpa using valueFrom_eq_ofDigits 0 numeral
  have hdigits : numeral.all isDigit = true ↔ ∀ byte ∈ numeral, 48 ≤ byte ∧ byte ≤ 57 := by
    simp [isDigit]
  unfold toNat?
  constructor
  · intro h
    split at h
    · rename_i hdigit
      exact ⟨hdigit.1, hdigits.mp hdigit.2, hvalue ▸ Option.some.inj h⟩
    · cases h
  · intro h
    rw [if_pos ⟨h.nonempty, hdigits.mpr h.digits⟩, hvalue, h.spells]

theorem toSize?_eq_some_iff {numeral : Bytes} {value : Nat} :
    toSize? numeral = some value ↔ IsNumeral numeral value ∧ value < UInt64.size := by
  rw [toSize?, Option.filter_eq_some_iff, toNat?_eq_some_iff, decide_eq_true_iff]

theorem isNumeral_bytes (n : Nat) : IsNumeral (bytes n) n := by
  rw [← toNat?_eq_some_iff, bytes_natCast, toNat?_map_byteOf]

theorem IsNumeral.carriageReturn_not_mem {numeral : Bytes} {value : Nat}
    (h : IsNumeral numeral value) : Bytes.carriageReturn ∉ numeral :=
  fun hmem => absurd (h.digits _ hmem) (by decide)

-- A numeral that may have a sign in front.
inductive IsSigned : Bytes → Int → Prop where
  | plain {numeral : Bytes} {value : Nat} (h : IsNumeral numeral value) : IsSigned numeral value
  | plus {numeral : Bytes} {value : Nat} (h : IsNumeral numeral value) :
      IsSigned (43 :: numeral) value
  | minus {numeral : Bytes} {value : Nat} (h : IsNumeral numeral value) :
      IsSigned (45 :: numeral) (-value)

theorem IsNumeral.isDigit {numeral : Bytes} {value : Nat} (h : IsNumeral numeral value) :
    ∀ byte ∈ numeral, isDigit byte = true := by
  intro byte hbyte
  have hrange := h.digits byte hbyte
  simpa [Decimal.isDigit] using hrange

theorem toInt?_eq_some_iff {numeral : Bytes} {value : Int} :
    toInt? numeral = some value ↔ IsSigned numeral value := by
  constructor
  · intro h
    unfold toInt? at h
    split at h
    all_goals
      obtain ⟨size, hsize, rfl⟩ := Option.map_eq_some_iff.mp h
      have hnumeral := toNat?_eq_some_iff.mp hsize
    · exact .plus hnumeral
    · exact .minus hnumeral
    · exact .plain hnumeral
  · intro h
    cases h with
    | plain h =>
        rw [toInt?_of_all_isDigit h.isDigit, toNat?_eq_some_iff.mpr h]
        rfl
    | plus h =>
        rw [toInt?, toNat?_eq_some_iff.mpr h]
        rfl
    | minus h =>
        rw [toInt?, toNat?_eq_some_iff.mpr h]
        rfl

instance (numeral : Bytes) (value : Int) : Decidable (IsSigned numeral value) :=
  decidable_of_iff _ toInt?_eq_some_iff

-- Any number of zeros in front, also with a sign.
example : IsSigned [45, 48, 48, 55] (-7) ∧ IsSigned [43, 48] 0 ∧ ¬IsSigned [43] 0 := by decide

theorem toInt64?_eq_some_iff {numeral : Bytes} {value : Int64} :
    toInt64? numeral = some value ↔ IsSigned numeral value.toInt := by
  rw [← toInt?_eq_some_iff, toInt64?]
  constructor
  · intro h
    split at h
    · rename_i n hn
      split at h
      · rename_i hrange
        cases h
        have hmax : Int64.maxValue.toInt = 9223372036854775807 := rfl
        rw [hn, Int64.toInt_ofInt_of_le hrange.1 (by omega)]
      · cases h
    · cases h
  · intro h
    rw [h]
    have hlow : Int64.minValue.toInt ≤ value.toInt := Int64.le_toInt value
    have hhigh : value.toInt ≤ Int64.maxValue.toInt := Int64.toInt_le value
    simp only [hlow, hhigh, and_self, if_true, Int64.ofInt_toInt]

theorem IsSigned.toNat_lt {numeral : Bytes} {value : Int} (h : IsSigned numeral value) :
    ∀ byte ∈ numeral, byte.toNat < 128 := by
  have hdigit : ∀ {digits : Bytes} {size : Nat}, IsNumeral digits size →
      ∀ byte ∈ digits, byte.toNat < 128 := by
    intro digits size hdigits byte hbyte
    have hle := UInt8.le_iff_toNat_le.mp (hdigits.digits byte hbyte).2
    exact Nat.lt_of_le_of_lt hle (by decide)
  cases h with
  | plain h => exact hdigit h
  | plus h => exact List.forall_mem_cons.mpr ⟨by decide, hdigit h⟩
  | minus h => exact List.forall_mem_cons.mpr ⟨by decide, hdigit h⟩

theorem IsSigned.carriageReturn_not_mem {numeral : Bytes} {value : Int}
    (h : IsSigned numeral value) : Bytes.carriageReturn ∉ numeral := by
  cases h with
  | plain h => exact h.carriageReturn_not_mem
  | plus h => exact List.not_mem_cons_of_ne_of_not_mem (by decide) h.carriageReturn_not_mem
  | minus h => exact List.not_mem_cons_of_ne_of_not_mem (by decide) h.carriageReturn_not_mem

theorem isSigned_bytes (n : Int) : IsSigned (bytes n) n := toInt?_eq_some_iff.mp (toInt?_bytes n)

end KeyValue.Decimal
