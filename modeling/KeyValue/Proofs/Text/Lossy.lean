import KeyValue.Proofs.Bytes
import KeyValue.Text.Lossy

namespace KeyValue

-- A scalar value is the number of its character.
theorem Text.toNat_ofNat {value : Nat} (h : value.isValidChar) :
    (Char.ofNat value).toNat = value := by
  rw [Char.ofNat, dif_pos h]
  rfl

namespace Bytes

-- The byte in upper case, if it is an ASCII letter.
def upper (byte : UInt8) : UInt8 := if 97 ≤ byte ∧ byte ≤ 122 then byte - 32 else byte

-- The character that an ASCII byte is.
def toChar (byte : UInt8) : Char := Char.ofNat byte.toNat

theorem upper_lt_iff (byte : UInt8) : upper byte < 128 ↔ byte < 128 := by
  revert byte
  decide +kernel

theorem upper_of_le {byte : UInt8} (h : 128 ≤ byte) : upper byte = byte := by
  revert byte
  decide +kernel

theorem toUpper_toChar {byte : UInt8} (h : byte < 128) :
    (toChar byte).toUpper = toChar (upper byte) := by
  revert byte
  decide +kernel

theorem toNat_toChar {byte : UInt8} (h : byte < 128) : (toChar byte).toNat = byte.toNat := by
  have hbyte : byte.toNat < 128 := UInt8.lt_iff_toNat_lt.mp h
  exact Text.toNat_ofNat (.inl (by omega))

-- ASCII bytes that are the same characters are the same bytes.
theorem map_toChar_inj {a b : Bytes} (ha : ∀ byte ∈ a, byte < 128) (hb : ∀ byte ∈ b, byte < 128)
    (h : a.map toChar = b.map toChar) : a = b := by
  induction a generalizing b with
  | nil =>
      cases b with
      | nil => rfl
      | cons byte rest => cases h
  | cons first rest ih =>
      cases b with
      | nil => cases h
      | cons second more =>
          obtain ⟨hfirst, hrest⟩ := List.forall_mem_cons.mp ha
          obtain ⟨hsecond, hmore⟩ := List.forall_mem_cons.mp hb
          rw [List.map_cons, List.map_cons, List.cons.injEq] at h
          have hnat := congrArg Char.toNat h.1
          rw [toNat_toChar hfirst, toNat_toChar hsecond] at hnat
          rw [UInt8.toNat_inj.mp hnat, ih hrest hmore h.2]

end Bytes

namespace Text

-- ASCII bytes are read one by one, and none of them is replaced.
theorem lossy_of_ascii {bytes : Bytes} (h : ∀ byte ∈ bytes, byte < 128) :
    lossy bytes = bytes.map Bytes.toChar := by
  have hscan : ∀ chars, bytes.foldl Scan.push ⟨chars, none⟩ =
      ⟨(bytes.map Bytes.toChar).reverse ++ chars, none⟩ := by
    induction bytes with
    | nil => exact fun chars => rfl
    | cons byte rest ih =>
        obtain ⟨hbyte, hrest⟩ := List.forall_mem_cons.mp h
        intro chars
        have hopening : opening byte = .scalar (Bytes.toChar byte) :=
          if_pos (UInt8.lt_iff_toNat_lt.mp hbyte)
        have hpush : Scan.push ⟨chars, none⟩ byte = ⟨Bytes.toChar byte :: chars, none⟩ := by
          simp only [Scan.push, Scan.begin, hopening]
        rw [List.foldl_cons, hpush, ih hrest, List.map_cons, List.reverse_cons, List.append_assoc,
          List.singleton_append]
  rw [lossy, hscan, Scan.finish, List.append_nil, List.reverse_reverse]

theorem toUpper_of_le {char : Char} (h : 128 ≤ char.toNat) : char.toUpper = char := by
  refine dif_neg fun hlower => ?_
  have hle : char.toNat ≤ 122 := UInt32.le_iff_toNat_le.mp hlower.2
  omega

theorem toUpper_replacement : replacement.toUpper = replacement := by decide

theorem le_replacement : 128 ≤ replacement.toNat := by decide

namespace Unfinished

-- How many characters there are for each value of a sequence whose next byte is known.
def spread : Nat → Nat
  | 0 | 1 => 1
  | missing + 2 => 64 * spread (missing + 1)

-- The characters that a sequence can come to: the first of them, and the end of their range.
def first (unfinished : Unfinished) : Nat :=
  (unfinished.value * 64 + (unfinished.low.toNat - 0x80)) * spread unfinished.missing

def beyond (unfinished : Unfinished) : Nat :=
  (unfinished.value * 64 + (unfinished.high.toNat - 0x80) + 1) * spread unfinished.missing

-- None of them is an ASCII character, all of them are characters, and no byte that continues the
-- sequence is an ASCII byte.
structure Sound (unfinished : Unfinished) : Prop where
  low : 128 ≤ unfinished.low
  first : 128 ≤ unfinished.first
  valid : unfinished.beyond ≤ 0xD800 ∨ 0xE000 ≤ unfinished.first ∧ unfinished.beyond ≤ 0x110000

instance (unfinished : Unfinished) : Decidable unfinished.Sound :=
  decidable_of_iff
    (128 ≤ unfinished.low ∧ 128 ≤ unfinished.first ∧
      (unfinished.beyond ≤ 0xD800 ∨ 0xE000 ≤ unfinished.first ∧ unfinished.beyond ≤ 0x110000))
    ⟨fun h => ⟨h.1, h.2.1, h.2.2⟩, fun h => ⟨h.low, h.first, h.valid⟩⟩

-- The value after one more byte.
def next (unfinished : Unfinished) (byte : UInt8) : Nat :=
  unfinished.value * 64 + (byte.toNat - 0x80)

-- The sequence after one more byte that is not its last.
def continued (unfinished : Unfinished) (byte : UInt8) : Unfinished :=
  ⟨unfinished.next byte, unfinished.missing - 1, 0x80, 0xBF⟩

variable {unfinished : Unfinished} {byte : UInt8}

theorem first_le_next (h : unfinished.low ≤ byte) :
    unfinished.first ≤ unfinished.next byte * spread unfinished.missing := by
  have hbyte : unfinished.low.toNat ≤ byte.toNat := UInt8.le_iff_toNat_le.mp h
  have hnext : unfinished.value * 64 + (unfinished.low.toNat - 0x80) ≤ unfinished.next byte := by
    unfold next
    omega
  rw [first]
  exact Nat.mul_le_mul_right _ hnext

theorem next_le_beyond (h : byte ≤ unfinished.high) :
    (unfinished.next byte + 1) * spread unfinished.missing ≤ unfinished.beyond := by
  have hbyte : byte.toNat ≤ unfinished.high.toNat := UInt8.le_iff_toNat_le.mp h
  have hnext : unfinished.next byte + 1 ≤
      unfinished.value * 64 + (unfinished.high.toNat - 0x80) + 1 := by
    unfold next
    omega
  rw [beyond]
  exact Nat.mul_le_mul_right _ hnext

-- The last byte makes a character of the sequence.
theorem le_of_finished (h : unfinished.Sound) (hlast : unfinished.missing ≤ 1)
    (hlow : unfinished.low ≤ byte) (hhigh : byte ≤ unfinished.high) :
    128 ≤ (Char.ofNat (unfinished.next byte)).toNat := by
  have hspread : spread unfinished.missing = 1 := by
    unfold spread
    split <;> first | rfl | omega
  have hfirst := first_le_next hlow
  have hbeyond := next_le_beyond hhigh
  rw [hspread, Nat.mul_one] at hfirst hbeyond
  have hvalid : (unfinished.next byte).isValidChar := by
    rcases h.valid with hbefore | ⟨hafter, hlarge⟩
    · exact .inl (by omega)
    · exact .inr ⟨by omega, by omega⟩
  rw [toNat_ofNat hvalid]
  exact Nat.le_trans h.first hfirst

theorem first_continued {missing : Nat} (h : unfinished.missing = missing + 2) :
    (unfinished.continued byte).first = unfinished.next byte * 64 * spread (missing + 1) := by
  have hrest : unfinished.missing - 1 = missing + 1 := by omega
  have hlowest : (0x80 : UInt8).toNat - 0x80 = 0 := by decide
  simp only [first, continued, hrest, hlowest, Nat.add_zero]

theorem beyond_continued {missing : Nat} (h : unfinished.missing = missing + 2) :
    (unfinished.continued byte).beyond =
      (unfinished.next byte + 1) * 64 * spread (missing + 1) := by
  have hrest : unfinished.missing - 1 = missing + 1 := by omega
  have hhighest : (0xBF : UInt8).toNat - 0x80 = 63 := by decide
  have hsucc : (unfinished.next byte + 1) * 64 = unfinished.next byte * 64 + 63 + 1 := by omega
  simp only [beyond, continued, hrest, hhighest, hsucc]

-- Any other byte leaves some of its characters.
theorem sound_continued (h : unfinished.Sound) (hmore : ¬unfinished.missing ≤ 1)
    (hlow : unfinished.low ≤ byte) (hhigh : byte ≤ unfinished.high) :
    (unfinished.continued byte).Sound := by
  obtain ⟨missing, hmissing⟩ : ∃ missing, unfinished.missing = missing + 2 :=
    ⟨unfinished.missing - 2, by omega⟩
  have hspread : spread unfinished.missing = 64 * spread (missing + 1) := by
    rw [hmissing, spread]
  have hfirst := first_le_next hlow
  have hbeyond := next_le_beyond hhigh
  rw [hspread, ← Nat.mul_assoc, ← first_continued hmissing] at hfirst
  rw [hspread, ← Nat.mul_assoc, ← beyond_continued hmissing] at hbeyond
  refine ⟨UInt8.le_refl 0x80, Nat.le_trans h.first hfirst, ?_⟩
  rcases h.valid with hbefore | ⟨hafter, hlarge⟩
  · exact .inl (Nat.le_trans hbeyond hbefore)
  · exact .inr ⟨Nat.le_trans hafter hfirst, Nat.le_trans hbeyond hlarge⟩

end Unfinished

-- The opening that the same byte is in upper case.
def Opening.upper : Opening → Opening
  | .scalar char => .scalar char.toUpper
  | .sequence unfinished => .sequence unfinished
  | .none => .none

theorem opening_upper (byte : UInt8) : opening (Bytes.upper byte) = (opening byte).upper := by
  revert byte
  decide +kernel

-- Only ASCII bytes are characters of their own.
def Opening.Sound (byte : UInt8) : Opening → Prop
  | .scalar _ => byte < 128
  | .sequence unfinished => unfinished.Sound
  | .none => True

instance (byte : UInt8) (opening : Opening) : Decidable (opening.Sound byte) :=
  match opening with
  | .scalar _ => inferInstanceAs (Decidable (byte < 128))
  | .sequence unfinished => inferInstanceAs (Decidable unfinished.Sound)
  | .none => inferInstanceAs (Decidable True)

theorem opening_sound (byte : UInt8) : (opening byte).Sound byte := by
  revert byte
  decide +kernel

namespace Scan

def Sound (scan : Scan) : Prop := ∀ unfinished, scan.pending = some unfinished → unfinished.Sound

-- The same scan with its characters in upper case.
def upper (scan : Scan) : Scan := ⟨scan.chars.map Char.toUpper, scan.pending⟩

-- Nothing but ASCII characters has been read.
def Ascii (scan : Scan) : Prop := scan.pending = none ∧ ∀ char ∈ scan.chars, char.toNat < 128

variable {scan : Scan} {chars : List Char}

theorem sound_none (chars : List Char) : Sound ⟨chars, none⟩ := fun _ h => nomatch h

theorem sound_some (chars : List Char) {unfinished : Unfinished} (h : unfinished.Sound) :
    Sound ⟨chars, some unfinished⟩ := fun _ hsame => Option.some.inj hsame ▸ h

theorem sound_begin (chars : List Char) (byte : UInt8) : (begin chars byte).Sound := by
  have hopening := opening_sound byte
  unfold begin
  split
  · exact sound_none _
  · rename_i unfinished hbegun
    rw [hbegun] at hopening
    exact sound_some _ hopening
  · exact sound_none _

theorem begin_upper (chars : List Char) (byte : UInt8) :
    begin (chars.map Char.toUpper) (Bytes.upper byte) = (begin chars byte).upper := by
  unfold begin
  rw [opening_upper]
  cases opening byte with
  | scalar char => rfl
  | sequence unfinished => rfl
  | none => simp [Opening.upper, upper, toUpper_replacement]

theorem ascii_of_begin {byte : UInt8} (h : (begin chars byte).Ascii) :
    byte < 128 ∧ ∀ char ∈ chars, char.toNat < 128 := by
  have hopening := opening_sound byte
  unfold begin at h
  split at h
  · rename_i char hchar
    rw [hchar] at hopening
    exact ⟨hopening, (List.forall_mem_cons.mp h.2).2⟩
  · cases h.1
  · exact absurd (List.forall_mem_cons.mp h.2).1 (Nat.not_lt.mpr le_replacement)

variable {unfinished : Unfinished} {byte : UInt8}

theorem push_of_none (h : scan.pending = none) (byte : UInt8) :
    scan.push byte = begin scan.chars byte := by
  simp only [Scan.push, h]

theorem push_of_some (h : scan.pending = some unfinished) (byte : UInt8) :
    scan.push byte =
      if unfinished.low ≤ byte ∧ byte ≤ unfinished.high then
        if unfinished.missing ≤ 1 then ⟨Char.ofNat (unfinished.next byte) :: scan.chars, none⟩
        else ⟨scan.chars, some (unfinished.continued byte)⟩
      else begin (replacement :: scan.chars) byte := by
  unfold Scan.push Unfinished.continued Unfinished.next
  rw [h]

theorem Sound.push (h : scan.Sound) (byte : UInt8) : (scan.push byte).Sound := by
  cases hpending : scan.pending with
  | none =>
      rw [push_of_none hpending]
      exact sound_begin scan.chars byte
  | some unfinished =>
      rw [push_of_some hpending]
      split
      · rename_i hbyte
        split
        · exact sound_none _
        · rename_i hmore
          exact sound_some _
            (Unfinished.sound_continued (h unfinished hpending) hmore hbyte.1 hbyte.2)
      · exact sound_begin _ byte

-- Upper case changes what is read as it changes the bytes. A byte that continues a sequence is
-- no letter, and the character that the sequence comes to is none either.
theorem Sound.push_upper (h : scan.Sound) (byte : UInt8) :
    scan.upper.push (Bytes.upper byte) = (scan.push byte).upper := by
  cases hpending : scan.pending with
  | none =>
      have hupper : scan.upper.pending = none := hpending
      rw [push_of_none hpending, push_of_none hupper]
      exact begin_upper scan.chars byte
  | some unfinished =>
      have hupper : scan.upper.pending = some unfinished := hpending
      have hunfinished := h unfinished hpending
      rw [push_of_some hpending, push_of_some hupper]
      by_cases hbyte : unfinished.low ≤ byte ∧ byte ≤ unfinished.high
      · have hsame : Bytes.upper byte = byte :=
          Bytes.upper_of_le (UInt8.le_trans hunfinished.low hbyte.1)
        rw [hsame, if_pos hbyte, if_pos hbyte]
        split
        · rename_i hlast
          have hchar := toUpper_of_le (Unfinished.le_of_finished hunfinished hlast hbyte.1 hbyte.2)
          simp only [upper, List.map_cons, hchar]
        · rfl
      · have hneither : ¬(unfinished.low ≤ Bytes.upper byte ∧
            Bytes.upper byte ≤ unfinished.high) := by
          intro hcontinues
          have hle := UInt8.le_trans hunfinished.low hcontinues.1
          have hsame : Bytes.upper byte = byte := by
            refine Bytes.upper_of_le (UInt8.not_lt.mp fun hlt => ?_)
            exact UInt8.not_lt.mpr hle ((Bytes.upper_lt_iff byte).mpr hlt)
          exact hbyte (hsame ▸ hcontinues)
        rw [if_neg hbyte, if_neg hneither, ← begin_upper, List.map_cons, toUpper_replacement]
        rfl

-- What is read as ASCII was ASCII.
theorem Sound.ascii_of_push (h : scan.Sound) (hpush : (scan.push byte).Ascii) :
    scan.Ascii ∧ byte < 128 := by
  cases hpending : scan.pending with
  | none =>
      rw [push_of_none hpending] at hpush
      obtain ⟨hbyte, hchars⟩ := ascii_of_begin hpush
      exact ⟨⟨hpending, hchars⟩, hbyte⟩
  | some unfinished =>
      rw [push_of_some hpending] at hpush
      exfalso
      split at hpush
      · rename_i hbyte
        split at hpush
        · rename_i hlast
          have hlarge :=
            Unfinished.le_of_finished (h unfinished hpending) hlast hbyte.1 hbyte.2
          have hsmall := (List.forall_mem_cons.mp hpush.2).1
          omega
        · cases hpush.1
      · have hreplacement := (List.forall_mem_cons.mp (ascii_of_begin hpush).2).1
        exact absurd hreplacement (Nat.not_lt.mpr le_replacement)

theorem ascii_of_finish (h : ∀ char ∈ scan.finish, char.toNat < 128) : scan.Ascii := by
  unfold finish at h
  split at h
  · rename_i hpending
    exact ⟨hpending, fun char hchar => h char (List.mem_reverse.mpr hchar)⟩
  · exact absurd (h replacement (by simp)) (Nat.not_lt.mpr le_replacement)

theorem finish_upper (scan : Scan) : scan.upper.finish = scan.finish.map Char.toUpper := by
  obtain ⟨chars, pending⟩ := scan
  cases pending <;> simp [upper, finish, toUpper_replacement]

theorem Sound.foldl_upper (h : scan.Sound) (bytes : Bytes) :
    (bytes.map Bytes.upper).foldl Scan.push scan.upper = (bytes.foldl Scan.push scan).upper := by
  induction bytes generalizing scan with
  | nil => rfl
  | cons byte rest ih => rw [List.map_cons, List.foldl_cons, h.push_upper, ih (h.push byte),
      List.foldl_cons]

theorem Sound.ascii_of_foldl (h : scan.Sound) {bytes : Bytes}
    (hread : (bytes.foldl Scan.push scan).Ascii) : scan.Ascii ∧ ∀ byte ∈ bytes, byte < 128 := by
  induction bytes generalizing scan with
  | nil => exact ⟨hread, fun _ hbyte => nomatch hbyte⟩
  | cons byte rest ih =>
      obtain ⟨hpush, hrest⟩ := ih (h.push byte) hread
      obtain ⟨hscan, hbyte⟩ := h.ascii_of_push hpush
      exact ⟨hscan, List.forall_mem_cons.mpr ⟨hbyte, hrest⟩⟩

end Scan

-- ASCII letters come out in upper case just if they went in in upper case, whatever is around
-- them. What is replaced stays replaced.
theorem lossy_map_upper (bytes : Bytes) :
    lossy (bytes.map Bytes.upper) = (lossy bytes).map Char.toUpper := by
  rw [lossy, lossy, ← Scan.finish_upper, ← (Scan.sound_none []).foldl_upper]
  rfl

-- No other bytes are read as ASCII characters.
theorem lossy_ascii_iff {bytes : Bytes} :
    (∀ char ∈ lossy bytes, char.toNat < 128) ↔ ∀ byte ∈ bytes, byte < 128 := by
  constructor
  · intro h
    exact ((Scan.sound_none []).ascii_of_foldl (Scan.ascii_of_finish h)).2
  · intro h char hchar
    rw [lossy_of_ascii h] at hchar
    obtain ⟨byte, hbyte, rfl⟩ := List.mem_map.mp hchar
    rw [Bytes.toNat_toChar (h byte hbyte)]
    exact UInt8.lt_iff_toNat_lt.mp (h byte hbyte)

end Text

end KeyValue
