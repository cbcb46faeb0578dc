namespace KeyValue

-- Keys, values, frames and file contents are all plain byte strings. Their order is the
-- lexicographic order of lists, byte by byte.
abbrev Bytes := List UInt8

namespace Bytes

-- The UTF-8 bytes of a text.
def ofText (text : String) : Bytes := text.toByteArray.data.toList

-- The text whose UTF-8 bytes these are, if there is one.
def toText? (bytes : Bytes) : Option String := String.fromUTF8? ⟨bytes.toArray⟩

theorem toText?_ofText (text : String) : toText? (ofText text) = some text := by
  have hbytes : (⟨(ofText text).toArray⟩ : ByteArray) = text.toByteArray := by
    simp [ofText]
  rw [toText?, hbytes, String.fromUTF8?, dif_pos text.isValidUTF8]
  rfl

theorem ofText_of_toText? {bytes : Bytes} {text : String} (h : toText? bytes = some text) :
    ofText text = bytes := by
  simp only [toText?, String.fromUTF8?] at h
  split at h
  · cases h
    simp [ofText, String.fromUTF8]
  · cases h

theorem ofText_injective {a b : String} (h : ofText a = ofText b) : a = b := by
  have ha := toText?_ofText a
  rw [h, toText?_ofText] at ha
  exact (Option.some.inj ha).symm

def space : UInt8 := 32
def lineFeed : UInt8 := 10
def carriageReturn : UInt8 := 13

-- Every line of the wire protocol ends with these two bytes.
def crlf : Bytes := [carriageReturn, lineFeed]

-- Cuts at every byte that `separator` accepts. There is always one piece more than there
-- are separators, so adjacent separators give empty pieces.
def splitWhere (separator : UInt8 → Bool) (bytes : Bytes) : List Bytes :=
  let pieces := bytes.foldr (fun byte (pieces : Bytes × List Bytes) =>
    if separator byte then ([], pieces.1 :: pieces.2) else (byte :: pieces.1, pieces.2)) ([], [])
  pieces.1 :: pieces.2

def splitOn (separator : UInt8) (bytes : Bytes) : List Bytes := splitWhere (· == separator) bytes

theorem splitWhere_nil (separator : UInt8 → Bool) : splitWhere separator [] = [[]] := rfl

theorem splitWhere_cons_separator {separator : UInt8 → Bool} {byte : UInt8}
    (h : separator byte = true) (rest : Bytes) :
    splitWhere separator (byte :: rest) = [] :: splitWhere separator rest := by
  simp [splitWhere, h]

theorem splitWhere_cons_other {separator : UInt8 → Bool} {byte : UInt8}
    (h : separator byte = false) {rest piece : Bytes} {pieces : List Bytes}
    (hrest : splitWhere separator rest = piece :: pieces) :
    splitWhere separator (byte :: rest) = (byte :: piece) :: pieces := by
  simp only [splitWhere, List.cons.injEq] at hrest
  simp [splitWhere, h, hrest]

-- Puts a byte string before the first one that is not below it.
def insertSorted (item : Bytes) : List Bytes → List Bytes
  | [] => [item]
  | other :: rest =>
      if other < item then other :: insertSorted item rest else item :: other :: rest

-- Ascending byte order, duplicates kept.
def sort (items : List Bytes) : List Bytes := items.foldr insertSorted []

theorem insertSorted_perm (item : Bytes) (items : List Bytes) :
    (insertSorted item items).Perm (item :: items) := by
  induction items with
  | nil => exact List.Perm.refl _
  | cons other rest ih =>
      simp only [insertSorted]
      split
      · exact (ih.cons other).trans (List.Perm.swap item other rest)
      · exact List.Perm.refl _

theorem sort_perm (items : List Bytes) : (sort items).Perm items := by
  induction items with
  | nil => exact List.Perm.refl _
  | cons item rest ih => exact (insertSorted_perm item _).trans (ih.cons item)

theorem insertSorted_sorted (item : Bytes) {items : List Bytes}
    (h : items.Pairwise (· ≤ ·)) : (insertSorted item items).Pairwise (· ≤ ·) := by
  induction items with
  | nil => simp [insertSorted]
  | cons other rest ih =>
      obtain ⟨hother, hrest⟩ := List.pairwise_cons.mp h
      simp only [insertSorted]
      split
      · rename_i hlt
        refine List.pairwise_cons.mpr ⟨fun b hb => ?_, ih hrest⟩
        rcases List.mem_cons.mp ((insertSorted_perm item rest).mem_iff.mp hb) with rfl | hb
        · exact Std.le_of_lt hlt
        · exact hother b hb
      · rename_i hle
        have hle : item ≤ other := List.not_lt.mp hle
        refine List.pairwise_cons.mpr ⟨fun b hb => ?_, h⟩
        rcases List.mem_cons.mp hb with rfl | hb
        · exact hle
        · exact Std.le_trans hle (hother b hb)

theorem sort_sorted (items : List Bytes) : (sort items).Pairwise (· ≤ ·) := by
  induction items with
  | nil => exact List.Pairwise.nil
  | cons item rest ih => exact insertSorted_sorted item ih

end Bytes

end KeyValue
