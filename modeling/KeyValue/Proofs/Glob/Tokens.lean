import KeyValue.Glob

-- What a pattern says. It is read from left to right, without regard to any text.
namespace KeyValue.Glob

-- One entry of a character class.
inductive Item where
  | single (value : UInt8)
  | range (low high : UInt8)
deriving DecidableEq

def Item.accepts : Item → UInt8 → Bool
  | .single value, byte => byte == value
  | .range low high, byte => low ≤ byte && byte ≤ high

inductive Token where
  -- Any run of bytes, the empty one included.
  | anyRun
  | anyByte
  | literal (value : UInt8)
  | oneOf (negated : Bool) (items : List Item)
  -- The start of a class that is never closed. It matches nothing.
  | unclosed
deriving DecidableEq

-- Whether the token takes a single byte, and this one.
def Token.accepts : Token → UInt8 → Bool
  | .anyRun, _ => false
  | .anyByte, _ => true
  | .literal value, byte => byte == value
  | .oneOf negated items, byte => items.any (·.accepts byte) != negated
  | .unclosed, _ => false

-- The ends of a range may stand in either order.
def Item.between (a b : UInt8) : Item := if a ≤ b then .range a b else .range b a

theorem Item.accepts_between (a b byte : UInt8) :
    (between a b).accepts byte = isBetween a b byte := by
  unfold between isBetween
  split
  · rename_i hle
    by_cases h : b ≤ byte ∧ byte ≤ a
    · have hsame : byte = a := UInt8.le_antisymm h.2 (UInt8.le_trans hle h.1)
      have hends : b = a := UInt8.le_antisymm (hsame ▸ h.1) hle
      simp [accepts, hsame, hends]
    · simp [accepts, h]
  · rename_i hle
    have hlt : ¬(a ≤ byte ∧ byte ≤ b) := fun h => hle (UInt8.le_trans h.1 h.2)
    simp [accepts, hlt]

def Item.prepend? (item : Item) (found : Option (List Item × Bytes)) : Option (List Item × Bytes) :=
  found.map fun (items, after) => (item :: items, after)

-- The items of a class up to its closing bracket, and the pattern after it. A closing
-- bracket ends the class wherever an item could start, even as its first byte.
def items? : Bytes → Option (List Item × Bytes)
  | [] => none
  | first :: rest =>
      if first = closeBracket then some ([], rest)
      else if first = backslash then
        match rest with
        | [] => none
        | second :: rest => (Item.single second).prepend? (items? rest)
      else
        match rest with
        | second :: third :: after =>
            if second = dash ∧ third ≠ closeBracket then
              (Item.between first third).prepend? (items? after)
            else (Item.single first).prepend? (items? (second :: third :: after))
        | rest => (Item.single first).prepend? (items? rest)

-- Looking for one byte goes through the same items, whatever the byte is.
theorem seek?_eq_items? (byte : UInt8) (found : Bool) (pattern : Bytes) :
    seek? byte found pattern =
      (items? pattern).map fun (items, after) => (found || items.any (·.accepts byte), after) := by
  have prepend (found : Bool) (item : Item) (rest : Option (List Item × Bytes)) :
      (rest.map fun (items, after) =>
          ((found || item.accepts byte) || items.any (·.accepts byte), after)) =
        (item.prepend? rest).map fun (items, after) =>
          (found || items.any (·.accepts byte), after) := by
    cases rest <;> simp [Item.prepend?, Bool.or_assoc]
  fun_induction seek? byte found pattern with
  | case1 => rfl
  | case2 => simp [items?.eq_def]
  | case3 => rfl
  | case4 found second rest hclose ih =>
      rw [items?.eq_def]
      simp only [hclose, if_false, if_true]
      exact ih.trans (prepend found (.single second) (items? rest))
  | case5 found first hclose hplain second third after hrange ih =>
      rw [items?.eq_def]
      simp only [hclose, hplain, if_false, if_pos hrange]
      rw [ih, ← Item.accepts_between]
      exact prepend found (.between first third) (items? after)
  | case6 found first hclose hplain second third after hrange ih =>
      rw [items?.eq_def]
      simp only [hclose, hplain, if_false, if_neg hrange]
      exact ih.trans (prepend found (.single first) (items? (second :: third :: after)))
  | case7 found first hclose hplain rest hshort ih =>
      rw [items?.eq_def]
      simp only [hclose, hplain, if_false]
      exact ih.trans (prepend found (.single first) (items? rest))

-- What follows an opening bracket: the class and the pattern after it.
def classToken? : Bytes → Option (Token × Bytes)
  | [] => none
  | first :: rest =>
      if first = caret then (items? rest).map fun (items, after) => (.oneOf true items, after)
      else (items? (first :: rest)).map fun (items, after) => (.oneOf false items, after)

theorem class?_eq_classToken? (byte : UInt8) (pattern : Bytes) :
    class? byte pattern =
      (classToken? pattern).map fun (token, after) => (token.accepts byte, after) := by
  cases pattern with
  | nil => rfl
  | cons first rest =>
      simp only [class?, classToken?]
      split
      · rw [seek?_eq_items?]
        cases items? rest <;> simp [Token.accepts]
      · rw [seek?_eq_items?]
        cases items? (first :: rest) <;> simp [Token.accepts]

theorem classToken?_length_lt {pattern after : Bytes} {token : Token}
    (h : classToken? pattern = some (token, after)) : after.length < pattern.length := by
  have hclass : class? 0 pattern = some (token.accepts 0, after) := by
    rw [class?_eq_classToken?, h, Option.map_some]
  exact class?_length_lt hclass

-- The tokens of a pattern, from left to right. A backslash makes the byte after it plain,
-- and stands for itself at the very end.
def tokens : Bytes → List Token
  | [] => []
  | first :: rest =>
      if first = star then .anyRun :: tokens rest
      else if first = questionMark then .anyByte :: tokens rest
      else if first = openBracket then
        match h : classToken? rest with
        | some (token, after) =>
            have : after.length < rest.length := classToken?_length_lt h
            token :: tokens after
        | none => [.unclosed]
      else if first = backslash then
        match rest with
        | [] => [.literal backslash]
        | second :: rest => .literal second :: tokens rest
      else .literal first :: tokens rest
termination_by pattern => pattern.length

end KeyValue.Glob
