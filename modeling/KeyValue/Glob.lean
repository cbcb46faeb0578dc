import KeyValue.Bytes

namespace KeyValue

-- A key pattern. Matching is by bytes, not by characters.
namespace Glob

def star : UInt8 := 42
def questionMark : UInt8 := 63
def openBracket : UInt8 := 91
def closeBracket : UInt8 := 93
def backslash : UInt8 := 92
def caret : UInt8 := 94
def dash : UInt8 := 45

-- The ends of a range may stand in either order.
def isBetween (a b byte : UInt8) : Bool := (a ≤ byte && byte ≤ b) || (b ≤ byte && byte ≤ a)

-- Reads the items of a class up to its closing bracket. Tells whether one of them is the
-- byte, or one before them was, and gives the pattern after the bracket. A closing bracket
-- ends the class wherever an item could start, even as its first byte.
def seek? (byte : UInt8) (found : Bool) : Bytes → Option (Bool × Bytes)
  | [] => none
  | first :: rest =>
      if first = closeBracket then some (found, rest)
      else if first = backslash then
        match rest with
        | [] => none
        | second :: rest => seek? byte (found || byte == second) rest
      else
        match rest with
        | second :: third :: after =>
            if second = dash ∧ third ≠ closeBracket then
              seek? byte (found || isBetween first third byte) after
            else seek? byte (found || byte == first) (second :: third :: after)
        | rest => seek? byte (found || byte == first) rest

-- What follows an opening bracket: whether the class takes the byte, and the pattern after it.
-- There is no class if no bracket closes it.
def class? (byte : UInt8) : Bytes → Option (Bool × Bytes)
  | [] => none
  | first :: rest =>
      if first = caret then (seek? byte false rest).map fun (found, after) => (!found, after)
      else seek? byte false (first :: rest)

-- What is left of the pattern when its first part takes the byte. A star is no such part. A
-- backslash makes the byte after it plain, and stands for itself at the very end.
def past? (byte : UInt8) : Bytes → Option Bytes
  | [] => none
  | first :: rest =>
      if first = questionMark then some rest
      else if first = openBracket then
        match class? byte rest with
        | some (true, after) => some after
        | _ => none
      else
        match rest with
        | [] => if byte = first then some [] else none
        | second :: after =>
            if first = backslash then if byte = second then some after else none
            else if byte = first then some rest else none

theorem seek?_length_lt {byte : UInt8} {found taken : Bool} {pattern after : Bytes}
    (h : seek? byte found pattern = some (taken, after)) : after.length < pattern.length := by
  fun_induction seek? byte found pattern with
  | case1 => cases h
  | case2 => cases h; simp
  | case3 => cases h
  | case4 _ _ _ _ ih =>
      have hlt := ih h
      simp only [List.length_cons]
      omega
  | case5 _ _ _ _ _ _ _ _ ih =>
      have hlt := ih h
      simp only [List.length_cons]
      omega
  | case6 _ _ _ _ _ _ _ _ ih =>
      have hlt := ih h
      simp only [List.length_cons] at hlt ⊢
      omega
  | case7 _ _ _ _ _ _ ih =>
      have hlt := ih h
      simp only [List.length_cons]
      omega

theorem class?_length_lt {byte : UInt8} {taken : Bool} {pattern after : Bytes}
    (h : class? byte pattern = some (taken, after)) : after.length < pattern.length := by
  cases pattern with
  | nil => cases h
  | cons first rest =>
      simp only [class?] at h
      split at h
      · obtain ⟨⟨found, _⟩, hseek, heq⟩ := Option.map_eq_some_iff.mp h
        cases heq
        exact Nat.lt_succ_of_lt (seek?_length_lt hseek)
      · exact seek?_length_lt h

theorem past?_length_lt {byte : UInt8} {pattern after : Bytes}
    (h : past? byte pattern = some after) : after.length < pattern.length := by
  cases pattern with
  | nil => cases h
  | cons first rest =>
      have literal {expected : UInt8} {left : Bytes}
          (h : (if byte = expected then some left else none) = some after)
          (hle : left.length ≤ rest.length) : after.length < (first :: rest).length := by
        split at h
        · cases h
          exact Nat.lt_succ_of_le hle
        · cases h
      simp only [past?] at h
      split at h
      · cases h
        exact Nat.lt_succ_self _
      · split at h
        · split at h
          · rename_i hclass
            cases h
            exact Nat.lt_succ_of_lt (class?_length_lt hclass)
          · cases h
        · cases rest with
          | nil => exact literal h (Nat.le_refl _)
          | cons second left =>
              simp only at h
              split at h
              · exact literal h (Nat.le_succ _)
              · exact literal h (Nat.le_refl _)

-- The last star before a place in the pattern: the pattern after it, and the text from which
-- on that pattern was tried.
structure Retry where
  pattern : Bytes
  text : Bytes

theorem Retry.le_length (pattern text : Bytes) :
    ∀ last ∈ some (Retry.mk pattern text), text.length ≤ last.text.length := by
  rintro last ⟨⟩
  exact Nat.le_refl _

-- How often the pattern can still be tried again.
def attempts (text : Bytes) : Option Retry → Nat
  | some last => last.text.length
  | none => text.length + 1

-- Goes along the pattern and the text together. A star first takes nothing. When the pattern
-- does not fit, the last star takes one byte more, and what follows it is tried again from there.
-- Stars before the last one are never tried again.
def scan (pattern text : Bytes) (retry : Option Retry)
    (behind : ∀ last ∈ retry, text.length ≤ last.text.length) : Bool :=
  match text with
  | [] => pattern.all (· == star)
  | byte :: rest =>
      if pattern.head? = some star then
        scan pattern.tail (byte :: rest) (some ⟨pattern.tail, byte :: rest⟩)
          (Retry.le_length _ _)
      else
        match _hpast : past? byte pattern with
        | some after =>
            scan after rest retry fun last hlast => Nat.le_of_succ_le (behind last hlast)
        | none =>
            match retry with
            | none => false
            | some last =>
                scan last.pattern last.text.tail (some ⟨last.pattern, last.text.tail⟩)
                  (Retry.le_length _ _)
termination_by (attempts text retry, pattern.length)
decreasing_by
  · rename_i hstar
    cases pattern with
    | nil => cases hstar
    | cons first after =>
        cases retry with
        | none => exact Prod.Lex.left _ _ (Nat.lt_succ_self _)
        | some last =>
            rcases Nat.lt_or_eq_of_le (behind last rfl) with hlt | heq
            · exact Prod.Lex.left _ _ hlt
            · simp only [attempts, ← heq]
              exact Prod.Lex.right _ (Nat.lt_succ_self _)
  · cases retry with
    | none => exact Prod.Lex.left _ _ (Nat.lt_succ_self _)
    | some last => exact Prod.Lex.right _ (past?_length_lt _hpast)
  · have hlast := behind last rfl
    refine Prod.Lex.left _ _ ?_
    simp only [attempts, List.length_tail, List.length_cons] at hlast ⊢
    omega

def accepts (pattern text : Bytes) : Bool := scan pattern text none (by rintro last ⟨⟩)

end Glob

end KeyValue
