import KeyValue.Proofs.Glob.Tokens
import Mathlib.Data.List.Forall2

namespace KeyValue.Glob

variable {token : Token} {rest : List Token} {pattern text later : Bytes}

-- What a token may stand for in a text.
inductive Token.Matches : Token → Bytes → Prop where
  | run (piece : Bytes) : Matches .anyRun piece
  | single {token : Token} {byte : UInt8} (h : token.accepts byte = true) : Matches token [byte]

-- The text consists of one piece for each token, in the order of the tokens.
def Splits (tokens : List Token) (text : Bytes) : Prop :=
  ∃ pieces : List Bytes, pieces.flatten = text ∧ List.Forall₂ Token.Matches tokens pieces

theorem splits_nil_iff : Splits [] text ↔ text = [] := by
  constructor
  · rintro ⟨pieces, rfl, hpieces⟩
    cases hpieces
    rfl
  · rintro rfl
    exact ⟨[], rfl, .nil⟩

theorem splits_cons_iff :
    Splits (token :: rest) text ↔
      ∃ piece later, text = piece ++ later ∧ token.Matches piece ∧ Splits rest later := by
  constructor
  · rintro ⟨pieces, rfl, hpieces⟩
    cases hpieces with
    | @cons _ piece _ pieces hpiece hrest =>
        exact ⟨piece, pieces.flatten, rfl, hpiece, pieces, rfl, hrest⟩
  · rintro ⟨piece, _, rfl, hpiece, pieces, rfl, hrest⟩
    exact ⟨piece :: pieces, rfl, .cons hpiece hrest⟩

theorem splits_anyRun_iff :
    Splits (.anyRun :: rest) text ↔ ∃ later, later <:+ text ∧ Splits rest later := by
  rw [splits_cons_iff]
  constructor
  · rintro ⟨piece, later, rfl, -, hrest⟩
    exact ⟨later, List.suffix_append piece later, hrest⟩
  · rintro ⟨later, ⟨piece, rfl⟩, hrest⟩
    exact ⟨piece, later, rfl, .run piece, hrest⟩

-- All other tokens stand for one byte each.
theorem splits_single_iff (h : token ≠ .anyRun) :
    Splits (token :: rest) text ↔
      ∃ byte later, text = byte :: later ∧ token.accepts byte = true ∧ Splits rest later := by
  rw [splits_cons_iff]
  constructor
  · rintro ⟨piece, later, rfl, hpiece, hrest⟩
    cases hpiece with
    | run => exact absurd rfl h
    | @single _ byte haccepts => exact ⟨byte, later, rfl, haccepts, hrest⟩
  · rintro ⟨byte, later, rfl, haccepts, hrest⟩
    exact ⟨[byte], later, rfl, .single haccepts, hrest⟩

theorem tokens_star (pattern : Bytes) : tokens (star :: pattern) = .anyRun :: tokens pattern := by
  rw [tokens.eq_def]
  simp

theorem ne_anyRun_of_classToken? {after : Bytes} (h : classToken? pattern = some (token, after)) :
    token ≠ .anyRun := by
  cases pattern with
  | nil => cases h
  | cons first rest =>
      simp only [classToken?] at h
      split at h
      · obtain ⟨_, -, heq⟩ := Option.map_eq_some_iff.mp h
        cases heq
        simp
      · obtain ⟨_, -, heq⟩ := Option.map_eq_some_iff.mp h
        cases heq
        simp

-- A pattern that does not start with a star starts with a token for a single byte. Which one it
-- is, and what follows it, does not depend on the byte that it is held against.
theorem exists_token {first : UInt8} (hstar : first ≠ star) (pattern : Bytes) :
    ∃ token after, token ≠ .anyRun ∧ tokens (first :: pattern) = token :: tokens after ∧
      ∀ byte, past? byte (first :: pattern) = if token.accepts byte then some after else none := by
  rw [tokens.eq_def]
  simp only [past?, if_neg hstar]
  by_cases hquestion : first = questionMark
  · simp only [if_pos hquestion]
    exact ⟨.anyByte, pattern, by simp, rfl, fun _ => rfl⟩
  simp only [if_neg hquestion]
  by_cases hopen : first = openBracket
  · simp only [if_pos hopen]
    cases hclass : classToken? pattern with
    | none =>
        refine ⟨.unclosed, [], by simp, by simp [tokens.eq_def []], fun byte => ?_⟩
        simp [class?_eq_classToken?, hclass, Token.accepts]
    | some found =>
        obtain ⟨token, after⟩ := found
        refine ⟨token, after, ne_anyRun_of_classToken? hclass, rfl, fun byte => ?_⟩
        cases haccepts : token.accepts byte <;>
          simp [class?_eq_classToken?, hclass, haccepts]
  simp only [if_neg hopen]
  cases pattern with
  | nil =>
      refine ⟨.literal first, [], by simp, ?_, fun byte => by simp [Token.accepts]⟩
      by_cases hplain : first = backslash <;> simp [hplain, tokens.eq_def []]
  | cons second after =>
      by_cases hplain : first = backslash
      · simp only [if_pos hplain]
        exact ⟨.literal second, after, by simp, rfl, fun byte => by simp [Token.accepts]⟩
      · simp only [if_neg hplain]
        exact ⟨.literal first, second :: after, by simp, rfl, fun byte => by simp [Token.accepts]⟩

theorem exists_token_of_past? {byte : UInt8} {after : Bytes} (hstar : pattern.head? ≠ some star)
    (hpast : past? byte pattern = some after) :
    ∃ token, token ≠ .anyRun ∧ tokens pattern = token :: tokens after := by
  cases pattern with
  | nil => cases hpast
  | cons first pattern =>
      obtain ⟨token, other, hsingle, htokens, hpast?⟩ := exists_token (by simpa using hstar) pattern
      rw [hpast?] at hpast
      split at hpast
      · cases hpast
        exact ⟨token, hsingle, htokens⟩
      · cases hpast

theorem splits_tokens_cons_iff {byte : UInt8} {later : Bytes}
    (hstar : pattern.head? ≠ some star) :
    Splits (tokens pattern) (byte :: later) ↔
      ∃ after, past? byte pattern = some after ∧ Splits (tokens after) later := by
  cases pattern with
  | nil => simp [tokens.eq_def [], splits_nil_iff, past?]
  | cons first pattern =>
      obtain ⟨token, after, hsingle, htokens, hpast?⟩ := exists_token (by simpa using hstar) pattern
      rw [htokens, splits_single_iff hsingle, hpast?]
      cases haccepts : token.accepts byte <;> simp [haccepts]

-- Nothing is left to take: only stars can still follow.
theorem splits_tokens_nil_iff :
    Splits (tokens pattern) [] ↔ pattern.all (· == star) = true := by
  induction pattern with
  | nil => simp [tokens.eq_def [], splits_nil_iff]
  | cons first pattern ih =>
      by_cases hstar : first = star
      · rw [hstar, tokens_star, splits_anyRun_iff]
        simp [ih]
      · obtain ⟨token, after, hsingle, htokens, -⟩ := exists_token hstar pattern
        rw [htokens, splits_single_iff hsingle]
        simp [hstar]

theorem splits_append (passed : List Token) (hpassed : ∀ token ∈ passed, token ≠ .anyRun)
    (h : Splits (passed ++ rest) text) : Splits rest (text.drop passed.length) := by
  induction passed generalizing text with
  | nil => exact h
  | cons token passed ih =>
      obtain ⟨hsingle, hothers⟩ := List.forall_mem_cons.mp hpassed
      obtain ⟨byte, later, rfl, -, hlater⟩ := (splits_single_iff hsingle).mp h
      exact ih hothers hlater

theorem drop_suffix_drop {α : Type} {a b : List α} (h : a <:+ b) (count : Nat) :
    a.drop count <:+ b.drop count := by
  obtain ⟨front, rfl⟩ := h
  rw [List.drop_append]
  exact (List.drop_suffix_drop_left a (Nat.sub_le count front.length)).trans
    (List.suffix_append _ _)

-- Since the last star a number of tokens have been passed, and each has taken one byte.
def Reached (last : Retry) (pattern text : Bytes) : Prop :=
  ∃ passed : List Token, (∀ token ∈ passed, token ≠ .anyRun) ∧
    tokens last.pattern = passed ++ tokens pattern ∧ text = last.text.drop passed.length

namespace Reached

variable {last : Retry}

theorem start (pattern text : Bytes) : Reached ⟨pattern, text⟩ pattern text :=
  ⟨[], by simp, rfl, rfl⟩

theorem step {after rest : Bytes} {byte : UInt8} (h : Reached last pattern (byte :: rest))
    (hsingle : token ≠ .anyRun) (htokens : tokens pattern = token :: tokens after) :
    Reached last after rest := by
  obtain ⟨passed, hpassed, hlast, htext⟩ := h
  refine ⟨passed ++ [token], ?_, ?_, ?_⟩
  · simpa [or_imp, forall_and] using ⟨hpassed, hsingle⟩
  · rw [hlast, htokens, List.append_assoc, List.singleton_append]
  · rw [List.length_append, ← List.drop_drop, ← htext]
    rfl

-- This is why earlier stars are never needed again: whatever the last star could still take
-- before the rest of the pattern matches, a star that comes now can take as well.
theorem exists_later (h : Reached last pattern text) (hlater : later <:+ last.text)
    (hsplits : Splits (tokens last.pattern) later) :
    ∃ rest, rest <:+ text ∧ Splits (tokens pattern) rest := by
  obtain ⟨passed, hpassed, htokens, rfl⟩ := h
  rw [htokens] at hsplits
  exact ⟨_, drop_suffix_drop hlater _, splits_append passed hpassed hsplits⟩

end Reached

-- What follows the star matches if the star takes one byte more at least.
def Retry.Succeeds (last : Retry) : Prop :=
  ∃ later, later <:+ last.text.tail ∧ Splits (tokens last.pattern) later

theorem splits_or_succeeds_iff :
    Splits (tokens pattern) text ∨ (Retry.mk pattern text).Succeeds ↔
      ∃ later, later <:+ text ∧ Splits (tokens pattern) later := by
  constructor
  · rintro (h | ⟨later, hlater, h⟩)
    · exact ⟨text, List.suffix_rfl, h⟩
    · exact ⟨later, hlater.trans (List.tail_suffix text), h⟩
  · rintro ⟨later, hlater, h⟩
    cases text with
    | nil => exact .inl (List.suffix_nil.mp hlater ▸ h)
    | cons byte rest =>
        rcases List.suffix_cons_iff.mp hlater with rfl | hlater
        · exact .inl h
        · exact .inr ⟨later, hlater, h⟩

-- The pattern matches from here on, or the last star can take more.
theorem scan_iff {retry : Option Retry} {behind : ∀ last ∈ retry, text.length ≤ last.text.length}
    (hreached : ∀ last ∈ retry, Reached last pattern text) :
    scan pattern text retry behind = true ↔
      Splits (tokens pattern) text ∨ ∃ last ∈ retry, last.Succeeds := by
  fun_induction scan pattern text retry behind with
  | case1 pattern retry =>
      rw [← splits_tokens_nil_iff]
      refine ⟨.inl, ?_⟩
      rintro (h | ⟨last, hlast, later, hlater, hsplits⟩)
      · exact h
      · obtain ⟨rest, hrest, h⟩ :=
          (hreached last hlast).exists_later (hlater.trans (List.tail_suffix _)) hsplits
        rwa [List.suffix_nil.mp hrest] at h
  | case2 pattern retry byte rest _ hstar _ ih =>
      obtain ⟨after, rfl⟩ := List.head?_eq_some_iff.mp hstar
      rw [ih (by rintro last ⟨⟩; exact .start _ _), tokens_star, splits_anyRun_iff]
      simp only [Option.mem_def, Option.some.injEq, exists_eq_left', List.tail_cons]
      rw [splits_or_succeeds_iff]
      refine ⟨.inl, ?_⟩
      rintro (h | ⟨last, hlast, later, hlater, hsplits⟩)
      · exact h
      · obtain ⟨rest, hrest, h⟩ :=
          (hreached last hlast).exists_later (hlater.trans (List.tail_suffix _)) hsplits
        rw [tokens_star, splits_anyRun_iff] at h
        obtain ⟨later, hlater, h⟩ := h
        exact ⟨later, hlater.trans hrest, h⟩
  | case3 pattern retry byte rest _ hstar after hpast _ ih =>
      obtain ⟨token, hsingle, htokens⟩ := exists_token_of_past? hstar hpast
      rw [ih fun last hlast => (hreached last hlast).step hsingle htokens,
        splits_tokens_cons_iff hstar, hpast]
      simp
  | case4 pattern byte rest hstar hpast =>
      simp [splits_tokens_cons_iff hstar, hpast]
  | case5 pattern byte rest hstar hpast last _ _ ih =>
      have hnot : ¬Splits (tokens pattern) (byte :: rest) := by
        simp [splits_tokens_cons_iff hstar, hpast]
      rw [ih (by rintro last ⟨⟩; exact .start _ _)]
      simp only [Option.mem_def, Option.some.injEq, exists_eq_left', hnot, false_or]
      exact splits_or_succeeds_iff

-- A pattern accepts just the texts that are made up of one piece for each of its tokens.
theorem accepts_iff_splits (pattern text : Bytes) :
    accepts pattern text = true ↔
      ∃ pieces : List Bytes, pieces.flatten = text ∧
        List.Forall₂ Token.Matches (tokens pattern) pieces := by
  rw [accepts, scan_iff (by rintro last ⟨⟩)]
  simp [Splits]

end KeyValue.Glob
