import KeyValue.Proofs.Request.Words
import Mathlib.Logic.ExistsUnique

namespace KeyValue.Request

variable {bytes rest gap word : Bytes} {words : List Bytes}

-- The positions from `start` up to `stop`.
structure Stretch where
  start : Nat
  stop : Nat
deriving DecidableEq

def Stretch.cut (stretch : Stretch) (bytes : Bytes) : Bytes :=
  (bytes.take stretch.stop).drop stretch.start

def Stretch.shift (stretch : Stretch) (offset : Nat) : Stretch :=
  ⟨offset + stretch.start, offset + stretch.stop⟩

-- At the position there is a byte, and it is not a blank.
def Kept (bytes : Bytes) (position : Nat) : Prop :=
  ∃ byte, bytes[position]? = some byte ∧ isBlank byte = false

structure Unbroken (bytes : Bytes) (stretch : Stretch) : Prop where
  nonempty : stretch.start < stretch.stop
  kept : ∀ position, stretch.start ≤ position → position < stretch.stop → Kept bytes position

-- A stretch without blanks that is not a part of a longer one.
structure IsRun (bytes : Bytes) (run : Stretch) : Prop where
  unbroken : Unbroken bytes run
  maximal : ∀ wider, Unbroken bytes wider → wider.start ≤ run.start → run.stop ≤ wider.stop →
    wider = run

variable {run other : Stretch} {position : Nat}

-- A run can be told by the bytes before and after it.
theorem isRun_iff : IsRun bytes run ↔ Unbroken bytes run ∧
    (∀ before, before + 1 = run.start → ¬Kept bytes before) ∧ ¬Kept bytes run.stop := by
  constructor
  · rintro ⟨hrun, hmaximal⟩
    have hstart := hrun.nonempty
    refine ⟨hrun, fun before hbefore hkept => ?_, fun hkept => ?_⟩
    · have hwider : Unbroken bytes ⟨before, run.stop⟩ := by
        refine ⟨by simp only; omega, fun position hle hlt => ?_⟩
        by_cases heq : position = before
        · rwa [heq]
        · exact hrun.kept position (by simp only at hle; omega) hlt
      have heq := congrArg Stretch.start (hmaximal _ hwider (by simp only; omega) (Nat.le_refl _))
      simp only at heq
      omega
    · have hwider : Unbroken bytes ⟨run.start, run.stop + 1⟩ := by
        refine ⟨by simp only; omega, fun position hle hlt => ?_⟩
        by_cases heq : position = run.stop
        · rwa [heq]
        · exact hrun.kept position hle (by simp only at hlt; omega)
      have heq := congrArg Stretch.stop (hmaximal _ hwider (Nat.le_refl _) (by simp only; omega))
      simp only at heq
      omega
  · rintro ⟨hrun, hbefore, hstop⟩
    refine ⟨hrun, fun wider hwider hstart hle => ?_⟩
    have hnonempty := hrun.nonempty
    have hsame : wider.start = run.start := by
      refine Nat.le_antisymm hstart (Nat.le_of_not_lt fun hlt => ?_)
      exact hbefore (run.start - 1) (by omega) (hwider.kept _ (by omega) (by omega))
    have hlast : wider.stop = run.stop := by
      refine Nat.le_antisymm (Nat.le_of_not_lt fun hlt => ?_) hle
      exact hstop (hwider.kept _ (by omega) hlt)
    cases wider
    cases run
    simp_all

theorem IsRun.eq_of_overlap (h : IsRun bytes run) (hother : IsRun bytes other)
    (hstart : run.start ≤ position) (hstop : position < run.stop)
    (hfrom : other.start ≤ position) (hto : position < other.stop) : run = other := by
  have hunion : Unbroken bytes ⟨min run.start other.start, max run.stop other.stop⟩ := by
    refine ⟨by simp only; omega, fun place hle hlt => ?_⟩
    simp only at hle hlt
    have hcases : (run.start ≤ place ∧ place < run.stop) ∨
        (other.start ≤ place ∧ place < other.stop) := by omega
    rcases hcases with ⟨hafter, hbefore⟩ | ⟨hafter, hbefore⟩
    · exact h.unbroken.kept place hafter hbefore
    · exact hother.unbroken.kept place hafter hbefore
  have hrun := h.maximal _ hunion (Nat.min_le_left ..) (Nat.le_max_left ..)
  have hsame := hother.maximal _ hunion (Nat.min_le_right ..) (Nat.le_max_right ..)
  exact hrun.symm.trans hsame

theorem Unbroken.kept_start {stretch : Stretch} (h : Unbroken bytes stretch) :
    Kept bytes stretch.start :=
  h.kept stretch.start (Nat.le_refl _) h.nonempty

theorem IsGap.not_kept (h : IsGap gap) : ¬Kept gap position := by
  rintro ⟨byte, hbyte, hnot⟩
  rw [h byte (List.mem_of_getElem? hbyte)] at hnot
  cases hnot

theorem IsWord.kept (h : IsWord word) (hposition : position < word.length) :
    Kept word position :=
  ⟨word[position], List.getElem?_eq_getElem hposition, h.unbroken _ (List.getElem_mem hposition)⟩

variable {front : Bytes}

theorem kept_append_iff (h : position < front.length) :
    Kept (front ++ rest) position ↔ Kept front position := by
  unfold Kept
  rw [List.getElem?_append_left h]

theorem kept_add_iff : Kept (front ++ rest) (front.length + position) ↔ Kept rest position := by
  unfold Kept
  rw [List.getElem?_append_right (Nat.le_add_right ..), Nat.add_sub_cancel_left]

-- A byte that is kept is in the first word, or further on.
theorem IsGap.within_or_beyond (hgap : IsGap gap)
    (hkept : Kept (gap ++ (word ++ rest)) position) :
    (gap.length ≤ position ∧ position < (gap ++ word).length) ∨
      ∃ later, Kept rest later ∧ position = (gap ++ word).length + later := by
  by_cases hwithin : position < (gap ++ word).length
  · left
    refine ⟨Nat.le_of_not_lt fun hlt => ?_, hwithin⟩
    exact hgap.not_kept ((kept_append_iff hlt).mp hkept)
  · right
    obtain ⟨later, rfl⟩ := Nat.exists_eq_add_of_le (Nat.le_of_not_lt hwithin)
    rw [← List.append_assoc] at hkept
    exact ⟨later, kept_add_iff.mp hkept, rfl⟩

theorem unbroken_shift_iff :
    Unbroken (front ++ rest) (run.shift front.length) ↔ Unbroken rest run := by
  constructor
  · rintro ⟨hnonempty, hkept⟩
    refine ⟨Nat.lt_of_add_lt_add_left hnonempty, fun place hstart hstop => ?_⟩
    exact kept_add_iff.mp
      (hkept _ (Nat.add_le_add_left hstart _) (Nat.add_lt_add_left hstop _))
  · rintro ⟨hnonempty, hkept⟩
    refine ⟨Nat.add_lt_add_left hnonempty _, fun place hstart hstop => ?_⟩
    obtain ⟨later, rfl⟩ := Nat.exists_eq_add_of_le (Nat.le_trans (Nat.le_add_right ..) hstart)
    exact kept_add_iff.mpr
      (hkept later (Nat.le_of_add_le_add_left hstart) (Nat.lt_of_add_lt_add_left hstop))

-- Bytes in front move the runs. They join none of them if no run begins at once.
section Front

variable (hapart : ∀ byte ∈ rest.head?, isBlank byte = true)

include hapart

theorem not_kept_zero : ¬Kept rest 0 := by
  rintro ⟨byte, hbyte, hnot⟩
  rw [← List.head?_eq_getElem?] at hbyte
  rw [hapart byte hbyte] at hnot
  cases hnot

theorem IsRun.start_pos (h : IsRun rest run) : 0 < run.start := by
  rw [Nat.pos_iff_ne_zero]
  intro hzero
  have hkept := h.unbroken.kept_start
  rw [hzero] at hkept
  exact not_kept_zero hapart hkept

theorem isRun_shift_iff : IsRun (front ++ rest) (run.shift front.length) ↔ IsRun rest run := by
  constructor
  · intro h
    obtain ⟨hrun, hbefore, hstop⟩ := isRun_iff.mp h
    refine isRun_iff.mpr ⟨unbroken_shift_iff.mp hrun, fun before heq hkept => ?_, ?_⟩
    · have hmoved : front.length + before + 1 = (run.shift front.length).start := by
        rw [Nat.add_assoc, heq]
        rfl
      exact hbefore _ hmoved (kept_add_iff.mpr hkept)
    · exact fun hkept => hstop (kept_add_iff.mpr hkept)
  · intro h
    have hpos := h.start_pos hapart
    obtain ⟨hrun, hbefore, hstop⟩ := isRun_iff.mp h
    refine isRun_iff.mpr ⟨unbroken_shift_iff.mpr hrun, fun before heq hkept => ?_, ?_⟩
    · have hmoved : before + 1 = front.length + run.start := heq
      obtain ⟨earlier, rfl⟩ : ∃ earlier, before = front.length + earlier :=
        Nat.exists_eq_add_of_le (by omega)
      exact hbefore earlier (by omega) (kept_add_iff.mp hkept)
    · exact fun hkept => hstop (kept_add_iff.mp hkept)

variable (hgap : IsGap gap) (hword : IsWord word)

include hgap hword

theorem isRun_first :
    IsRun (gap ++ (word ++ rest)) ⟨gap.length, (gap ++ word).length⟩ := by
  have hnonempty := List.length_pos_iff.mpr hword.nonempty
  refine isRun_iff.mpr ⟨⟨by simpa using hnonempty, fun place hstart hstop => ?_⟩, ?_, ?_⟩
  · obtain ⟨within, rfl⟩ := Nat.exists_eq_add_of_le hstart
    have hlt : within < word.length := by simpa using hstop
    rw [kept_add_iff, kept_append_iff hlt]
    exact hword.kept hlt
  · intro before hbefore
    rw [kept_append_iff (Nat.lt_of_succ_le (Nat.le_of_eq hbefore))]
    exact hgap.not_kept
  · intro hkept
    rw [← List.append_assoc] at hkept
    exact not_kept_zero hapart (kept_add_iff.mp hkept)

theorem isRun_word_iff :
    IsRun (gap ++ (word ++ rest)) run ↔ run = ⟨gap.length, (gap ++ word).length⟩ ∨
      ∃ later, IsRun rest later ∧ run = later.shift (gap ++ word).length := by
  have hfirst := isRun_first hapart hgap hword
  constructor
  · intro h
    have hnonempty := h.unbroken.nonempty
    rcases hgap.within_or_beyond h.unbroken.kept_start with
      ⟨hstart, hwithin⟩ | ⟨start, -, hstart⟩
    · exact .inl (h.eq_of_overlap hfirst (Nat.le_refl _) hnonempty hstart hwithin)
    · have hshift : run = Stretch.shift ⟨start, run.stop - (gap ++ word).length⟩
          (gap ++ word).length := by
        rw [Stretch.shift, ← hstart, Nat.add_sub_cancel' (by omega)]
      rw [hshift, ← List.append_assoc] at h
      exact .inr ⟨_, (isRun_shift_iff hapart).mp h, hshift⟩
  · rintro (rfl | ⟨later, hlater, rfl⟩)
    · exact hfirst
    · rw [← List.append_assoc]
      exact (isRun_shift_iff hapart).mpr hlater

end Front

theorem Stretch.cut_shift (stretch : Stretch) (front rest : Bytes) :
    (stretch.shift front.length).cut (front ++ rest) = stretch.cut rest := by
  rw [Stretch.cut, Stretch.shift, List.take_length_add_append, List.drop_length_add_append]
  rfl

-- The runs from left to right, each to the left of all that follow.
structure RunsOf (bytes : Bytes) (runs : List Stretch) : Prop where
  ordered : runs.Pairwise (fun run next => run.stop < next.start)
  complete : ∀ run, run ∈ runs ↔ IsRun bytes run

theorem RunsOf.cons_word {runs : List Stretch}
    (hapart : ∀ byte ∈ rest.head?, isBlank byte = true) (hgap : IsGap gap) (hword : IsWord word)
    (h : RunsOf rest runs) :
    RunsOf (gap ++ (word ++ rest)) (⟨gap.length, (gap ++ word).length⟩ ::
      runs.map (·.shift (gap ++ word).length)) := by
  refine ⟨List.pairwise_cons.mpr ⟨?_, ?_⟩, fun run => ?_⟩
  · intro next hnext
    obtain ⟨later, hlater, rfl⟩ := List.mem_map.mp hnext
    have hpos := ((h.complete later).mp hlater).start_pos hapart
    simp only [Stretch.shift]
    omega
  · rw [List.pairwise_map]
    exact h.ordered.imp (fun hlt => Nat.add_lt_add_left hlt _)
  · rw [isRun_word_iff hapart hgap hword, List.mem_cons, List.mem_map]
    simp only [h.complete, eq_comm]

-- The words are what the runs cut out.
theorem Spaced.exists_runsOf (h : Spaced words bytes) :
    ∃ runs, RunsOf bytes runs ∧ words = runs.map (·.cut bytes) := by
  induction h with
  | gap hgap =>
      refine ⟨[], ⟨List.Pairwise.nil, fun run => ?_⟩, rfl⟩
      have hnone : ¬IsRun _ run := fun hrun => hgap.not_kept hrun.unbroken.kept_start
      simpa using hnone
  | @word gap word rest words hgap hword hapart hrest ih =>
      obtain ⟨runs, hruns, hwords⟩ := ih
      refine ⟨_, hruns.cons_word hapart hgap hword, ?_⟩
      rw [List.map_cons, List.map_map]
      congr 1
      · rw [Stretch.cut, ← List.append_assoc, List.take_left, List.drop_left]
      · rw [hwords]
        refine List.map_congr_left fun run _ => ?_
        rw [Function.comp_apply, ← List.append_assoc, Stretch.cut_shift]

-- Every byte that is not a blank is in a run.
theorem Spaced.exists_isRun (h : Spaced words bytes) (hkept : Kept bytes position) :
    ∃ run, IsRun bytes run ∧ run.start ≤ position ∧ position < run.stop := by
  induction h generalizing position with
  | gap hgap => exact absurd hkept hgap.not_kept
  | word hgap hword hapart _ ih =>
      rcases hgap.within_or_beyond hkept with ⟨hstart, hwithin⟩ | ⟨later, hlater, rfl⟩
      · exact ⟨_, isRun_first hapart hgap hword, hstart, hwithin⟩
      · obtain ⟨run, hrun, hstart, hstop⟩ := ih hlater
        exact ⟨_, (isRun_word_iff hapart hgap hword).mpr (.inr ⟨run, hrun, rfl⟩),
          Nat.add_le_add_left hstart _, Nat.add_lt_add_left hstop _⟩

theorem RunsOf.existsUnique {runs : List Stretch} (h : RunsOf bytes runs)
    (hkept : Kept bytes position) :
    ∃! run, run ∈ runs ∧ run.start ≤ position ∧ position < run.stop := by
  obtain ⟨run, hrun, hstart, hstop⟩ := (spaced_ofWords bytes).exists_isRun hkept
  refine ⟨run, ⟨(h.complete run).mpr hrun, hstart, hstop⟩, ?_⟩
  rintro other ⟨hmem, hfrom, hto⟩
  exact ((h.complete other).mp hmem).eq_of_overlap hrun hfrom hto hstart hstop

theorem isBlank_iff {byte : UInt8} :
    isBlank byte = true ↔ (byte = 32 ∨ (9 ≤ byte ∧ byte ≤ 13)) ∧ byte ≠ 11 := by
  simp only [isBlank, Bool.or_eq_true, decide_eq_true_eq, ← UInt8.toNat_inj, UInt8.le_iff_toNat_le,
    UInt8.reduceToNat, Ne]
  omega

-- The tokens of a line are its longest stretches without a blank, from left to right. The
-- blanks are the white space of ASCII, except that a vertical tab is a byte like any other and
-- ends up in a token wherever it stands.
theorem decode_eq_runs (h : bytes.head? ≠ some Sigil.array) :
    (∃ runs, RunsOf bytes runs ∧ decode bytes = runs.map (·.cut bytes) ∧
      ∀ position, Kept bytes position →
        ∃! run, run ∈ runs ∧ run.start ≤ position ∧ position < run.stop) ∧
    (∀ token ∈ decode bytes, token ≠ [] ∧ ∀ byte ∈ token, isBlank byte = false) ∧
    (∀ byte, isBlank byte = true ↔ (byte = 32 ∨ (9 ≤ byte ∧ byte ≤ 13)) ∧ byte ≠ 11) ∧
    (11 ∈ bytes → ∃ token ∈ decode bytes, 11 ∈ token) := by
  have hspaced := spaced_ofWords bytes
  rw [decode, if_neg h]
  obtain ⟨runs, hruns, hwords⟩ := hspaced.exists_runsOf
  refine ⟨⟨runs, hruns, hwords, fun position hkept => hruns.existsUnique hkept⟩, ?_, ?_, ?_⟩
  · intro token hmem
    have hword := hspaced.isWord token hmem
    exact ⟨hword.nonempty, hword.unbroken⟩
  · exact fun byte => isBlank_iff
  · intro hmem
    have hkept : 11 ∈ (ofWords bytes).flatten := by
      rw [hspaced.flatten_eq]
      exact List.mem_filter.mpr ⟨hmem, by decide⟩
    exact List.mem_flatten.mp hkept

-- Blanks at both ends, two of them in a row, and a vertical tab between a digit and a byte
-- that is no text.
theorem decode_eq_runs_mixed :
    let bytes : Bytes := [9, 10, 36, 51, 11, 255, 13, 10, 39, 12, 34, 98, 32]
    let tokens : List Bytes := [[36, 51, 11, 255], [39], [34, 98]]
    bytes.head? ≠ some Sigil.array ∧ decode bytes = tokens ∧
      (∃ runs, RunsOf bytes runs ∧ runs.map (·.cut bytes) = tokens) ∧
      ∀ token ∈ tokens, ∀ byte ∈ token, isBlank byte = false := by
  intro bytes tokens
  have hhead : bytes.head? ≠ some Sigil.array := by decide
  have hdecode : decode bytes = tokens := by decide
  obtain ⟨⟨runs, hruns, hcut, -⟩, hfree, -⟩ := decode_eq_runs hhead
  rw [hdecode] at hcut hfree
  exact ⟨hhead, hdecode, ⟨runs, hruns, hcut.symm⟩, fun token hmem => (hfree token hmem).2⟩

-- Two letters with a vertical tab between them are one token.
theorem verticalTab_kept :
    let bytes : Bytes := [97, 11, 98]
    bytes.head? ≠ some Sigil.array ∧ decode bytes = [bytes] ∧ 11 ∈ bytes ∧
      decode bytes ≠ [[97], [98]] := by
  decide

end KeyValue.Request
