import KeyValue.Proofs.Snapshot.LineParts
import KeyValue.Proofs.Snapshot.Records

namespace KeyValue

open Snapshot (Value)

namespace Slots

variable {value : Value}

theorem kind?_ofValue : (ofValue value).kind? = value.kind? := by
  cases value with
  | string value => rfl
  | list items => cases items <;> rfl
  | hash fields =>
      simp only [ofValue, Value.kind?]
      split <;> rfl

theorem string_ofValue_iff {data : Bytes} :
    (ofValue value).string = some data ↔ value = .string data := by
  cases value with
  | string value => simp [ofValue]
  | list items => cases items <;> simp [ofValue, vacant]
  | hash fields =>
      simp only [ofValue]
      split <;> simp [vacant]

theorem list_ofValue_iff {items : List Bytes} :
    (ofValue value).list = some items ↔ value = .list items ∧ items ≠ [] := by
  cases value with
  | string value => simp [ofValue]
  | list other =>
      simp only [ofValue, List.isEmpty_iff, Value.list.injEq]
      split
      · rename_i hempty
        subst hempty
        simp [vacant, eq_comm]
      · rename_i hother
        simp only [Option.some.injEq]
        exact ⟨fun h => ⟨h, h ▸ hother⟩, fun h => h.1⟩
  | hash fields =>
      simp only [ofValue]
      split <;> simp [vacant]

theorem hash_ofValue_iff {fields : ByteMap Bytes} :
    (ofValue value).hash = some fields ↔ value = .hash fields ∧ fields ≠ .empty := by
  cases value with
  | string value => simp [ofValue]
  | list items => cases items <;> simp [ofValue, vacant]
  | hash other =>
      simp only [ofValue, ByteMap.isEmpty_iff, Value.hash.injEq]
      split
      · rename_i hempty
        subst hempty
        simp [vacant, eq_comm]
      · rename_i hother
        simp only [Option.some.injEq]
        exact ⟨fun h => ⟨h, h ▸ hother⟩, fun h => h.1⟩

end Slots

namespace Snapshot

variable {contents key : Bytes}

-- The lines of a snapshot, without the empty ones.
def lines (contents : Bytes) : List Bytes := (contents.splitOn Bytes.lineFeed).filter (· ≠ [])

theorem decode_eq_foldl_lines (contents : Bytes) :
    decode contents = (lines contents).foldl Loaded.line ⟨.empty, .zero⟩ := by
  have hempty : (fun (loaded : Loaded) line =>
      if decide (line ≠ []) = true then loaded.line line else loaded) = Loaded.line := by
    funext loaded line
    cases line <;> rfl
  rw [decode, lines, List.foldl_filter, hempty]

theorem line_of_ne_nil {line : Bytes} (h : line ≠ []) (loaded : Loaded) :
    loaded.line line = match record? line with
      | some record => ⟨record.store loaded.data, loaded.counts.add record.value⟩
      | none => { loaded with counts := loaded.counts.skip } := by
  cases line with
  | nil => exact absurd rfl h
  | cons first rest => rfl

theorem Counts.skipped_add (counts : Counts) (value : Value) :
    (counts.add value).skipped = counts.skipped := by
  rw [add_eq]
  split <;> rfl

-- Records are stored one after another, and malformed lines are only counted.
theorem foldl_line {lines : List Bytes} (h : ∀ line ∈ lines, line ≠ []) (loaded : Loaded) :
    lines.foldl Loaded.line loaded =
      ⟨(lines.filterMap record?).foldl (fun data record => record.store data) loaded.data,
        { ((lines.filterMap record?).map Record.value).foldl Counts.add loaded.counts with
          skipped := loaded.counts.skipped + lines.countP fun line => ¬Line.WellFormed line }⟩ := by
  induction lines generalizing loaded with
  | nil => rfl
  | cons line rest ih =>
      obtain ⟨hline, hrest⟩ := List.forall_mem_cons.mp h
      rw [List.foldl_cons, ih hrest, line_of_ne_nil hline, List.countP_cons]
      simp only [Line.wellFormed_iff_isSome]
      cases hrecord : record? line with
      | some record => simp [hrecord, Counts.skipped_add]
      | none =>
          simp only [hrecord, List.filterMap_cons, foldl_add, Counts.skip]
          simp [Nat.add_assoc, Nat.add_comm]

theorem IsLast.has {α : Type} {p : α → Prop} {items : List α} {item : α}
    (h : IsLast p items item) : p item := by
  obtain ⟨-, -, -, hitem, -⟩ := h
  exact hitem

theorem ne_nil_of_mem_lines {line : Bytes} (h : line ∈ lines contents) : line ≠ [] := by
  simpa using (List.mem_filter.mp h).2

-- The record that decides about a key comes from the last line that is a record for the key.
theorem find?_records_eq_some_iff {record : Record} :
    ((lines contents).filterMap record?).reverse.find? (·.key = key) = some record ↔
      ∃ line, IsLast (Line.Names key) (lines contents) line ∧ record? line = some record := by
  rw [← List.filterMap_reverse, List.find?_filterMap, Option.bind_eq_some_iff]
  have hnames : (fun line => (record? line).any fun record => decide (record.key = key)) =
      fun line => decide (Line.Names key line) :=
    funext fun line => by rw [Bool.eq_iff_iff, ← Line.names_iff_any, decide_eq_true_iff]
  simp only [hnames, isLast_iff_find?]

-- What holds of the values under a key holds of what the last record for the key leaves there.
theorem slots_decode_iff {P : Slots → Prop} (hvacant : ¬P .vacant) :
    P ((decode contents).data.slots key) ↔
      ∃ line, IsLast (Line.Names key) (lines contents) line ∧
        ∃ value, Line.Gives line value ∧ P (.ofValue value) := by
  rw [decode_eq_foldl_lines, foldl_line fun _ => ne_nil_of_mem_lines, slots_foldl_store]
  constructor
  · intro h
    split at h
    · rename_i record hfind
      obtain ⟨line, hlast, hrecord⟩ := find?_records_eq_some_iff.mp hfind
      exact ⟨line, hlast, record.value, (Line.record?_eq_some_iff.mp hrecord).2, h⟩
    · exact absurd h hvacant
  · rintro ⟨line, hlast, value, hgives, h⟩
    have hrecord : record? line = some ⟨key, value⟩ :=
      Line.record?_eq_some_iff.mpr ⟨hlast.has, hgives⟩
    rw [find?_records_eq_some_iff.mpr ⟨line, hlast, hrecord⟩]
    exact h

-- Whether a record leaves a value under its key, and of which kind, can be told without a look
-- at what its tokens say.
theorem Line.Gives.kind?_iff {line : Bytes} {value : Value} (h : Gives line value) :
    (value.kind? = some .string ↔ line.head? = some stringTag) ∧
    (value.kind? = some .list ↔ line.head? = some listTag ∧ tokens line ≠ []) ∧
    (value.kind? = some .hash ↔ line.head? = some hashTag ∧ tokens line ≠ []) := by
  cases value with
  | string value => simp [h.1, Value.kind?, stringTag, listTag, hashTag]
  | list items =>
      obtain ⟨htag, rfl⟩ := h
      simp [htag, Value.kind?, stringTag, listTag, hashTag]
  | hash fields =>
      obtain ⟨htag, hspells⟩ := h
      simp [htag, Value.kind?, ByteMap.isEmpty_iff, hspells.eq_empty_iff, stringTag, listTag,
        hashTag]

theorem Line.Gives.kind?_ne_none_iff {line : Bytes} {value : Value} (h : Gives line value) :
    value.kind? ≠ none ↔ line.head? = some stringTag ∨ tokens line ≠ [] := by
  cases value with
  | string value => simp [h.1, Value.kind?]
  | list items =>
      obtain ⟨htag, rfl⟩ := h
      simp [htag, Value.kind?, stringTag, listTag]
  | hash fields =>
      obtain ⟨htag, hspells⟩ := h
      simp [htag, Value.kind?, ByteMap.isEmpty_iff, hspells.eq_empty_iff, stringTag, hashTag]

theorem kind?_decode_ne_none_iff :
    (decode contents).data.kind? key ≠ none ↔
      ∃ line, IsLast (Line.Names key) (lines contents) line ∧
        (line.head? = some stringTag ∨ Line.tokens line ≠ []) := by
  refine (slots_decode_iff (P := (·.kind? ≠ none)) (by simp [Slots.kind?, Slots.vacant])).trans ?_
  refine exists_congr fun line => and_congr_right fun hlast => ?_
  simp only [Slots.kind?_ofValue]
  constructor
  · rintro ⟨value, hgives, hkind⟩
    exact hgives.kind?_ne_none_iff.mp hkind
  · intro hleft
    obtain ⟨value, hgives⟩ := hlast.has.1.exists_gives
    exact ⟨value, hgives, hgives.kind?_ne_none_iff.mpr hleft⟩

theorem strings_decode_iff {value : Bytes} :
    (decode contents).data.strings.get? key = some value ↔
      ∃ line, IsLast (Line.Names key) (lines contents) line ∧ Line.Gives line (.string value) := by
  refine (slots_decode_iff (P := (·.string = some value)) (by simp [Slots.vacant])).trans ?_
  simp [Slots.string_ofValue_iff]

theorem lists_decode_iff {items : List Bytes} :
    (decode contents).data.lists.get? key = some items ↔
      ∃ line, IsLast (Line.Names key) (lines contents) line ∧ Line.tokens line ≠ [] ∧
        Line.Gives line (.list items) := by
  refine (slots_decode_iff (P := (·.list = some items)) (by simp [Slots.vacant])).trans ?_
  refine exists_congr fun line => and_congr_right fun _ => ?_
  simp only [Slots.list_ofValue_iff]
  constructor
  · rintro ⟨value, hgives, rfl, hitems⟩
    rw [hgives.2] at hitems
    exact ⟨by simpa using hitems, hgives⟩
  · rintro ⟨htokens, hgives⟩
    refine ⟨_, hgives, rfl, ?_⟩
    rw [hgives.2]
    simpa using htokens

theorem hashes_decode_iff {fields : ByteMap Bytes} :
    (decode contents).data.hashes.get? key = some fields ↔
      ∃ line, IsLast (Line.Names key) (lines contents) line ∧ Line.tokens line ≠ [] ∧
        Line.Gives line (.hash fields) := by
  refine (slots_decode_iff (P := (·.hash = some fields)) (by simp [Slots.vacant])).trans ?_
  refine exists_congr fun line => and_congr_right fun _ => ?_
  simp only [Slots.hash_ofValue_iff]
  constructor
  · rintro ⟨value, hgives, rfl, hfields⟩
    exact ⟨fun htokens => hfields (hgives.2.eq_empty_iff.mpr htokens), hgives⟩
  · rintro ⟨htokens, hgives⟩
    exact ⟨_, hgives, rfl, fun hempty => htokens (hgives.2.eq_empty_iff.mp hempty)⟩

theorem countOf_eq_countP (kind : Kind) (lines : List Bytes) {p : Bytes → Prop} [DecidablePred p]
    (h : ∀ line value, Line.Gives line value →
      (value.kind? = some kind ↔ p line)) :
    countOf kind ((lines.filterMap record?).map Record.value) =
      lines.countP fun line => Line.WellFormed line ∧ p line := by
  rw [countOf, List.countP_map, List.countP_filterMap]
  refine List.countP_congr fun line _ => ?_
  cases hrecord : record? line with
  | none =>
      have hnot : ¬Line.WellFormed line := by simp [Line.wellFormed_iff_isSome, hrecord]
      simp [hnot]
  | some record =>
      obtain ⟨hnames, hgives⟩ := Line.record?_eq_some_iff.mp hrecord
      simp [hnames.1, h line record.value hgives]

theorem counts_decode (contents : Bytes) :
    (decode contents).counts =
      { strings := (lines contents).countP fun line =>
          Line.WellFormed line ∧ line.head? = some stringTag
        lists := (lines contents).countP fun line =>
          Line.WellFormed line ∧ line.head? = some listTag ∧ Line.tokens line ≠ []
        hashes := (lines contents).countP fun line =>
          Line.WellFormed line ∧ line.head? = some hashTag ∧ Line.tokens line ≠ []
        skipped := (lines contents).countP fun line => ¬Line.WellFormed line } := by
  rw [decode_eq_foldl_lines, foldl_line fun _ => ne_nil_of_mem_lines]
  simp only [foldl_add, Counts.zero, Nat.zero_add]
  congr 1
  · exact countOf_eq_countP .string _ fun line value hgives => hgives.kind?_iff.1
  · exact countOf_eq_countP .list _ fun line value hgives => hgives.kind?_iff.2.1
  · exact countOf_eq_countP .hash _ fun line value hgives => hgives.kind?_iff.2.2

-- A key is held if the last well-formed line that names it leaves a value, and then it holds what
-- that line says. Malformed lines do nothing but count.
theorem decode_last_record (contents : Bytes) :
    (∀ key,
      ((decode contents).data.kind? key ≠ none ↔
        ∃ line, IsLast (Line.Names key) (lines contents) line ∧
          (line.head? = some stringTag ∨ Line.tokens line ≠ [])) ∧
      (∀ value, (decode contents).data.strings.get? key = some value ↔
        ∃ line, IsLast (Line.Names key) (lines contents) line ∧ Line.Gives line (.string value)) ∧
      (∀ items, (decode contents).data.lists.get? key = some items ↔
        ∃ line, IsLast (Line.Names key) (lines contents) line ∧ Line.tokens line ≠ [] ∧
          Line.Gives line (.list items)) ∧
      ∀ fields, (decode contents).data.hashes.get? key = some fields ↔
        ∃ line, IsLast (Line.Names key) (lines contents) line ∧ Line.tokens line ≠ [] ∧
          Line.Gives line (.hash fields)) ∧
    (decode contents).counts =
      { strings := (lines contents).countP fun line =>
          Line.WellFormed line ∧ line.head? = some stringTag
        lists := (lines contents).countP fun line =>
          Line.WellFormed line ∧ line.head? = some listTag ∧ Line.tokens line ≠ []
        hashes := (lines contents).countP fun line =>
          Line.WellFormed line ∧ line.head? = some hashTag ∧ Line.tokens line ≠ []
        skipped := (lines contents).countP fun line => ¬Line.WellFormed line } := by
  exact ⟨fun key => ⟨kind?_decode_ne_none_iff, fun value => strings_decode_iff,
    fun items => lists_decode_iff, fun fields => hashes_decode_iff⟩, counts_decode contents⟩

end Snapshot

end KeyValue
