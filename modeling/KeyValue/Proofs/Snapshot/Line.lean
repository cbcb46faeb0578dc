import KeyValue.Proofs.Bytes
import KeyValue.Proofs.ByteMap
import KeyValue.Proofs.Snapshot.Escape
import KeyValue.Snapshot.Decode

namespace KeyValue.Snapshot

-- A snapshot is a sequence of written records, each on a line of its own.

def Value.tag : Value → UInt8
  | .string _ => stringTag
  | .list _ => listTag
  | .hash _ => hashTag

def Value.tokens : Value → List Bytes
  | .string value => [escape value]
  | .list items => items.map escape
  | .hash fields => fields.entries.map fun (field, value) => fieldToken field value

def Record.written (record : Record) : Bytes :=
  record.value.tag :: (escape record.key ++ record.value.tokens.flatMap (Bytes.space :: ·))

def recordsOf {α : Type} (build : α → Value) (map : ByteMap α) : List Record :=
  map.entries.map fun (key, value) => ⟨key, build value⟩

def records (data : Namespaces) : List Record :=
  recordsOf .string data.strings ++ recordsOf .list data.lists ++ recordsOf .hash data.hashes

theorem encode_eq_written (data : Namespaces) :
    encode data = ((records data).map Record.written).flatMap (· ++ [Bytes.lineFeed]) := by
  simp only [encode, encodeStrings, encodeLists, encodeHashes, records, recordsOf,
    List.map_append, List.flatMap_append, List.map_map, List.flatMap_map]
  rfl

theorem field?_fieldToken (field value : Bytes) :
    field? (fieldToken field value) = some (field, value) := by
  have hfree : ∀ byte ∈ escape field, decide (byte ≠ colon) = true := fun byte hbyte =>
    decide_eq_true fun heq => not_mem_escape (by decide) (by decide) field (heq ▸ hbyte)
  unfold field? fieldToken
  rw [List.dropWhile_append_of_pos hfree, List.takeWhile_append_of_pos hfree]
  simp [unescape_escape]

theorem fields?_tokens (fields : ByteMap Bytes) :
    fields? (Value.hash fields).tokens = some fields := by
  have hread : (fields.entries.map fun (field, value) => fieldToken field value).mapM field? =
      some fields.entries := by
    induction fields.entries with
    | nil => rfl
    | cons entry rest ih => simp [field?_fieldToken, ih]
  rw [Value.tokens, fields?, hread, Option.map_some, ByteMap.ofList_entries]

theorem value?_tokens (value : Value) : value? value.tag value.tokens = some value := by
  cases value with
  | string value => simp [value?, Value.tag, Value.tokens, unescape_escape]
  | list items =>
      have hitems : (items.map escape).map unescape = items := by
        simp [Function.comp_def, unescape_escape]
      rw [value?, Value.tag, if_neg (by decide), if_pos rfl, Value.tokens, hitems]
  | hash fields =>
      rw [value?, Value.tag, if_neg (by decide), if_neg (by decide), if_pos rfl, fields?_tokens,
        Option.map_some]

-- No written token holds a byte that separates tokens or lines.
theorem not_mem_tokens {byte : UInt8} (hpercent : byte ≠ percent) (hcolon : byte ≠ colon)
    (h : isReserved byte = true) (value : Value) : ∀ token ∈ value.tokens, byte ∉ token := by
  intro token htoken
  cases value with
  | string value =>
      rw [List.mem_singleton.mp htoken]
      exact not_mem_escape hpercent h value
  | list items =>
      obtain ⟨item, _, rfl⟩ := List.mem_map.mp htoken
      exact not_mem_escape hpercent h item
  | hash fields =>
      obtain ⟨⟨field, value⟩, _, rfl⟩ := List.mem_map.mp htoken
      simp only [fieldToken, List.mem_append, List.mem_cons, not_or]
      exact ⟨not_mem_escape hpercent h field, hcolon, not_mem_escape hpercent h value⟩

theorem record?_written (record : Record) : record? record.written = some record := by
  obtain ⟨key, value⟩ := record
  have hhead : Bytes.space ∉ value.tag :: escape key := by
    refine List.not_mem_cons_of_ne_of_not_mem ?_ (not_mem_escape (by decide) (by decide) key)
    cases value <;> simp only [Value.tag] <;> decide
  have hsplit : Bytes.splitOn Bytes.space (Record.written ⟨key, value⟩) =
      (value.tag :: escape key) :: value.tokens :=
    Bytes.splitOn_append_flatMap_cons hhead
      (not_mem_tokens (by decide) (by decide) (by decide) value)
  obtain ⟨byte, rest, hkey⟩ := List.exists_cons_of_ne_nil (escape_ne_nil key)
  rw [record?, hsplit, hkey]
  simp only [value?_tokens, Option.map_some]
  rw [← hkey, unescape_escape]

theorem lineFeed_not_mem_written (record : Record) : Bytes.lineFeed ∉ record.written := by
  obtain ⟨key, value⟩ := record
  have htokens : ∀ token ∈ value.tokens, Bytes.lineFeed ∉ token :=
    not_mem_tokens (by decide) (by decide) (by decide) value
  have htag : Bytes.lineFeed ≠ value.tag := by
    cases value <;> simp only [Value.tag] <;> decide
  simp only [Record.written, List.mem_cons, List.mem_append, List.mem_flatMap, not_or, not_exists,
    not_and]
  exact ⟨htag, not_mem_escape (by decide) (by decide) key, fun token htoken =>
    ⟨by decide, htokens token htoken⟩⟩

theorem splitOn_encode (data : Namespaces) :
    (encode data).splitOn Bytes.lineFeed = (records data).map Record.written ++ [[]] := by
  rw [encode_eq_written]
  refine Bytes.splitOn_flatMap_append_singleton fun line hline => ?_
  obtain ⟨record, _, rfl⟩ := List.mem_map.mp hline
  exact lineFeed_not_mem_written record

theorem line_written (loaded : Loaded) (record : Record) :
    loaded.line record.written =
      ⟨record.store loaded.data, loaded.counts.add record.value⟩ := by
  rw [Loaded.line, record?_written]
  rfl

-- Decoding what was written stores the written records one after another.
theorem decode_encode_eq_foldl (data : Namespaces) :
    decode (encode data) =
      ⟨(records data).foldl (fun data record => record.store data) .empty,
        ((records data).map Record.value).foldl Counts.add .zero⟩ := by
  have hfold (written : List Record) (start : Loaded) :
      (written.map Record.written).foldl Loaded.line start =
        ⟨written.foldl (fun data record => record.store data) start.data,
          (written.map Record.value).foldl Counts.add start.counts⟩ := by
    induction written generalizing start with
    | nil => rfl
    | cons record rest ih => simp only [List.map_cons, List.foldl_cons, line_written, ih]
  rw [decode, splitOn_encode, List.foldl_append, hfold]
  rfl

end KeyValue.Snapshot
