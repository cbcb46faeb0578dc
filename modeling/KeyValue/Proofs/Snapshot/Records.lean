import KeyValue.Proofs.Keyspace.WellFormed
import KeyValue.Snapshot.Decode

namespace KeyValue

open Snapshot (Record Value)

-- What a record leaves under its key. An empty list or hash leaves nothing.
def Slots.ofValue : Value → Slots
  | .string value => ⟨some value, none, none⟩
  | .list items => if items.isEmpty then vacant else ⟨none, some items, none⟩
  | .hash fields => if fields.isEmpty then vacant else ⟨none, none, some fields⟩

def Snapshot.Value.kind? : Value → Option Kind
  | .string _ => some .string
  | .list items => if items.isEmpty then none else some .list
  | .hash fields => if fields.isEmpty then none else some .hash

theorem Slots.ofValue_wellFormed (value : Value) : (ofValue value).WellFormed := by
  cases value with
  | string value => exact .string value
  | list items =>
      simp only [ofValue]
      split
      · exact .vacant
      · rename_i hitems
        exact .list items fun hnil => hitems (List.isEmpty_iff.mpr hnil)
  | hash fields =>
      simp only [ofValue]
      split
      · exact .vacant
      · rename_i hfields
        exact .hash fields fun hempty => hfields (ByteMap.isEmpty_iff.mpr hempty)

namespace Snapshot

-- A record decides all that is stored under its key, and nothing else.
theorem slots_store (record : Record) (data : Namespaces) (key : Bytes) :
    (record.store data).slots key =
      if key = record.key then Slots.ofValue record.value else data.slots key := by
  obtain ⟨name, value⟩ := record
  cases value with
  | string value =>
      by_cases h : key = name <;>
        simp [Record.store, Namespaces.slots, Namespaces.erase, Slots.ofValue, h]
  | list items =>
      by_cases hitems : items.isEmpty = true <;> by_cases h : key = name <;>
        simp [Record.store, Namespaces.slots, Namespaces.erase, Slots.ofValue, Slots.vacant, h,
          hitems]
  | hash fields =>
      by_cases hfields : fields.isEmpty = true <;> by_cases h : key = name <;>
        simp [Record.store, Namespaces.slots, Namespaces.erase, Slots.ofValue, Slots.vacant, h,
          hfields]

-- Of several records with the same key the last one counts.
theorem slots_foldl_store (records : List Record) (data : Namespaces) (key : Bytes) :
    (records.foldl (fun data record => record.store data) data).slots key =
      match records.reverse.find? (·.key = key) with
      | some record => Slots.ofValue record.value
      | none => data.slots key := by
  induction records generalizing data with
  | nil => rfl
  | cons record rest ih =>
      rw [List.foldl_cons, ih, List.reverse_cons, List.find?_append]
      cases rest.reverse.find? (·.key = key) with
      | some last => rfl
      | none =>
          rw [slots_store]
          by_cases h : record.key = key
          · simp [h]
          · simp [h, Ne.symm h]

-- A value counts for its kind, unless it leaves nothing.
theorem Counts.add_eq (counts : Counts) (value : Value) :
    counts.add value =
      match value.kind? with
      | none => counts
      | some .string => { counts with strings := counts.strings + 1 }
      | some .list => { counts with lists := counts.lists + 1 }
      | some .hash => { counts with hashes := counts.hashes + 1 } := by
  cases value with
  | string value => rfl
  | list items => cases items <;> rfl
  | hash fields =>
      simp only [Counts.add, Value.kind?]
      split <;> rfl

-- How many of the values leave something of one kind.
def countOf (kind : Kind) (values : List Value) : Nat :=
  values.countP fun value => value.kind? = some kind

theorem foldl_add (values : List Value) (counts : Counts) :
    values.foldl Counts.add counts =
      { strings := counts.strings + countOf .string values
        lists := counts.lists + countOf .list values
        hashes := counts.hashes + countOf .hash values
        skipped := counts.skipped } := by
  induction values generalizing counts with
  | nil => rfl
  | cons value rest ih =>
      rw [List.foldl_cons, ih, Counts.add_eq]
      simp only [countOf, List.countP_cons]
      cases value.kind? with
      | none => simp
      | some kind => cases kind <;> simp [Nat.add_assoc, Nat.add_comm]

theorem store_wellFormed {data : Namespaces} (h : data.WellFormed) (record : Record) :
    (record.store data).WellFormed := by
  refine Namespaces.wellFormed_iff_slots.mpr fun key => ?_
  rw [slots_store]
  split
  · exact Slots.ofValue_wellFormed record.value
  · exact Namespaces.wellFormed_iff_slots.mp h key

theorem line_wellFormed {loaded : Loaded} (h : loaded.data.WellFormed) (line : Bytes) :
    (loaded.line line).data.WellFormed := by
  unfold Loaded.line
  split
  · exact h
  · split
    · exact store_wellFormed h _
    · exact h

theorem wellFormed_empty : Namespaces.empty.WellFormed :=
  Namespaces.wellFormed_iff_slots.mpr fun _ => .vacant

-- Whatever the contents are, each line keeps what the lines before it have given well-formed.
theorem decode_wellFormed (contents : Bytes) : (decode contents).data.WellFormed := by
  unfold decode
  have hstart : (⟨.empty, .zero⟩ : Loaded).data.WellFormed := wellFormed_empty
  generalize (⟨.empty, .zero⟩ : Loaded) = loaded at hstart ⊢
  generalize contents.splitOn Bytes.lineFeed = lines
  induction lines generalizing loaded with
  | nil => exact hstart
  | cons line rest ih => exact ih (loaded.line line) (line_wellFormed hstart line)

end Snapshot

end KeyValue
