import KeyValue.Proofs.Snapshot.Line
import KeyValue.Proofs.Snapshot.Records

namespace KeyValue

-- What is left under a key when its values were written and read back. The kind that is
-- written last decides, even if it has nothing to write.
def Slots.survivor (slots : Slots) : Slots :=
  match slots with
  | ⟨_, _, some fields⟩ => if fields.isEmpty then vacant else ⟨none, none, some fields⟩
  | ⟨_, some items, none⟩ => if items.isEmpty then vacant else ⟨none, some items, none⟩
  | ⟨string, none, none⟩ => ⟨string, none, none⟩

theorem Slots.survivor_wellFormed (slots : Slots) : slots.survivor.WellFormed := by
  unfold survivor
  split
  · exact ofValue_wellFormed (.hash _)
  · exact ofValue_wellFormed (.list _)
  · rename_i string
    cases string with
    | none => exact .vacant
    | some value => exact .string value

theorem Slots.survivor_eq_self_iff (slots : Slots) :
    slots.survivor = slots ↔ slots.WellFormed := by
  constructor
  · intro h
    exact h ▸ slots.survivor_wellFormed
  · intro h
    cases h with
    | vacant => rfl
    | string value => rfl
    | list items hitems => simp [survivor, hitems]
    | hash fields hfields => simp [survivor, ByteMap.isEmpty_iff, hfields]

namespace Snapshot

theorem find?_record {α : Type} (build : α → Value) (key : Bytes) (entries : List (Bytes × α)) :
    (entries.map fun (key, value) => Record.mk key (build value)).find? (·.key = key) =
      (ByteMap.lookup key entries).map fun value => ⟨key, build value⟩ := by
  induction entries with
  | nil => rfl
  | cons entry rest ih =>
      obtain ⟨other, value⟩ := entry
      by_cases h : key = other
      · simp [ByteMap.lookup, h]
      · simp [ByteMap.lookup, h, Ne.symm h, ih]

theorem find?_reverse_recordsOf {α : Type} (build : α → Value) (map : ByteMap α) (key : Bytes) :
    (recordsOf build map).reverse.find? (·.key = key) =
      (map.get? key).map fun value => ⟨key, build value⟩ := by
  rw [recordsOf, ← List.map_reverse, find?_record, ByteMap.lookup_reverse key map.ascending]
  rfl

theorem slots_decode_encode (data : Namespaces) (key : Bytes) :
    (decode (encode data)).data.slots key = (data.slots key).survivor := by
  rw [decode_encode_eq_foldl, slots_foldl_store]
  simp only [records, List.reverse_append, List.find?_append, find?_reverse_recordsOf]
  unfold Namespaces.slots
  cases data.hashes.get? key with
  | some fields => rfl
  | none =>
      cases data.lists.get? key with
      | some items => rfl
      | none => cases data.strings.get? key <;> rfl

theorem countOf_append (kind : Kind) (front back : List Value) :
    countOf kind (front ++ back) = countOf kind front + countOf kind back :=
  List.countP_append

theorem countOf_recordsOf {α : Type} (kind : Kind) (build : α → Value) (map : ByteMap α) :
    countOf kind ((recordsOf build map).map Record.value) =
      (map.filter fun _ value => (build value).kind? = some kind).size := by
  rw [ByteMap.size_filter, recordsOf, List.map_map, countOf, List.countP_map]
  rfl

theorem counts_decode_encode (data : Namespaces) :
    (decode (encode data)).counts =
      { strings := data.strings.size
        lists := (data.lists.filter fun _ items => !items.isEmpty).size
        hashes := (data.hashes.filter fun _ fields => !fields.isEmpty).size
        skipped := 0 } := by
  have hlist (items : List Bytes) :
      decide ((Value.list items).kind? = some .list) = !items.isEmpty := by
    cases items <;> rfl
  have hhash (fields : ByteMap Bytes) :
      decide ((Value.hash fields).kind? = some .hash) = !fields.isEmpty := by
    cases h : fields.isEmpty <;> simp [Value.kind?, h]
  rw [decode_encode_eq_foldl, foldl_add]
  simp only [records, List.map_append, countOf_append, countOf_recordsOf, ByteMap.size_filter,
    hlist, hhash]
  simp [Counts.zero, Value.kind?, ByteMap.size]

theorem data_decode_encode_eq_iff (data : Namespaces) :
    (decode (encode data)).data = data ↔ data.WellFormed := by
  rw [Namespaces.wellFormed_iff_slots]
  constructor
  · intro h key
    rw [← Slots.survivor_eq_self_iff, ← slots_decode_encode, h]
  · intro h
    refine Namespaces.ext_slots fun key => ?_
    rw [slots_decode_encode, (data.slots key).survivor_eq_self_iff.mpr (h key)]

-- Whatever is stored, and whatever bytes it consists of, one value for each key comes back,
-- no line is malformed, and all comes back just if there was nothing that a line cannot say.
theorem decode_encode (data : Namespaces) :
    (∀ key, (decode (encode data)).data.slots key = (data.slots key).survivor) ∧
    (decode (encode data)).counts =
      { strings := data.strings.size
        lists := (data.lists.filter fun _ items => !items.isEmpty).size
        hashes := (data.hashes.filter fun _ fields => !fields.isEmpty).size
        skipped := 0 } ∧
    ((decode (encode data)).data = data ↔ data.WellFormed) :=
  ⟨slots_decode_encode data, counts_decode_encode data, data_decode_encode_eq_iff data⟩

end Snapshot

end KeyValue
