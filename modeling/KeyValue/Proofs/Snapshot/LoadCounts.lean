import KeyValue.Proofs.Snapshot.Canonical
import KeyValue.Proofs.Snapshot.LastRecord
import Mathlib.Data.List.Perm.Basic

namespace KeyValue

namespace Namespaces

variable {data : Namespaces} {kind : Kind} {key : Bytes}

def keysOf (data : Namespaces) : Kind → List Bytes
  | .string => data.strings.keys
  | .list => data.lists.keys
  | .hash => data.hashes.keys

def count (data : Namespaces) (kind : Kind) : Nat := (data.keysOf kind).length

theorem mem_keysOf_iff : key ∈ data.keysOf kind ↔ (data.slots key).holds kind = true := by
  rw [← holds_eq_slots]
  cases kind <;> exact ByteMap.mem_keys_iff_contains

theorem nodup_keysOf (data : Namespaces) (kind : Kind) : (data.keysOf kind).Nodup := by
  cases kind <;> exact ByteMap.nodup_keys _

theorem size_eq_count (data : Namespaces) :
    data.size = data.count .string + data.count .list + data.count .hash := by
  simp only [size, count, keysOf, ByteMap.keys, ByteMap.size, List.length_map]

end Namespaces

namespace Snapshot

variable {recorded : List Record} {record : Record} {kind : Kind} {contents : Bytes}

def Counts.of (counts : Counts) : Kind → Nat
  | .string => counts.strings
  | .list => counts.lists
  | .hash => counts.hashes

-- What the well-formed lines say, in their order.
def recordsIn (contents : Bytes) : List Record := (lines contents).filterMap record?

-- The records that decide about their keys, because no later one is for the same key.
def lasting : List Record → List Record
  | [] => []
  | record :: rest =>
      if ∃ later ∈ rest, later.key = record.key then lasting rest else record :: lasting rest

-- The records that a later one for the same key makes void.
def voided : List Record → List Record
  | [] => []
  | record :: rest =>
      if ∃ later ∈ rest, later.key = record.key then record :: voided rest else voided rest

theorem countP_lasting_add_voided (p : Record → Bool) (recorded : List Record) :
    (lasting recorded).countP p + (voided recorded).countP p = recorded.countP p := by
  induction recorded with
  | nil => rfl
  | cons record rest ih =>
      simp only [lasting, voided, List.countP_cons, ← ih]
      split
      · rw [List.countP_cons, Nat.add_assoc]
      · rw [List.countP_cons, Nat.add_right_comm]

theorem lasting_subset (recorded : List Record) : lasting recorded ⊆ recorded := by
  induction recorded with
  | nil => exact List.Subset.refl _
  | cons record rest ih =>
      rw [lasting]
      split
      · exact fun _ h => List.mem_cons_of_mem _ (ih h)
      · exact List.cons_subset_cons record ih

theorem nodup_keys_lasting (recorded : List Record) :
    ((lasting recorded).map Record.key).Nodup := by
  induction recorded with
  | nil => exact List.nodup_nil
  | cons record rest ih =>
      rw [lasting]
      split
      · exact ih
      · rename_i hlast
        rw [List.map_cons, List.nodup_cons]
        refine ⟨fun hmem => hlast ?_, ih⟩
        obtain ⟨later, hlater, hkey⟩ := List.mem_map.mp hmem
        exact ⟨later, lasting_subset rest hlater, hkey⟩

theorem mem_lasting_iff :
    record ∈ lasting recorded ↔ recorded.reverse.find? (·.key = record.key) = some record := by
  induction recorded with
  | nil => simp [lasting]
  | cons first rest ih =>
      rw [lasting, List.reverse_cons, List.find?_append]
      cases hfind : rest.reverse.find? (·.key = record.key) with
      | some last =>
          have hmem : last ∈ rest := List.mem_reverse.mp (List.mem_of_find?_eq_some hfind)
          have hkey : last.key = record.key := by simpa using List.find?_some hfind
          rw [hfind] at ih
          split
          · exact ih
          · rename_i hlast
            have hne : record ≠ first := fun hsame => hlast ⟨last, hmem, hsame ▸ hkey⟩
            rw [List.mem_cons, ih]
            simp [hne]
      | none =>
          have hnone : ∀ later ∈ rest, later.key ≠ record.key := by
            simpa using List.find?_eq_none.mp hfind
          have hrest : record ∉ lasting rest := fun h => by
            rw [ih, hfind] at h
            cases h
          have hself : [first].find? (·.key = record.key) = some record ↔ record = first := by
            by_cases hkey : first.key = record.key
            · simp [hkey, eq_comm]
            · have hne : record ≠ first := fun hsame => hkey (hsame ▸ rfl)
              simp [hkey, hne]
          rw [Option.none_or, hself]
          split
          · rename_i hlater
            obtain ⟨later, hlater, hkey⟩ := hlater
            refine iff_of_false hrest ?_
            rintro rfl
            exact hnone later hlater hkey
          · simp [hrest]

-- What is stored after some records, from the start.
def storedAfter (recorded : List Record) : Namespaces :=
  recorded.foldl (fun data record => record.store data) .empty

theorem mem_keysOf_storedAfter_iff {key : Bytes} :
    key ∈ (storedAfter recorded).keysOf kind ↔
      ∃ record ∈ lasting recorded, record.value.kind? = some kind ∧ record.key = key := by
  rw [Namespaces.mem_keysOf_iff, storedAfter, slots_foldl_store]
  cases hfind : recorded.reverse.find? (·.key = key) with
  | none =>
      have hempty : (Namespaces.empty.slots key).holds kind ≠ true := by
        cases kind <;> simp [Namespaces.slots, Namespaces.empty, Slots.holds]
      refine iff_of_false hempty ?_
      rintro ⟨record, hrecord, -, rfl⟩
      rw [mem_lasting_iff, hfind] at hrecord
      cases hrecord
  | some last =>
      have hkey : last.key = key := by simpa using List.find?_some hfind
      subst hkey
      have hholds : (Slots.ofValue last.value).holds kind = true ↔ last.value.kind? = some kind := by
        rw [(Slots.ofValue_wellFormed last.value).holds_iff, Slots.kind?_ofValue]
      refine hholds.trans ⟨fun h => ⟨last, mem_lasting_iff.mpr hfind, h, rfl⟩, ?_⟩
      rintro ⟨record, hrecord, hkind, hsame⟩
      rw [mem_lasting_iff, hsame, hfind] at hrecord
      rwa [Option.some.inj hrecord]

-- There are as many keys of a kind as lasting records that leave a value of this kind.
theorem count_storedAfter (recorded : List Record) (kind : Kind) :
    (storedAfter recorded).count kind = countOf kind ((lasting recorded).map Record.value) := by
  let left := (lasting recorded).filter fun record => record.value.kind? = some kind
  have hnodup : (left.map Record.key).Nodup :=
    (nodup_keys_lasting recorded).sublist (List.filter_sublist.map Record.key)
  have hkeys : ((storedAfter recorded).keysOf kind).Perm (left.map Record.key) := by
    refine (List.perm_ext_iff_of_nodup (Namespaces.nodup_keysOf _ kind) hnodup).mpr fun key => ?_
    rw [mem_keysOf_storedAfter_iff, List.mem_map]
    simp only [left, List.mem_filter, decide_eq_true_eq, and_assoc]
  rw [Namespaces.count, hkeys.length_eq, List.length_map, ← List.countP_eq_length_filter, countOf,
    List.countP_map]
  rfl

theorem data_decode (contents : Bytes) :
    (decode contents).data = storedAfter (recordsIn contents) := by
  rw [decode_eq_foldl_lines, foldl_line fun _ => ne_nil_of_mem_lines]
  rfl

theorem of_counts_decode (contents : Bytes) (kind : Kind) :
    (decode contents).counts.of kind = countOf kind ((recordsIn contents).map Record.value) := by
  rw [decode_eq_foldl_lines, foldl_line fun _ => ne_nil_of_mem_lines]
  cases kind <;> simp [foldl_add, Counts.of, Counts.zero, recordsIn]

-- Every record that leaves a value is counted, whether or not the value is there in the end.
theorem of_counts_eq (contents : Bytes) (kind : Kind) :
    (decode contents).counts.of kind = (decode contents).data.count kind +
      countOf kind ((voided (recordsIn contents)).map Record.value) := by
  rw [of_counts_decode, data_decode, count_storedAfter]
  simp only [countOf, List.countP_map]
  exact (countP_lasting_add_voided _ _).symm

theorem forall_voided_iff {p : Record → Prop} :
    (∀ record ∈ voided recorded, p record) ↔
      recorded.Pairwise fun earlier later => p earlier ∨ later.key ≠ earlier.key := by
  induction recorded with
  | nil => simp [voided]
  | cons record rest ih =>
      rw [List.pairwise_cons, voided, ← ih]
      split
      · rename_i hvoid
        obtain ⟨later, hlater, hkey⟩ := hvoid
        rw [List.forall_mem_cons]
        refine and_congr_left fun _ => ⟨fun h _ _ => .inl h, fun h => ?_⟩
        exact (h later hlater).resolve_right fun hne => hne hkey
      · rename_i hlast
        exact (and_iff_right fun later hlater => .inr fun hkey => hlast ⟨later, hlater, hkey⟩).symm

-- No record that leaves a value is followed by another one for its key.
def KeysOnce (recorded : List Record) : Prop :=
  recorded.Pairwise fun earlier later => earlier.value.kind? = none ∨ later.key ≠ earlier.key

theorem keysOnce_iff :
    KeysOnce recorded ↔ ∀ kind, countOf kind ((voided recorded).map Record.value) = 0 := by
  have hcount (kind : Kind) : countOf kind ((voided recorded).map Record.value) = 0 ↔
      ∀ record ∈ voided recorded, record.value.kind? ≠ some kind := by
    simp [countOf, List.countP_eq_zero]
  simp only [hcount]
  rw [KeysOnce, ← forall_voided_iff]
  simp only [Option.eq_none_iff_forall_ne_some]
  exact ⟨fun h kind record hrecord => h record hrecord kind,
    fun h record hrecord kind => h kind record hrecord⟩

theorem counts_keys_eq (contents : Bytes) :
    (decode contents).counts.keys = (decode contents).data.size +
      (countOf .string ((voided (recordsIn contents)).map Record.value) +
        countOf .list ((voided (recordsIn contents)).map Record.value) +
        countOf .hash ((voided (recordsIn contents)).map Record.value)) := by
  have hstring := of_counts_eq contents .string
  have hlist := of_counts_eq contents .list
  have hhash := of_counts_eq contents .hash
  simp only [Counts.of] at hstring hlist hhash
  rw [Counts.keys, Namespaces.size_eq_count, hstring, hlist, hhash]
  omega

theorem stats_load {path : Path} {files : FileSystem} (hread : files.read path = .ok (some contents))
    (store : Store) :
    (load path store files).1 = .ok (some (decode contents).counts) ∧
      (load path store files).2.stats.keys = (decode contents).data.size := by
  simp only [load, hread]
  exact ⟨trivial, rfl⟩

-- The numbers that loading a snapshot reports are the numbers of keys that it gives, and all of
-- them, just if no record that leaves a value is followed by another one for its key. In general
-- they exceed these by the number of the values that are lost to later records. What the store
-- itself reports afterwards are the keys it has.
theorem load_counts (contents : Bytes) :
    let loaded := decode contents
    let once := KeysOnce (recordsIn contents)
    (∀ kind, loaded.counts.of kind = loaded.data.count kind +
      countOf kind ((voided (recordsIn contents)).map Record.value)) ∧
    ((∀ kind, loaded.counts.of kind = loaded.data.count kind) ↔ once) ∧
    (loaded.counts.keys = loaded.data.size ↔ once) ∧
    (∀ (path : Path) (store : Store) (files : FileSystem),
      files.read path = .ok (some contents) →
      (load path store files).1 = .ok (some loaded.counts) ∧
        (load path store files).2.stats.keys = loaded.data.size) ∧
    ∀ data : Namespaces, data.WellFormed → contents = encode data → once := by
  intro loaded once
  have hof (kind : Kind) : loaded.counts.of kind = loaded.data.count kind +
      countOf kind ((voided (recordsIn contents)).map Record.value) := of_counts_eq contents kind
  have hkinds : (∀ kind, loaded.counts.of kind = loaded.data.count kind) ↔ once := by
    simp only [hof, Nat.add_eq_left]
    exact keysOnce_iff.symm
  have hkeys : loaded.counts.keys = loaded.data.size ↔ once := by
    rw [counts_keys_eq contents, Nat.add_eq_left, Nat.add_eq_zero_iff, Nat.add_eq_zero_iff]
    refine Iff.trans ⟨?_, fun h => ⟨⟨h .string, h .list⟩, h .hash⟩⟩ keysOnce_iff.symm
    rintro ⟨⟨hstring, hlist⟩, hhash⟩ kind
    cases kind <;> assumption
  refine ⟨hof, hkinds, hkeys, fun path store files hread => stats_load hread store, ?_⟩
  rintro data hdata rfl
  refine hkeys.mp ?_
  simp only [loaded, decode_encode_of_wellFormed hdata]
  rfl

def plainSnapshot : Bytes := Bytes.ofText "Kname Ada\nLqueue 1 2\n"

theorem plainSnapshot_counts :
    let path := Bytes.ofText "db"
    let files := (FileSystem.empty.performAll [.create path, .append path plainSnapshot]).2
    files.read path = .ok (some plainSnapshot) ∧ KeysOnce (recordsIn plainSnapshot) ∧
      (decode plainSnapshot).counts.keys = (decode plainSnapshot).data.size ∧
      (load path .empty files).1 = .ok (some ⟨1, 1, 0, 0⟩) ∧
      (load path .empty files).2.stats.keys = 2 := by
  intro path files
  have hread : files.read path = .ok (some plainSnapshot) := by rfl
  have hcounts : (decode plainSnapshot).counts = ⟨1, 1, 0, 0⟩ := by decide +kernel
  have hsize : (decode plainSnapshot).data.size = 2 := by decide +kernel
  have hwritten : plainSnapshot = encode (decode plainSnapshot).data := by decide +kernel
  obtain ⟨-, -, hkeys, hload, honce⟩ := load_counts plainSnapshot
  have hplain := honce _ (decode_wellFormed plainSnapshot) hwritten
  obtain ⟨hreported, hstore⟩ := hload path .empty files hread
  exact ⟨hread, hplain, hkeys.mpr hplain, hcounts ▸ hreported, hsize ▸ hstore⟩

-- The same key on two lines, first with a string and then with a list.
theorem retyped_key_counted_twice :
    let contents := Bytes.ofText "Kdup first\nLdup a b\n"
    let loaded := decode contents
    let path := Bytes.ofText "db"
    let files := (FileSystem.empty.performAll [.create path, .append path contents]).2
    loaded.counts = ⟨1, 1, 0, 0⟩ ∧ loaded.data.strings.size = 0 ∧ loaded.data.lists.size = 1 ∧
      loaded.counts.keys = 2 ∧ loaded.data.size = 1 ∧
      (load path .empty files).2.stats.keys = 1 := by
  decide +kernel

end Snapshot

end KeyValue
