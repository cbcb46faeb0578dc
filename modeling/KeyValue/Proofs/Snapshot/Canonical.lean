import KeyValue.Proofs.Snapshot.File

namespace KeyValue

open FileSystem (Place)

namespace Snapshot

variable {data : Namespaces} {contents : Bytes} {files : FileSystem} {path : Path}
  {draft target : Place}

-- How many keys of each kind there are.
def Counts.ofData (data : Namespaces) : Counts where
  strings := data.strings.size
  lists := data.lists.size
  hashes := data.hashes.size
  skipped := 0

theorem decode_encode_of_wellFormed (h : data.WellFormed) :
    decode (encode data) = ⟨data, .ofData data⟩ := by
  have hlists : (data.lists.filter fun _ items => !items.isEmpty).size = data.lists.size := by
    refine ByteMap.size_filter_of_forall fun key items hitems => ?_
    cases items with
    | nil => exact absurd hitems (h.lists_nonempty key)
    | cons first rest => rfl
  have hhashes : (data.hashes.filter fun _ fields => !fields.isEmpty).size =
      data.hashes.size := by
    refine ByteMap.size_filter_of_forall fun key fields hfields => ?_
    rw [Bool.not_eq_true', Bool.eq_false_iff]
    intro hempty
    exact h.hashes_nonempty key (ByteMap.isEmpty_iff.mp hempty ▸ hfields)
  have hcounts : (decode (encode data)).counts = .ofData data := by
    rw [counts_decode_encode, hlists, hhashes, Counts.ofData]
  have hdata := (data_decode_encode_eq_iff data).mpr h
  exact congrArg₂ Loaded.mk hdata hcounts

-- Loads the snapshot at the path and writes it back.
def reload (now : Nat) (path : Path) (store : Store) (files : FileSystem) :
    Except FileError Written × Store × FileSystem :=
  dump now path (load path store files).2 files

-- It does not matter when this happens, or what was stored before.
theorem reload_eq (h : Replaceable files path draft target)
    (hread : files.read path = .ok (some contents)) (now : Nat) (store : Store) :
    let data := (decode contents).data
    reload now path store files =
      (.ok ⟨data.size, (encode data).length⟩, ((store.restore data).purge now).2,
        replaced files draft target (encode data)) := by
  intro data
  have hload : (load path store files).2 = store.restore data := by
    simp only [load, hread, data]
  have hlive : (store.restore data).keyspace.live now = data :=
    Keyspace.live_of_no_deadlines data now
  rw [reload, hload, h.dump_eq, hlive]

-- Whatever the bytes are, what is read from them can be written without loss, and then it is
-- written as it will be read and written from then on.
theorem decode_canonical (contents : Bytes) :
    let data := (decode contents).data
    data.WellFormed ∧ decode (encode data) = ⟨data, .ofData data⟩ ∧
    encode (decode (encode data)).data = encode data ∧
    ∀ now path store files, files.read path = .ok (some contents) →
      (reload now path store files).1.isOk = true →
      let once := (reload now path store files).2.2
      once.read path = .ok (some (encode data)) ∧
      ∀ later other, (reload later path other once).1.isOk = true ∧
        (reload later path other once).2.2.read path = once.read path := by
  intro data
  have hdata : data.WellFormed := decode_wellFormed contents
  have hdecode := decode_encode_of_wellFormed hdata
  refine ⟨hdata, hdecode, by rw [hdecode], fun now path store files hread hok => ?_⟩
  obtain ⟨draft, target, hreplaceable⟩ := exists_replaceable_of_dump hok
  have honce : (reload now path store files).2.2 = replaced files draft target (encode data) := by
    rw [reload_eq hreplaceable hread]
  have hreadOnce : (reload now path store files).2.2.read path = .ok (some (encode data)) := by
    rw [honce]
    exact hreplaceable.read_replaced (encode data)
  refine ⟨hreadOnce, fun later other => ?_⟩
  have hagain := honce ▸ hreplaceable.again (encode data)
  rw [reload_eq hagain hreadOnce, hdecode]
  exact ⟨rfl, (hagain.read_replaced (encode data)).trans hreadOnce.symm⟩

-- A list that a later line erases, a string that a hash replaces, a field that is set twice,
-- an escape that is none, and two lines that are no records.
def roughSnapshot : Bytes :=
  Bytes.ofText "La 1 2\nK%62\nL%61\nHb f:1 f:2\nHc f\nX\nK% %4"

theorem roughSnapshot_canonical :
    let path := Bytes.ofText "db"
    let files := (FileSystem.empty.performAll [.create path, .append path roughSnapshot]).2
    files.read path = .ok (some roughSnapshot) ∧ (reload 5 path .empty files).1.isOk = true ∧
      (decode roughSnapshot).data.WellFormed ∧ (decode roughSnapshot).counts.skipped = 2 ∧
      (reload 5 path .empty files).2.2.read path =
        .ok (some (Bytes.ofText "K% %254\nHb f:2\n")) := by
  intro path files
  have hread : files.read path = .ok (some roughSnapshot) := by rfl
  have hok : (reload 5 path .empty files).1.isOk = true := by decide +kernel
  have hwritten : encode (decode roughSnapshot).data = Bytes.ofText "K% %254\nHb f:2\n" := by
    decide +kernel
  obtain ⟨hdata, -, -, hreload⟩ := decode_canonical roughSnapshot
  exact ⟨hread, hok, hdata, by decide +kernel,
    hwritten ▸ (hreload 5 path .empty files hread hok).1⟩

end Snapshot

end KeyValue
