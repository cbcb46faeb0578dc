import KeyValue.Proofs.FileSystem.Actions
import KeyValue.Proofs.Snapshot.RoundTrip
import KeyValue.Snapshot.File

namespace KeyValue

open FileSystem (Place SameDirectories)

namespace Snapshot

variable {files : FileSystem} {path : Path} {draft target : Place}

-- A snapshot at the path can be replaced: its draft can be written, and can then be moved.
structure Replaceable (files : FileSystem) (path : Path) (draft target : Place) : Prop where
  located : files.locate path.draft = .ok draft
  draft_file : files.entry? draft ≠ some .directory
  destined : files.destination path = .ok target

theorem Replaceable.target_file (h : Replaceable files path draft target) :
    files.entry? target ≠ some .directory :=
  (FileSystem.destination_eq_ok_iff.mp h.destined).2.2.2.2

theorem Replaceable.path_ne_nil (h : Replaceable files path draft target) : path ≠ [] :=
  (FileSystem.refusal?_eq_none_iff.mp (FileSystem.destination_eq_ok_iff.mp h.destined).1).1

theorem Replaceable.transfer {files' : FileSystem} (h : Replaceable files path draft target)
    (hsame : SameDirectories files files') : Replaceable files' path draft target where
  located := hsame.locate h.located
  draft_file hdirectory := h.draft_file ((hsame draft).mpr hdirectory)
  destined := hsame.destination h.destined

-- The file systems that the replacement goes through.
def created (files : FileSystem) (draft : Place) : FileSystem := files.put draft (.file [])

def written (files : FileSystem) (draft : Place) (contents : Bytes) : FileSystem :=
  (created files draft).put draft (.file contents)

def replaced (files : FileSystem) (draft target : Place) (contents : Bytes) : FileSystem :=
  ((written files draft contents).remove draft).put target (.file contents)

namespace Replaceable

variable (h : Replaceable files path draft target) (contents : Bytes)

include h

theorem draft_ne_root : draft ≠ FileSystem.root := FileSystem.ne_root_of_file h.draft_file

theorem perform_create : files.perform (.create path.draft) = .ok (created files draft) :=
  FileSystem.create_eq_ok_iff.mpr ⟨draft, h.located, h.draft_file, rfl⟩

theorem perform_append : (created files draft).perform (.append path.draft contents) =
    .ok (written files draft contents) := by
  have hcreated := h.transfer (FileSystem.perform_sameDirectories h.perform_create)
  refine FileSystem.append_eq_ok_iff.mpr ⟨draft, hcreated.located, hcreated.draft_file, ?_⟩
  rw [created, FileSystem.contents?_put_file h.draft_ne_root]
  rfl

theorem written_sameDirectories : SameDirectories files (written files draft contents) :=
  (FileSystem.perform_sameDirectories h.perform_create).trans
    (FileSystem.perform_sameDirectories (h.perform_append contents))

theorem perform_rename : (written files draft contents).perform (.rename path.draft path) =
    .ok (replaced files draft target contents) := by
  have hwritten := h.transfer (h.written_sameDirectories contents)
  have hdraft : FileSystem.entry? (written files draft contents) draft = some (.file contents) := by
    rw [written, FileSystem.entry?_put h.draft_ne_root, if_pos rfl]
  exact FileSystem.rename_eq_ok_iff.mpr
    ⟨draft, contents, target, hwritten.located, hdraft, hwritten.destined, rfl⟩

theorem performAll_replacement : files.performAll (replacement path contents) =
    (.ok (), replaced files draft target contents) := by
  have hsync : (written files draft contents).perform (.sync path.draft) =
      .ok (written files draft contents) := rfl
  simp only [replacement, FileSystem.performAll, h.perform_create, h.perform_append contents,
    hsync, h.perform_rename contents]

-- So the next snapshot can be written as well.
theorem again : Replaceable (replaced files draft target contents) path draft target :=
  h.transfer ((h.written_sameDirectories contents).trans
    (FileSystem.perform_sameDirectories (h.perform_rename contents)))

theorem find_replaced :
    (replaced files draft target contents).find path = .ok (some (.file contents)) := by
  have hlocate := FileSystem.locate_of_destination (h.again contents).destined
  have hentry : FileSystem.entry? (replaced files draft target contents) target =
      some (.file contents) := by
    rw [replaced, FileSystem.entry?_put (FileSystem.ne_root_of_file h.target_file), if_pos rfl]
  rw [FileSystem.find, hlocate, Except.map, hentry]

theorem read_replaced :
    (replaced files draft target contents).read path = .ok (some contents) := by
  rw [FileSystem.read, h.find_replaced]

end Replaceable

-- A replacement that succeeds does so because of the directories, which it leaves alone.
theorem exists_replaceable {contents : Bytes}
    (h : (files.performAll (replacement path contents)).1 = .ok ()) :
    ∃ draft target, Replaceable files path draft target := by
  obtain ⟨created, hcreate, h⟩ := FileSystem.performAll_cons_eq_ok h
  obtain ⟨written, happend, h⟩ := FileSystem.performAll_cons_eq_ok h
  obtain ⟨synced, hsync, h⟩ := FileSystem.performAll_cons_eq_ok h
  obtain ⟨renamed, hrename, -⟩ := FileSystem.performAll_cons_eq_ok h
  obtain ⟨draft, hlocated, hdraft, -⟩ := FileSystem.create_eq_ok_iff.mp hcreate
  obtain ⟨-, -, target, -, -, hdestined, -⟩ := FileSystem.rename_eq_ok_iff.mp hrename
  have hsynced : SameDirectories files synced :=
    (FileSystem.perform_sameDirectories hcreate).trans
      ((FileSystem.perform_sameDirectories happend).trans
        (FileSystem.perform_sameDirectories hsync))
  exact ⟨draft, target, hlocated, hdraft, hsynced.symm.destination hdestined⟩

theorem dump_eq_performAll (now : Nat) (path : Path) (store : Store) (files : FileSystem) :
    dump now path store files =
      let live := store.keyspace.live now
      let performed := files.performAll (replacement path (encode live))
      (performed.1.map fun _ => ⟨live.size, (encode live).length⟩, (store.purge now).2,
        performed.2) := by
  have hdump : dump now path store files =
      let snapshot := store.snapshot now
      let performed := files.performAll (replacement path (encode snapshot.1))
      (performed.1.map fun _ => ⟨snapshot.1.size, (encode snapshot.1).length⟩, snapshot.2,
        performed.2) := rfl
  simp only [hdump, Store.snapshot, Store.purge, Keyspace.data_purge]

theorem Replaceable.dump_eq (h : Replaceable files path draft target) (now : Nat)
    (store : Store) :
    dump now path store files =
      (.ok ⟨(store.keyspace.live now).size, (encode (store.keyspace.live now)).length⟩,
        (store.purge now).2,
        replaced files draft target (encode (store.keyspace.live now))) := by
  simp only [dump_eq_performAll, h.performAll_replacement]
  rfl

theorem exists_replaceable_of_dump {now : Nat} {store : Store}
    (h : (dump now path store files).1.isOk = true) :
    ∃ draft target, Replaceable files path draft target := by
  let performed := files.performAll (replacement path (encode (store.keyspace.live now)))
  have hperform : performed.1 = .ok () := by
    rw [dump_eq_performAll] at h
    change (performed.1.map _).isOk = true at h
    cases houtcome : performed.1 with
    | error cause =>
        rw [houtcome] at h
        cases h
    | ok _ => rfl
  exact exists_replaceable hperform

theorem read_dump {now : Nat} {store : Store}
    (h : (dump now path store files).1.isOk = true) :
    (dump now path store files).2.2.read path = .ok (some (encode (store.keyspace.live now))) := by
  obtain ⟨draft, target, hreplaceable⟩ := exists_replaceable_of_dump h
  rw [hreplaceable.dump_eq]
  exact hreplaceable.read_replaced _

-- A snapshot of what a server can have stored loses nothing.
theorem load_encode {data : Namespaces} (hdata : data.WellFormed)
    (hread : files.read path = .ok (some (encode data))) (store : Store) :
    load path store files = (.ok (some (decode (encode data)).counts), store.restore data) := by
  simp only [load, hread, (data_decode_encode_eq_iff data).mpr hdata]

end Snapshot

end KeyValue
