import KeyValue.Proofs.FileSystem.Directories

namespace KeyValue.FileSystem

variable {files files' : FileSystem} {place : Place} {path : Path}

def contents? (files : FileSystem) (place : Place) : Option Bytes :=
  match files.entry? place with
  | some (.file contents) => some contents
  | _ => none

@[simp] theorem contents?_put_file (hplace : place ≠ root) (contents : Bytes) :
    (files.put place (.file contents)).contents? place = some contents := by
  simp [contents?, entry?_put hplace]

theorem overFile_eq_ok_iff (result : Option Bytes → Bytes) :
    files.overFile path result = .ok files' ↔
      ∃ place, files.locate path = .ok place ∧ files.entry? place ≠ some .directory ∧
        files' = files.put place (.file (result (files.contents? place))) := by
  unfold overFile contents?
  cases files.locate path with
  | error cause => simp
  | ok place =>
      simp only [Except.ok.injEq, exists_eq_left']
      split
      · simp [*]
      · simp [*, eq_comm]
      · simp [*, eq_comm]

theorem create_eq_ok_iff :
    files.perform (.create path) = .ok files' ↔
      ∃ place, files.locate path = .ok place ∧ files.entry? place ≠ some .directory ∧
        files' = files.put place (.file []) :=
  overFile_eq_ok_iff fun _ => []

theorem append_eq_ok_iff {bytes : Bytes} :
    files.perform (.append path bytes) = .ok files' ↔
      ∃ place, files.locate path = .ok place ∧ files.entry? place ≠ some .directory ∧
        files' = files.put place (.file ((files.contents? place).getD [] ++ bytes)) :=
  overFile_eq_ok_iff fun old => old.getD [] ++ bytes

theorem rename_eq_ok_iff {source target : Path} :
    files.perform (.rename source target) = .ok files' ↔
      ∃ old contents new, files.locate source = .ok old ∧
        files.entry? old = some (.file contents) ∧ files.destination target = .ok new ∧
          files' = (files.remove old).put new (.file contents) := by
  simp only [perform]
  cases files.locate source with
  | error cause => simp
  | ok old =>
      simp only [Except.ok.injEq, exists_and_left, exists_eq_left']
      split
      · simp [*]
      · simp [*]
      · cases files.destination target with
        | error cause => simp [*, Except.map]
        | ok new => simp [*, Except.map, eq_comm]

theorem overFile_sameDirectories (result : Option Bytes → Bytes)
    (h : files.overFile path result = .ok files') : SameDirectories files files' := by
  obtain ⟨place, -, hfile, rfl⟩ := (overFile_eq_ok_iff result).mp h
  exact put_file_sameDirectories hfile _

-- No action makes a directory or takes one away.
theorem perform_sameDirectories {action : Action} (h : files.perform action = .ok files') :
    SameDirectories files files' := by
  cases action with
  | create path => exact overFile_sameDirectories (fun _ => []) h
  | append path bytes => exact overFile_sameDirectories (fun old => old.getD [] ++ bytes) h
  | sync path =>
      cases h
      exact .refl files
  | rename source target =>
      obtain ⟨old, contents, new, -, hold, hnew, rfl⟩ := rename_eq_ok_iff.mp h
      have hremoved : SameDirectories files (files.remove old) :=
        remove_sameDirectories fun hdirectory => by cases hold.symm.trans hdirectory
      have hfile := (destination_eq_ok_iff.mp (hremoved.destination hnew)).2.2.2.2
      exact hremoved.trans (put_file_sameDirectories hfile contents)

theorem performAll_cons_eq_ok {action : Action} {rest : List Action}
    (h : (files.performAll (action :: rest)).1 = .ok ()) :
    ∃ next, files.perform action = .ok next ∧ (next.performAll rest).1 = .ok () := by
  rw [performAll] at h
  cases haction : files.perform action with
  | error cause => simp [haction] at h
  | ok next => exact ⟨next, rfl, by simpa [haction] using h⟩

end KeyValue.FileSystem
