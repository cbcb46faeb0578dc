import KeyValue.Proofs.FileSystem.Draft

namespace KeyValue.FileSystem

variable {files files' : FileSystem} {place target : Place} {path : Path} {names : List Bytes}

-- Where a path leads, if it leads anywhere. What stands on the way only decides whether it does.
def placeOf (path : Path) : Place := path.steps.foldl Place.step root

theorem walk_eq_foldl (h : files.walk place names = .ok target) :
    target = names.foldl Place.step place := by
  induction names generalizing place with
  | nil => exact (Except.ok.inj h).symm
  | cons name rest ih => exact ih (walk_cons_eq_ok_iff.mp h).2.2

theorem locate_eq_placeOf (h : files.locate path = .ok target) : target = placeOf path :=
  walk_eq_foldl (locate_eq_ok_iff.mp h).2

theorem entry?_of_find {entry : Entry} (h : files.find path = .ok (some entry)) :
    files.entry? (placeOf path) = some entry := by
  unfold find at h
  cases hlocate : files.locate path with
  | error cause =>
      rw [hlocate] at h
      cases h
  | ok target =>
      rw [hlocate] at h
      rw [← locate_eq_placeOf hlocate]
      exact Except.ok.inj h

theorem placeOf_ne_of_locate_draft {draft : Place} (h : files.locate path.draft = .ok draft) :
    draft ≠ placeOf path := by
  by_cases hempty : path = []
  · rw [locate_eq_placeOf h, hempty]
    decide
  obtain ⟨target, htarget, hne⟩ := locate_of_draft hempty h
  exact locate_eq_placeOf htarget ▸ hne.symm

-- Nobody has written to a file in between. Every file that is there was there before, with the
-- same contents. Files may have been removed, and directories made or removed.
def Unwritten (files files' : FileSystem) : Prop :=
  ∀ place contents, files'.entry? place = some (.file contents) →
    files.entry? place = some (.file contents)

namespace Unwritten

theorem refl (files : FileSystem) : Unwritten files files := fun _ _ => id

theorem trans {files'' : FileSystem} (h : Unwritten files files') (h' : Unwritten files' files'') :
    Unwritten files files'' :=
  fun place contents hfile => h place contents (h' place contents hfile)

end Unwritten

theorem remove_unwritten (hplace : place ≠ root) : Unwritten files (files.remove place) := by
  intro other contents hfile
  rw [entry?_remove hplace] at hfile
  split at hfile
  · cases hfile
  · exact hfile

theorem put_directory_unwritten (hplace : place ≠ root) :
    Unwritten files (files.put place .directory) := by
  intro other contents hfile
  rw [entry?_put hplace] at hfile
  split at hfile
  · cases hfile
  · exact hfile

theorem removeFile_unwritten (files : FileSystem) (path : Path) :
    Unwritten files (files.removeFile path) := by
  unfold removeFile
  split
  · split
    · rename_i hentry
      exact remove_unwritten (ne_root_of_file fun hdirectory => by
        cases hentry.symm.trans hdirectory)
    · exact .refl files
  · exact .refl files

theorem makeAlong_unwritten (files : FileSystem) (place : Place) (names : List Bytes) :
    Unwritten files (files.makeAlong place names) := by
  induction names generalizing files place with
  | nil => exact .refl files
  | cons name rest ih =>
      simp only [makeAlong]
      split
      · exact ih files (place.step name)
      · exact .refl files
      · rename_i hentry
        have hroot : place.step name ≠ root := ne_root_of_file fun hdirectory => by
          cases hentry.symm.trans hdirectory
        split
        · exact .refl files
        · exact (put_directory_unwritten hroot).trans (ih _ (place.step name))

theorem makeDirectory_unwritten (files : FileSystem) (path : Path) :
    Unwritten files (files.makeDirectory path) := by
  unfold makeDirectory
  split
  · exact .refl files
  · exact makeAlong_unwritten files root path.names

end KeyValue.FileSystem
