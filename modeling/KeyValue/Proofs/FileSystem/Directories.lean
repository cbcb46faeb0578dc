import KeyValue.FileSystem

namespace KeyValue.FileSystem

variable {files files' : FileSystem} {place target : Place} {path : Path}

theorem lookup_filter_ne (entries : List (Place × Entry)) (place other : Place) :
    (entries.filter (·.1 != place)).lookup other =
      if other = place then none else entries.lookup other := by
  induction entries with
  | nil => simp
  | cons head rest ih =>
      obtain ⟨first, entry⟩ := head
      by_cases hother : other = first
      · subst hother
        by_cases hplace : other = place
        · simp only [hplace, List.filter_cons, bne_self_eq_false, Bool.false_eq_true, if_false,
            if_true] at ih ⊢
          exact ih
        · simp [hplace]
      · have hskip : (other == first) = false := beq_eq_false_iff_ne.mpr hother
        by_cases hplace : first = place
        · simp [hplace, ← ih, List.lookup_cons, hplace ▸ hskip]
        · simp [hplace, ih, List.lookup_cons, hskip]

-- The root stays whatever is done.
@[simp] theorem entry?_root (files : FileSystem) : files.entry? root = some .directory := if_pos rfl

theorem entry?_remove (hplace : place ≠ root) (other : Place) :
    entry? (files.remove place) other = if other = place then none else files.entry? other := by
  by_cases hroot : other = root
  · subst hroot
    simp [Ne.symm hplace]
  · unfold entry?
    rw [if_neg hroot, if_neg hroot, remove, lookup_filter_ne]

theorem entry?_put (hplace : place ≠ root) (entry : Entry) (other : Place) :
    entry? (files.put place entry) other =
      if other = place then some entry else files.entry? other := by
  by_cases hother : other = place
  · subst hother
    unfold entry?
    rw [if_neg hplace, if_pos rfl, put, List.lookup_cons_self]
  · have hskip : (other == place) = false := beq_eq_false_iff_ne.mpr hother
    have hput : entry? (files.put place entry) other = entry? (files.remove place) other := by
      unfold entry?
      rw [put, List.lookup_cons, hskip]
    rw [hput, entry?_remove hplace]
    simp [hother]

-- Only the last of what is put at a place stays there.
theorem put_put (files : FileSystem) (place : Place) (first second : Entry) :
    (files.put place first).put place second = files.put place second := by
  simp [put, remove, List.filter_filter]

-- Where two file systems have the same directories, the same paths lead to the same places.
def SameDirectories (files files' : FileSystem) : Prop :=
  ∀ place, files.entry? place = some .directory ↔ files'.entry? place = some .directory

namespace SameDirectories

theorem refl (files : FileSystem) : SameDirectories files files := fun _ => Iff.rfl

theorem symm (h : SameDirectories files files') : SameDirectories files' files :=
  fun place => (h place).symm

theorem trans {files'' : FileSystem} (h : SameDirectories files files')
    (h' : SameDirectories files' files'') : SameDirectories files files'' :=
  fun place => (h place).trans (h' place)

end SameDirectories

theorem ne_root_of_file (h : files.entry? place ≠ some .directory) : place ≠ root :=
  fun hroot => h (hroot ▸ entry?_root files)

theorem put_file_sameDirectories (h : files.entry? place ≠ some .directory) (contents : Bytes) :
    SameDirectories files (files.put place (.file contents)) := by
  intro other
  rw [entry?_put (ne_root_of_file h)]
  split
  · rename_i hother
    subst hother
    simpa using h
  · rfl

theorem remove_sameDirectories (h : files.entry? place ≠ some .directory) :
    SameDirectories files (files.remove place) := by
  intro other
  rw [entry?_remove (ne_root_of_file h)]
  split
  · rename_i hother
    subst hother
    simpa using h
  · rfl

theorem walk_cons_eq_ok_iff {name : Bytes} {rest : List Bytes} :
    files.walk place (name :: rest) = .ok target ↔
      files.entry? place = some .directory ∧ name.length ≤ maxName ∧
        files.walk (place.step name) rest = .ok target := by
  rw [walk]
  split
  · simp [*]
  · simp [*]
  · by_cases hname : maxName < name.length
    · simp [*, Nat.not_le_of_lt hname]
    · simp [*, Nat.le_of_not_lt hname]

theorem SameDirectories.walk {names : List Bytes} (h : SameDirectories files files')
    (hwalk : files.walk place names = .ok target) : files'.walk place names = .ok target := by
  induction names generalizing place with
  | nil => exact hwalk
  | cons name rest ih =>
      obtain ⟨hplace, hname, hrest⟩ := walk_cons_eq_ok_iff.mp hwalk
      exact walk_cons_eq_ok_iff.mpr ⟨(h place).mp hplace, hname, ih hrest⟩

theorem refusal?_eq_none_iff : refusal? path = none ↔
    path ≠ [] ∧ path.contains 0 = false ∧ path.length ≤ maxPath := by
  unfold refusal?
  split
  · rename_i hempty
    exact iff_of_false (by rintro ⟨⟩) fun h => h.1 hempty
  split
  · rename_i hzero
    exact iff_of_false (by rintro ⟨⟩) fun h => absurd (h.2.1.symm.trans hzero) Bool.false_ne_true
  split
  · rename_i hlong
    exact iff_of_false (by rintro ⟨⟩) fun h => Nat.not_le_of_lt hlong h.2.2
  · rename_i hempty hzero hlong
    exact iff_of_true rfl ⟨hempty, Bool.eq_false_iff.mpr hzero, Nat.le_of_not_lt hlong⟩

theorem locate_eq_ok_iff :
    files.locate path = .ok target ↔
      refusal? path = none ∧ files.walk root path.steps = .ok target := by
  unfold locate
  cases refusal? path <;> simp

theorem SameDirectories.locate (h : SameDirectories files files')
    (hlocate : files.locate path = .ok target) : files'.locate path = .ok target := by
  obtain ⟨haccepted, hwalk⟩ := locate_eq_ok_iff.mp hlocate
  exact locate_eq_ok_iff.mpr ⟨haccepted, h.walk hwalk⟩

theorem destination_eq_ok_iff :
    files.destination path = .ok target ↔
      refusal? path = none ∧ files.walk root path.names = .ok target ∧
        ¬(path.names.getLast? = some Path.here ∨ path.names.getLast? = some Path.up) ∧
        path.endsInSlash = false ∧ files.entry? target ≠ some .directory := by
  unfold destination
  cases refusal? path with
  | some cause => simp
  | none =>
      cases files.walk root path.names with
      | error cause => simp
      | ok place =>
          by_cases hlast : path.names.getLast? = some Path.here ∨ path.names.getLast? = some Path.up
          · simp [hlast]
          · cases hslash : path.endsInSlash with
            | true => simp [hlast]
            | false =>
                by_cases hplace : files.entry? place = some .directory
                · have htarget : place = target → files.entry? target = some .directory :=
                    fun heq => heq ▸ hplace
                  simpa [hlast, hplace] using htarget
                · have htarget : place = target → files.entry? target ≠ some .directory :=
                    fun heq => heq ▸ hplace
                  simpa [hlast, hplace] using htarget

theorem SameDirectories.destination (h : SameDirectories files files')
    (hdestination : files.destination path = .ok target) :
    files'.destination path = .ok target := by
  obtain ⟨haccepted, hwalk, hlast, hslash, htarget⟩ := destination_eq_ok_iff.mp hdestination
  exact destination_eq_ok_iff.mpr
    ⟨haccepted, h.walk hwalk, hlast, hslash, fun hdirectory => htarget ((h target).mpr hdirectory)⟩

-- What can be replaced is found at the very place where the new file will be.
theorem locate_of_destination (h : files.destination path = .ok target) :
    files.locate path = .ok target := by
  obtain ⟨haccepted, hwalk, _, hslash, _⟩ := destination_eq_ok_iff.mp h
  refine locate_eq_ok_iff.mpr ⟨haccepted, ?_⟩
  simpa [Path.steps, hslash] using hwalk

end KeyValue.FileSystem
