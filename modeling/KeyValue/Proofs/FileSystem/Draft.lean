import KeyValue.Proofs.Bytes
import KeyValue.Proofs.FileSystem.Actions

namespace KeyValue

namespace Path

variable {last : Bytes}

-- What is looked up where a path ends in this name. With none at all that is the directory,
-- by what it calls itself.
def asked (last : Bytes) : Bytes := if last = [] then here else last

theorem asked_length_le (last : Bytes) : (asked last).length ≤ last.length + 1 := by
  cases last <;> simp [asked, here]

theorem steps_of_not_mem (h : slash ∉ last) : steps last = [asked last] := by
  cases last with
  | nil => rfl
  | cons byte rest =>
      have hslash : endsInSlash (byte :: rest) = false := by
        rw [endsInSlash, List.getLast?_eq_some_getLast (List.cons_ne_nil byte rest)]
        exact decide_eq_false fun heq => h (heq ▸ List.getLast_mem _)
      rw [steps, hslash, names, Bytes.splitOn_of_not_mem h]
      rfl

theorem steps_append_slash (before : Bytes) (h : slash ∉ last) :
    steps (before ++ slash :: last) = names before ++ [asked last] := by
  have hnames : names (before ++ slash :: last) = names before ++ names last := by
    rw [names, Bytes.splitOn_append_separator, List.filter_append]
    rfl
  have hslash : endsInSlash (before ++ slash :: last) = endsInSlash last := by
    simp [endsInSlash, List.getLast?_append, List.getLast?_cons]
  rw [← steps_of_not_mem h, steps, steps, hnames, hslash]
  split
  · rw [List.append_assoc]
  · rfl

-- A path is its directory and a last name, and what is put after the path goes to the name.
theorem exists_last (path : Path) : ∃ around last, slash ∉ last ∧
    ∀ suffix, slash ∉ suffix → (path ++ suffix).steps = around ++ [asked (last ++ suffix)] := by
  by_cases hslash : slash ∈ path
  · obtain ⟨after, before, hpath, hafter⟩ :=
      List.eq_append_cons_of_mem (List.mem_reverse.mpr hslash)
    have hpath : path = before.reverse ++ slash :: after.reverse := by
      rw [← List.reverse_reverse path, hpath]
      simp
    refine ⟨names before.reverse, after.reverse, by simpa using hafter, fun suffix hsuffix => ?_⟩
    rw [hpath, List.append_assoc, List.cons_append]
    exact steps_append_slash before.reverse (by simp [hafter, hsuffix])
  · refine ⟨[], path, hslash, fun suffix hsuffix => ?_⟩
    exact steps_of_not_mem (by simp [hslash, hsuffix])

end Path

namespace FileSystem

variable {files : FileSystem} {path : Path} {place draft target : Place}

theorem walk_append_eq_ok_iff {names names' : List Bytes} :
    files.walk place (names ++ names') = .ok target ↔
      ∃ middle, files.walk place names = .ok middle ∧ files.walk middle names' = .ok target := by
  induction names generalizing place with
  | nil => simp [walk]
  | cons name rest ih =>
      simp only [List.cons_append, walk_cons_eq_ok_iff, ih, exists_and_left, and_assoc]

theorem walk_singleton_eq_ok_iff {name : Bytes} :
    files.walk place [name] = .ok target ↔
      files.entry? place = some .directory ∧ name.length ≤ maxName ∧ place.step name = target := by
  rw [walk_cons_eq_ok_iff, walk, Except.ok.injEq]

-- A longer name leads elsewhere, if it is more than what a directory calls the one around it.
theorem Place.step_ne_of_length_lt {name other : Bytes} (place : Place)
    (h : name.length < other.length) (hother : Path.up.length < other.length) :
    place.step name ≠ place.step other := by
  have hstep : place.step other = place.inside other := by
    rw [step, if_neg, if_neg]
    · exact fun heq => absurd (heq ▸ hother) (by decide)
    · exact fun heq => absurd (heq ▸ hother) (by decide)
  rw [hstep, step]
  intro heq
  split at heq
  · exact absurd (congrArg Place.depth heq) (by simp [inside])
  · split at heq
    · have hdepth := congrArg Place.depth heq
      simp only [around, inside] at hdepth
      omega
    · have hname : name = other := (List.cons.inj (congrArg Place.names heq)).1
      exact absurd h (by simp [hname])

theorem refusal?_of_append {suffix : Bytes} (hne : path ≠ [])
    (h : refusal? (path ++ suffix) = none) : refusal? path = none := by
  obtain ⟨-, hzero, hlength⟩ := refusal?_eq_none_iff.mp h
  rw [List.contains_append, Bool.or_eq_false_iff] at hzero
  rw [List.length_append] at hlength
  exact refusal?_eq_none_iff.mpr ⟨hne, hzero.1, by omega⟩

-- Wherever a draft can be written, the path itself leads to another place, unless it is empty.
theorem locate_of_draft (hne : path ≠ []) (h : files.locate path.draft = .ok draft) :
    ∃ target, files.locate path = .ok target ∧ target ≠ draft := by
  obtain ⟨around, last, -, hsteps⟩ := path.exists_last
  let name := last ++ Bytes.ofText ".tmp"
  have hname : name.length = last.length + 4 := List.length_append
  have hpath : path.steps = around ++ [Path.asked last] := by
    simpa using hsteps [] (by simp)
  have hdraft : path.draft.steps = around ++ [name] := by
    have hlast : name ≠ [] := List.ne_nil_of_length_pos (by omega)
    rw [Path.draft, hsteps _ (by decide), Path.asked, if_neg hlast]
  have hasked := Path.asked_length_le last
  have hup : Path.up.length = 2 := rfl
  obtain ⟨haccepted, hwalk⟩ := locate_eq_ok_iff.mp h
  rw [hdraft] at hwalk
  obtain ⟨parent, hparent, hlast⟩ := walk_append_eq_ok_iff.mp hwalk
  obtain ⟨hdirectory, hlength, rfl⟩ := walk_singleton_eq_ok_iff.mp hlast
  refine ⟨parent.step (Path.asked last), locate_eq_ok_iff.mpr ⟨refusal?_of_append hne haccepted, ?_⟩,
    parent.step_ne_of_length_lt (by omega) (by omega)⟩
  rw [hpath]
  exact walk_append_eq_ok_iff.mpr
    ⟨parent, hparent, walk_singleton_eq_ok_iff.mpr ⟨hdirectory, by omega, rfl⟩⟩

end FileSystem

end KeyValue
