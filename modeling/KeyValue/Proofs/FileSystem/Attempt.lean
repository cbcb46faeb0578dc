import KeyValue.Proofs.FileSystem.Draft

namespace KeyValue.FileSystem

-- What may be found where the actions, performed in order, are cut off at any moment. Any
-- first part of the bytes to append may have been written by then.
inductive Moment : List Action → FileSystem → FileSystem → Prop
  | now (actions : List Action) (files : FileSystem) : Moment actions files files
  | writing {path : Path} {part bytes : Bytes} {rest : List Action} {files moment : FileSystem}
      (hpart : part <+: bytes) (hwriting : files.perform (.append path part) = .ok moment) :
      Moment (.append path bytes :: rest) files moment
  | later {action : Action} {rest : List Action} {files next moment : FileSystem}
      (hperformed : files.perform action = .ok next) (hrest : Moment rest next moment) :
      Moment (action :: rest) files moment

-- The last moment is the end, where either nothing is left to do or an action has failed.
theorem performAll_moment (files : FileSystem) (actions : List Action) :
    Moment actions files (files.performAll actions).2 := by
  induction actions generalizing files with
  | nil => exact .now [] files
  | cons action rest ih =>
      rw [performAll]
      cases hperformed : files.perform action with
      | error cause => exact .now (action :: rest) files
      | ok next => exact .later hperformed (ih next)

-- What an action leaves that fails: nothing of it, or some first part of the bytes to append.
inductive Remains : Action → FileSystem → FileSystem → Prop
  | nothing (action : Action) (files : FileSystem) : Remains action files files
  | part {path : Path} {part bytes : Bytes} {files left : FileSystem} (hpart : part <+: bytes)
      (hwritten : files.perform (.append path part) = .ok left) :
      Remains (.append path bytes) files left

-- How performing the actions may end on a device that can fail in the middle of any of them,
-- with what is then left.
inductive Attempt : List Action → FileSystem → Bool → FileSystem → Prop
  | finished (files : FileSystem) : Attempt [] files true files
  | failed {action : Action} {rest : List Action} {files left : FileSystem}
      (h : Remains action files left) : Attempt (action :: rest) files false left
  | performed {action : Action} {rest : List Action} {files next left : FileSystem}
      {success : Bool} (hperformed : files.perform action = .ok next)
      (hrest : Attempt rest next success left) : Attempt (action :: rest) files success left

-- The device need not fail.
theorem performAll_attempt (files : FileSystem) (actions : List Action) :
    Attempt actions files (files.performAll actions).1.isOk (files.performAll actions).2 := by
  induction actions generalizing files with
  | nil => exact .finished files
  | cons action rest ih =>
      rw [performAll]
      cases hperformed : files.perform action with
      | error cause => exact .failed (.nothing action files)
      | ok next => exact .performed hperformed (ih next)

theorem Attempt.performAll_eq {actions : List Action} {files left : FileSystem}
    (h : Attempt actions files true left) : files.performAll actions = (.ok (), left) := by
  generalize hsuccess : true = success at h
  induction h with
  | finished files => rfl
  | failed _ => cases hsuccess
  | performed hperformed _ ih => simpa only [performAll, hperformed] using ih hsuccess

-- The actions that change nothing but the file at a path.
def Action.WritesTo (path : Path) : Action → Prop
  | .create other | .append other _ | .sync other => other = path
  | .rename _ _ => False

-- Nothing has been written but a draft of the file at the path.
inductive Drafting (files : FileSystem) (path : Path) : FileSystem → Prop
  | untouched : Drafting files path files
  | drafted {draft : Place} (hlocated : files.locate path.draft = .ok draft)
      (hfile : files.entry? draft ≠ some .directory) (part : Bytes) :
      Drafting files path (files.put draft (.file part))

namespace Drafting

variable {files moment next left : FileSystem} {path source target : Path} {action : Action}
  {actions : List Action}

theorem overFile (h : Drafting files path moment) (result : Option Bytes → Bytes)
    (hover : moment.overFile path.draft result = .ok next) : Drafting files path next := by
  obtain ⟨place, hplace, hfile, rfl⟩ := (overFile_eq_ok_iff result).mp hover
  cases h with
  | untouched => exact .drafted hplace hfile _
  | drafted hlocated hdraft part =>
      -- The draft is still where it was, so it is the draft that is written over.
      have hstill := (put_file_sameDirectories hdraft part).locate hlocated
      cases hplace.symm.trans hstill
      rw [put_put]
      exact .drafted hlocated hdraft _

theorem perform (h : Drafting files path moment) (haction : action.WritesTo path.draft)
    (hperformed : moment.perform action = .ok next) : Drafting files path next := by
  cases action with
  | create other =>
      cases haction
      exact h.overFile (fun _ => []) hperformed
  | append other bytes =>
      cases haction
      exact h.overFile (fun old => old.getD [] ++ bytes) hperformed
  | sync other =>
      cases hperformed
      exact h
  | rename source target => cases haction

theorem remains (h : Drafting files path moment) (haction : action.WritesTo path.draft)
    (hremains : Remains action moment left) : Drafting files path left := by
  cases hremains with
  | nothing => exact h
  | @part _ part _ _ _ _ hwritten =>
      cases haction
      exact h.overFile (fun old => old.getD [] ++ part) hwritten

-- As long as only the draft is written to, it is all that can be found or left behind. A file
-- that is moved is moved at once.

theorem of_moment (h : Drafting files path moment)
    (hactions : ∀ action ∈ actions, action.WritesTo path.draft)
    (hmoment : Moment (actions ++ [.rename source target]) moment left) :
    Drafting files path left ∨
      moment.performAll (actions ++ [.rename source target]) = (.ok (), left) := by
  induction actions generalizing moment with
  | nil =>
      cases hmoment with
      | now => exact .inl h
      | later hrename hend =>
          cases hend
          exact .inr (by simp only [List.nil_append, performAll, hrename])
  | cons action rest ih =>
      obtain ⟨haction, hrest⟩ := List.forall_mem_cons.mp hactions
      cases hmoment with
      | now => exact .inl h
      | writing hpart hwriting => exact .inl (h.remains haction (.part hpart hwriting))
      | later hperformed hlater =>
          rw [List.cons_append, performAll, hperformed]
          exact ih (h.perform haction hperformed) hrest hlater

theorem of_attempt (h : Drafting files path moment)
    (hactions : ∀ action ∈ actions, action.WritesTo path.draft)
    (hattempt : Attempt (actions ++ [.rename source target]) moment false left) :
    Drafting files path left := by
  induction actions generalizing moment with
  | nil =>
      cases hattempt with
      | failed hremains =>
          cases hremains
          exact h
      | performed _ hend => cases hend
  | cons action rest ih =>
      obtain ⟨haction, hrest⟩ := List.forall_mem_cons.mp hactions
      cases hattempt with
      | failed hremains => exact h.remains haction hremains
      | performed hperformed hlater => exact ih (h.perform haction hperformed) hrest hlater

-- The path leads to another place than its draft does, or is empty and leads nowhere.
theorem find_eq (h : Drafting files path moment) : moment.find path = files.find path := by
  cases h with
  | untouched => rfl
  | drafted hlocated hfile part =>
      by_cases hempty : path = []
      · simp only [find, locate, refusal?, if_pos hempty, Except.map]
      obtain ⟨target, htarget, hne⟩ := locate_of_draft hempty hlocated
      have hstill := (put_file_sameDirectories hfile part).locate htarget
      simp only [find, htarget, hstill, Except.map, entry?_put (ne_root_of_file hfile),
        if_neg hne]

theorem entry?_eq (h : Drafting files path moment) {place : Place}
    (hplace : files.locate path.draft ≠ .ok place) : moment.entry? place = files.entry? place := by
  cases h with
  | untouched => rfl
  | drafted hlocated hfile part =>
      have hne : place ≠ _ := fun heq => hplace (heq ▸ hlocated)
      rw [entry?_put (ne_root_of_file hfile), if_neg hne]

end Drafting

end KeyValue.FileSystem
