import KeyValue.Proofs.FileSystem.Attempt
import KeyValue.Proofs.Snapshot.File
import KeyValue.Proofs.Store.Alike

namespace KeyValue

namespace Snapshot

open FileSystem (Moment Attempt Drafting Place)

variable {files moment left : FileSystem} {path : Path} {draft target : Place} {contents : Bytes}

-- All that a replacement does before the draft is moved.
def drafting (path : Path) (contents : Bytes) : List FileSystem.Action :=
  [.create path.draft, .append path.draft contents, .sync path.draft]

theorem replacement_eq (path : Path) (contents : Bytes) :
    replacement path contents = drafting path contents ++ [.rename path.draft path] := rfl

theorem drafting_writesTo (path : Path) (contents : Bytes) :
    ∀ action ∈ drafting path contents, action.WritesTo path.draft := by
  simp [drafting, FileSystem.Action.WritesTo]

theorem moment_replacement (h : Moment (replacement path contents) files moment) :
    Drafting files path moment ∨
      files.performAll (replacement path contents) = (.ok (), moment) := by
  rw [replacement_eq] at h ⊢
  exact FileSystem.Drafting.untouched.of_moment (drafting_writesTo path contents) h

theorem attempt_replacement (h : Attempt (replacement path contents) files false left) :
    Drafting files path left := by
  rw [replacement_eq] at h
  exact FileSystem.Drafting.untouched.of_attempt (drafting_writesTo path contents) h

-- What is as it was, unless it is the draft: the file at the path and every other entry.
structure Untouched (files : FileSystem) (path : Path) (moment : FileSystem) : Prop where
  find : moment.find path = files.find path
  others : ∀ place, files.locate path.draft ≠ .ok place → moment.entry? place = files.entry? place

theorem untouched_of_drafting (h : Drafting files path moment) : Untouched files path moment :=
  ⟨h.find_eq, fun _ => h.entry?_eq⟩

-- Once the draft has been moved it is gone, because it stood elsewhere.
theorem Replaceable.find_draft_replaced (h : Replaceable files path draft target)
    (contents : Bytes) : (replaced files draft target contents).find path.draft = .ok none := by
  obtain ⟨place, hplace, hne⟩ := FileSystem.locate_of_draft h.path_ne_nil h.located
  cases hplace.symm.trans (FileSystem.locate_of_destination h.destined)
  rw [FileSystem.find, (h.again contents).located, Except.map, replaced,
    FileSystem.entry?_put (FileSystem.ne_root_of_file h.target_file), if_neg hne.symm,
    FileSystem.entry?_remove h.draft_ne_root, if_pos rfl]

theorem find_of_performAll_replacement
    (h : files.performAll (replacement path contents) = (.ok (), moment)) :
    moment.find path = .ok (some (.file contents)) ∧ moment.find path.draft = .ok none := by
  obtain ⟨draft, target, hreplaceable⟩ := exists_replaceable (congrArg Prod.fst h)
  cases h.symm.trans (hreplaceable.performAll_replacement contents)
  exact ⟨hreplaceable.find_replaced contents, hreplaceable.find_draft_replaced contents⟩

theorem untouched_of_performAll_replacement {failure : FileError}
    (h : files.performAll (replacement path contents) = (.error failure, moment)) :
    Untouched files path moment := by
  have hattempt := files.performAll_attempt (replacement path contents)
  rw [h] at hattempt
  exact untouched_of_drafting (attempt_replacement hattempt)

-- A dump performs the actions of a replacement. Whenever it is cut off, its path leads to what
-- was there before or to all that is not due. Success means the latter, and a failure leaves at
-- most a draft behind, also where it is the device that fails. The store loses nothing but what
-- is due.
theorem dump_crash_consistent (now : Nat) (path : Path) (store : Store) (files : FileSystem) :
    let live := store.keyspace.live now
    let actions := replacement path (encode live)
    let performed := files.performAll actions
    let dumped := dump now path store files
    dumped = (performed.1.map fun _ => ⟨live.keys.length, (encode live).length⟩,
      (store.purge now).2, performed.2) ∧
    Moment actions files dumped.2.2 ∧
    (∀ moment, Moment actions files moment →
      Untouched files path moment ∨ moment.find path = .ok (some (.file (encode live)))) ∧
    (∀ written, dumped.1 = .ok written →
      dumped.2.2.find path = .ok (some (.file (encode live))) ∧
      dumped.2.2.find path.draft = .ok none ∧
      written = ⟨live.keys.length, (encode live).length⟩) ∧
    (∀ failure, dumped.1 = .error failure → Untouched files path dumped.2.2) ∧
    Attempt actions files performed.1.isOk performed.2 ∧
    (∀ left, Attempt actions files false left → Untouched files path left) ∧
    (∀ left, Attempt actions files true left →
      left.find path = .ok (some (.file (encode live))) ∧ left.find path.draft = .ok none) ∧
    Store.Alike now dumped.2.1 store := by
  intro live actions performed dumped
  obtain ⟨outcome, left, hperformed⟩ :
      ∃ outcome left, files.performAll actions = (outcome, left) := ⟨_, _, rfl⟩
  have hdumped : dumped = (outcome.map fun _ => ⟨live.size, (encode live).length⟩,
      (store.purge now).2, left) := by
    simp only [dumped, dump_eq_performAll]
    rw [hperformed]
  rw [hdumped, Namespaces.length_keys]
  refine ⟨by simp only [performed, hperformed], ?_, fun moment hmoment => ?_, fun written hwritten => ?_, fun failure hfailure => ?_,
    files.performAll_attempt actions,
    fun left hfailed => untouched_of_drafting (attempt_replacement hfailed),
    fun left hattempt => find_of_performAll_replacement hattempt.performAll_eq,
    Store.purge_alike now store⟩
  · simpa only [hperformed] using files.performAll_moment actions
  · exact (moment_replacement hmoment).imp untouched_of_drafting
      fun h => (find_of_performAll_replacement h).1
  · cases outcome with
    | error cause => cases hwritten
    | ok _ =>
        cases hwritten
        obtain ⟨hpath, hdraft⟩ := find_of_performAll_replacement hperformed
        exact ⟨hpath, hdraft, rfl⟩
  · cases outcome with
    | ok _ => cases hfailure
    | error cause => exact untouched_of_performAll_replacement hperformed

-- An older snapshot, and a store that has another value for its key.
def oldSnapshot : FileSystem :=
  let path := Bytes.ofText "db"
  (FileSystem.empty.performAll [.create path, .append path (Bytes.ofText "Kk old\n")]).2

def renewedStore : Store := (Store.empty.set 0 [107] (Bytes.ofText "new")).2

theorem dump_over_old_snapshot :
    let path : Path := Bytes.ofText "db"
    let actions := replacement path (Bytes.ofText "Kk new\n")
    let dumped := dump 1 path renewedStore oldSnapshot
    dumped.1 = .ok ⟨1, 7⟩ ∧
    oldSnapshot.read path = .ok (some (Bytes.ofText "Kk old\n")) ∧
    dumped.2.2.find path = .ok (some (.file (Bytes.ofText "Kk new\n"))) ∧
    dumped.2.2.find path.draft = .ok none ∧
    (∀ moment, Moment actions oldSnapshot moment → Untouched oldSnapshot path moment ∨
      moment.find path = .ok (some (.file (Bytes.ofText "Kk new\n")))) ∧
    -- The device is full after two bytes of the new snapshot.
    ∃ left, Attempt actions oldSnapshot false left ∧ Untouched oldSnapshot path left ∧
      left.read path.draft = .ok (some (Bytes.ofText "Kk")) := by
  intro path actions dumped
  have hlive : encode (renewedStore.keyspace.live 1) = Bytes.ofText "Kk new\n" := by
    decide +kernel
  have hdumped : dumped.1 = .ok ⟨1, 7⟩ := by rfl
  obtain ⟨-, -, hmoments, hsuccess, -, -, hfailed, -⟩ :=
    dump_crash_consistent 1 path renewedStore oldSnapshot
  rw [hlive] at hmoments hsuccess hfailed
  obtain ⟨hpath, hdraft, -⟩ := hsuccess _ hdumped
  let created := (oldSnapshot.performAll [.create path.draft]).2
  let torn := (created.performAll [.append path.draft (Bytes.ofText "Kk")]).2
  have hcreated : oldSnapshot.perform (.create path.draft) = .ok created := by rfl
  have htorn : created.perform (.append path.draft (Bytes.ofText "Kk")) = .ok torn := by rfl
  have hattempt : Attempt actions oldSnapshot false torn :=
    .performed hcreated (.failed (.part (by decide) htorn))
  exact ⟨hdumped, by rfl, hpath, hdraft, hmoments, torn, hattempt, hfailed torn hattempt, by rfl⟩

end Snapshot

end KeyValue
