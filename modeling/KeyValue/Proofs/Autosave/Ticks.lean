import KeyValue.Autosave
import KeyValue.Proofs.FileSystem.Unwritten
import KeyValue.Proofs.Snapshot.Crash

namespace KeyValue

open FileSystem (Unwritten placeOf)

namespace Autosave

-- Writes the snapshot that is due next.
def save (autosave : Autosave) (store : Store) (files : FileSystem) :
    Autosave × Store × FileSystem :=
  let (_, store, files) := Snapshot.dump autosave.next autosave.path store files
  (autosave.passed, store, files)

theorem advance_of_due {autosave : Autosave} {instant : Nat}
    (hdue : autosave.running = true ∧ autosave.next < instant) (store : Store)
    (files : FileSystem) :
    autosave.advance instant store files =
      let saved := autosave.save store files
      saved.1.advance instant saved.2.1 saved.2.2 := by
  rw [advance, advanceWith, if_pos hdue]
  rfl

theorem advance_of_not_due {autosave : Autosave} {instant : Nat}
    (hdue : ¬(autosave.running = true ∧ autosave.next < instant)) (store : Store)
    (files : FileSystem) : autosave.advance instant store files = (autosave, store, files) := by
  rw [advance, advanceWith, if_neg hdue]
  rfl

-- What a snapshot that was due has found and left, and whether it was written.
structure Tick where
  instant : Nat
  live : Namespaces
  before : FileSystem
  after : FileSystem
  written : Bool

def tick (autosave : Autosave) (store : Store) (files : FileSystem) : Tick :=
  let dumped := Snapshot.dump autosave.next autosave.path store files
  ⟨autosave.next, store.keyspace.live autosave.next, files, dumped.2.2, dumped.1.isOk⟩

-- All that happens while time advances, in order.
def ticks (autosave : Autosave) (instant : Nat) (store : Store) (files : FileSystem) : List Tick :=
  if autosave.running ∧ autosave.next < instant then
    let saved := autosave.save store files
    autosave.tick store files :: saved.1.ticks instant saved.2.1 saved.2.2
  else []
termination_by instant - autosave.next
decreasing_by
  simp only [save, passed]
  omega

-- Everything that takes part: the time, the task, and what it reads and writes.
structure Session where
  now : Nat
  autosave : Autosave
  store : Store
  files : FileSystem

namespace Session

def start (now : Nat) (path : Path) (interval : Nat) (store : Store) (files : FileSystem) :
    Session :=
  ⟨now, .start now path interval, store, files⟩

def ticks (session : Session) (span : Nat) : List Tick :=
  session.autosave.ticks (session.now + span) session.store session.files

def wait (session : Session) (span : Nat) : Session :=
  let (autosave, store, files) :=
    session.autosave.advance (session.now + span) session.store session.files
  ⟨session.now + span, autosave, store, files⟩

end Session

-- What may come of a session, with the ticks there have been. The store changes in any way, and
-- others make and remove what they like but write to no file. The task is stopped by being told
-- to, and told to by a shutdown and by being dropped. Each of these is one step, a tick as well:
-- it is assumed that nothing happens in the middle of one. A tick is made only when time goes on
-- past its instant, so it is assumed that a stop at the very instant is the first of the two.
inductive Course (first : Session) : List Tick → Session → Prop
  | begin : Course first [] first
  | change {ticks : List Tick} {session : Session} (h : Course first ticks session)
      (store : Store) : Course first ticks { session with store := store }
  | others {ticks : List Tick} {session : Session} (h : Course first ticks session)
      {files : FileSystem} (hfiles : Unwritten session.files files) :
      Course first ticks { session with files := files }
  | wait {ticks : List Tick} {session : Session} (h : Course first ticks session) (span : Nat) :
      Course first (ticks ++ session.ticks span) (session.wait span)
  | stop {ticks : List Tick} {session : Session} (h : Course first ticks session) :
      Course first ticks { session with autosave := session.autosave.stop }

-- A tick is written if and only if the directories are as a replacement needs them, because the
-- device is assumed not to fail. Otherwise it leaves what is at the path, and everything else but
-- the draft.
structure Tick.Sound (path : Path) (tick : Tick) : Prop where
  written_iff : tick.written = true ↔
    ∃ draft target, Snapshot.Replaceable tick.before path draft target
  find_of_written : tick.written = true →
    tick.after.find path = .ok (some (.file (Snapshot.encode tick.live)))
  untouched_of_failed : tick.written = false → Snapshot.Untouched tick.before path tick.after

theorem tick_sound (autosave : Autosave) (store : Store) (files : FileSystem) :
    (autosave.tick store files).Sound autosave.path := by
  obtain ⟨outcome, left, hperformed⟩ : ∃ outcome left, files.performAll (Snapshot.replacement
      autosave.path (Snapshot.encode (store.keyspace.live autosave.next))) = (outcome, left) :=
    ⟨_, _, rfl⟩
  have htick : autosave.tick store files =
      ⟨autosave.next, store.keyspace.live autosave.next, files, left, outcome.isOk⟩ := by
    simp only [tick, Snapshot.dump_eq_performAll, hperformed]
    cases outcome <;> rfl
  rw [htick]
  cases outcome with
  | ok _ =>
      have hreplaceable := Snapshot.exists_replaceable (congrArg Prod.fst hperformed)
      exact ⟨iff_of_true rfl hreplaceable,
        fun _ => (Snapshot.find_of_performAll_replacement hperformed).1, by rintro ⟨⟩⟩
  | error failure =>
      refine ⟨iff_of_false (by rintro ⟨⟩) ?_, by rintro ⟨⟩,
        fun _ => Snapshot.untouched_of_performAll_replacement hperformed⟩
      rintro ⟨draft, target, hreplaceable⟩
      cases hperformed.symm.trans (hreplaceable.performAll_replacement _)

namespace Tick

variable {path : Path} {tick : Tick}

theorem Sound.failed_of_directory (h : tick.Sound path)
    (hdirectory : tick.before.find path = .ok (some .directory) ∨
      tick.before.find path.draft = .ok (some .directory)) : tick.written = false := by
  by_contra hwritten
  rw [Bool.not_eq_false] at hwritten
  obtain ⟨draft, target, hreplaceable⟩ := h.written_iff.mp hwritten
  rcases hdirectory with hpath | hdraft
  · rw [FileSystem.find, FileSystem.locate_of_destination hreplaceable.destined] at hpath
    exact hreplaceable.target_file (Except.ok.inj hpath)
  · rw [FileSystem.find, hreplaceable.located] at hdraft
    exact hreplaceable.draft_file (Except.ok.inj hdraft)

-- The file at the path, unless the tick put it there, was there before. A draft that is left
-- stands at another place.
theorem Sound.entry?_of_failed (h : tick.Sound path) (hfailed : tick.written = false) :
    tick.after.entry? (placeOf path) = tick.before.entry? (placeOf path) :=
  (h.untouched_of_failed hfailed).others _ fun hlocate =>
    FileSystem.placeOf_ne_of_locate_draft hlocate rfl

theorem Sound.entry?_of_written (h : tick.Sound path) (hwritten : tick.written = true) :
    tick.after.entry? (placeOf path) = some (.file (Snapshot.encode tick.live)) :=
  FileSystem.entry?_of_find (h.find_of_written hwritten)

end Tick

-- The last tick that was written.
def latest? (ticks : List Tick) : Option Tick := ticks.reverse.find? Tick.written

theorem latest?_concat (ticks : List Tick) (tick : Tick) :
    latest? (ticks ++ [tick]) = if tick.written then some tick else latest? ticks := by
  rw [latest?, List.reverse_append, List.reverse_singleton, List.singleton_append,
    List.find?_cons]
  cases tick.written <;> rfl

-- What holds of a session, when all ticks before the instant have been.
structure Kept (begun interval : Nat) (path : Path) (first : FileSystem) (instant : Nat)
    (ticks : List Tick) (autosave : Autosave) (files : FileSystem) : Prop where
  path_eq : autosave.path = path
  interval_eq : autosave.interval = interval
  next_eq : autosave.next = begun + (ticks.length + 1) * interval
  interval_pos : autosave.running = true ∨ ticks ≠ [] → 0 < interval
  instants : ticks.map Tick.instant =
    (List.range ticks.length).map fun count => begun + (count + 1) * interval
  past : ∀ tick ∈ ticks, tick.instant < instant
  sound : ∀ tick ∈ ticks, tick.Sound path
  -- The file at the path is the one that the last written tick has put there.
  current : ∀ contents, files.entry? (placeOf path) = some (.file contents) →
    (latest? ticks).elim (first.entry? (placeOf path))
      (fun tick => some (.file (Snapshot.encode tick.live))) = some (.file contents)
  since : Unwritten ((ticks.getLast?.map Tick.after).getD first) files

namespace Kept

variable {begun interval instant later : Nat} {path : Path} {first files files' : FileSystem}
  {ticks : List Tick} {autosave : Autosave}

theorem start (begun interval : Nat) (path : Path) (files : FileSystem) (instant : Nat) :
    Kept begun interval path files instant [] (.start begun path interval) files where
  path_eq := rfl
  interval_eq := rfl
  next_eq := by rw [Autosave.start, List.length_nil, Nat.zero_add, Nat.one_mul]
  interval_pos h := of_decide_eq_true (h.resolve_right fun hne => hne rfl)
  instants := rfl
  past := by rintro _ ⟨⟩
  sound := by rintro _ ⟨⟩
  current _ := id
  since := .refl files

theorem mono (h : Kept begun interval path first instant ticks autosave files)
    (hle : instant ≤ later) : Kept begun interval path first later ticks autosave files :=
  { h with past := fun tick htick => Nat.lt_of_lt_of_le (h.past tick htick) hle }

theorem others (h : Kept begun interval path first instant ticks autosave files)
    (hfiles : Unwritten files files') :
    Kept begun interval path first instant ticks autosave files' :=
  { h with
    current := fun contents hfile => h.current contents (hfiles _ contents hfile)
    since := h.since.trans hfiles }

theorem stop (h : Kept begun interval path first instant ticks autosave files) :
    Kept begun interval path first instant ticks autosave.stop files :=
  { h with interval_pos := fun hor => h.interval_pos (hor.imp_left (by rintro ⟨⟩)) }

theorem save (h : Kept begun interval path first instant ticks autosave files)
    (hrunning : autosave.running = true) (hdue : autosave.next < instant) (store : Store) :
    Kept begun interval path first instant (ticks ++ [autosave.tick store files])
      (autosave.save store files).1 (autosave.save store files).2.2 where
  path_eq := h.path_eq
  interval_eq := h.interval_eq
  next_eq := by
    have hpos := h.interval_pos (.inl hrunning)
    calc
      _ = autosave.next + max autosave.interval 1 := rfl
      _ = begun + (ticks.length + 1) * interval + interval := by
        rw [h.interval_eq, h.next_eq, Nat.max_eq_left hpos]
      _ = _ := by
        rw [List.length_append, List.length_singleton, Nat.add_one_mul (ticks.length + 1),
          Nat.add_assoc]
  interval_pos _ := h.interval_pos (.inl hrunning)
  instants := by
    rw [List.map_append, h.instants, List.length_append, List.length_singleton, List.range_succ,
      List.map_append, List.map_singleton, List.map_singleton, ← h.next_eq]
    rfl
  past := by
    simp only [List.forall_mem_append, List.forall_mem_singleton]
    exact ⟨h.past, hdue⟩
  sound := by
    simp only [List.forall_mem_append, List.forall_mem_singleton]
    exact ⟨h.sound, h.path_eq ▸ tick_sound autosave store files⟩
  current contents hfile := by
    have hsound : (autosave.tick store files).Sound path :=
      h.path_eq ▸ tick_sound autosave store files
    rw [latest?_concat]
    cases hwritten : (autosave.tick store files).written with
    | true =>
        exact (hsound.entry?_of_written hwritten).symm.trans hfile
    | false => exact h.current contents ((hsound.entry?_of_failed hwritten).symm.trans hfile)
  since := by
    rw [List.getLast?_append, List.getLast?_singleton]
    exact .refl _

-- One tick after the other, as long as they are due.
theorem advance (h : Kept begun interval path first instant ticks autosave files)
    (store : Store) :
    Kept begun interval path first instant (ticks ++ autosave.ticks instant store files)
      (autosave.advance instant store files).1 (autosave.advance instant store files).2.2 := by
  fun_induction Autosave.ticks autosave instant store files generalizing ticks with
  | case1 autosave store files hdue saved =>
      rename_i ih
      rw [advance_of_due hdue, List.append_cons]
      exact ih (h.save hdue.1 hdue.2 store)
  | case2 autosave store files hdue =>
      rw [advance_of_not_due hdue, List.append_nil]
      exact h

-- An interval has to be over before there is any tick.
theorem eq_nil_of_le (h : Kept begun interval path first instant ticks autosave files)
    (hle : instant ≤ begun + interval) : ticks = [] := by
  cases ticks with
  | nil => rfl
  | cons tick rest =>
      have hinstants := h.instants
      rw [List.map_cons, List.length_cons, List.range_succ_eq_map, List.map_cons] at hinstants
      have hfirst : tick.instant = begun + (0 + 1) * interval := (List.cons.inj hinstants).1
      have hpast := h.past tick List.mem_cons_self
      omega

end Kept

variable {autosave : Autosave} {instant : Nat} {ticks more : List Tick}
  {first session later : Session}

-- No tick that was due is left over.
theorem le_next_advance (autosave : Autosave) (instant : Nat) (store : Store)
    (files : FileSystem) (h : (autosave.advance instant store files).1.running = true) :
    instant ≤ (autosave.advance instant store files).1.next := by
  fun_induction Autosave.ticks autosave instant store files with
  | case1 autosave store files hdue saved =>
      rename_i ih
      rw [advance_of_due hdue] at h ⊢
      exact ih h
  | case2 autosave store files hdue =>
      rw [advance_of_not_due hdue] at h ⊢
      exact Nat.not_lt.mp fun hlt => hdue ⟨h, hlt⟩

-- A snapshot that fails does not stop the task.
theorem running_advance (autosave : Autosave) (instant : Nat) (store : Store)
    (files : FileSystem) :
    (autosave.advance instant store files).1.running = autosave.running := by
  fun_induction Autosave.ticks autosave instant store files with
  | case1 autosave store files hdue saved =>
      rename_i ih
      rw [advance_of_due hdue]
      exact ih
  | case2 autosave store files hdue => rw [advance_of_not_due hdue]

-- Who was stopped does nothing however long one waits.

theorem ticks_of_stopped (h : session.autosave.running = false) (span : Nat) :
    session.ticks span = [] := by
  rw [Session.ticks, Autosave.ticks, if_neg]
  rintro ⟨hrunning, -⟩
  cases h.symm.trans hrunning

theorem wait_of_stopped (h : session.autosave.running = false) (span : Nat) :
    session.wait span = { session with now := session.now + span } := by
  rw [Session.wait, advance_of_not_due]
  rintro ⟨hrunning, -⟩
  cases h.symm.trans hrunning

theorem stop_of_stopped (h : autosave.running = false) : autosave.stop = autosave := by
  rw [stop, ← h]

namespace Course

theorem kept {begun interval : Nat} {path : Path} {store : Store} {files : FileSystem}
    (h : Course (.start begun path interval store files) ticks session) :
    Kept begun interval path files session.now ticks session.autosave session.files := by
  induction h with
  | begin => exact .start begun interval path files begun
  | change _ store ih => exact ih
  | others _ hfiles ih => exact ih.others hfiles
  | @wait ticks session _ span ih => exact (ih.mono (Nat.le_add_right _ span)).advance session.store
  | stop _ ih => exact ih.stop

theorem now_le_next (h : Course first ticks session) (hfirst : first.now ≤ first.autosave.next)
    (hrunning : session.autosave.running = true) : session.now ≤ session.autosave.next := by
  induction h with
  | begin => exact hfirst
  | change _ store ih => exact ih hrunning
  | others _ hfiles ih => exact ih hrunning
  | wait _ span ih => exact le_next_advance _ _ _ _ hrunning
  | stop _ ih => cases hrunning

theorem stays_stopped (h : Course first more later) (hfirst : first.autosave.running = false) :
    more = [] ∧ later.autosave = first.autosave ∧ Unwritten first.files later.files := by
  induction h with
  | begin => exact ⟨rfl, rfl, .refl _⟩
  | change _ store ih => exact ih
  | others _ hfiles ih => exact ⟨ih.1, ih.2.1, ih.2.2.trans hfiles⟩
  | @wait more later _ span ih =>
      have hlater : later.autosave.running = false := ih.2.1 ▸ hfirst
      rw [ticks_of_stopped hlater, wait_of_stopped hlater, List.append_nil]
      exact ih
  | @stop more later _ ih =>
      have hlater : later.autosave.running = false := ih.2.1 ▸ hfirst
      rw [stop_of_stopped hlater]
      exact ih

end Course

-- Whatever happens to the store and to the directories, snapshots are attempted at one interval
-- after the other, and none is left out until the task is told to stop. The file at the path, if
-- there is one, is the whole snapshot that was written last, and no file comes to be other than by
-- a snapshot. Whether a snapshot can be written depends on how the directories are just then. If it
-- cannot, the path leads to what it led to before. After the stop nothing comes of waiting.
theorem snapshots_follow_ticks {begun interval : Nat} {path : Path} {store : Store}
    {files : FileSystem} (h : Course (.start begun path interval store files) ticks session) :
    (ticks.map Tick.instant =
      (List.range ticks.length).map fun count => begun + (count + 1) * interval) ∧
    (∀ tick ∈ ticks, tick.instant < session.now) ∧
    (session.autosave.running = true →
      session.now ≤ begun + (ticks.length + 1) * interval) ∧
    (0 < interval → (Autosave.start begun path interval).running = true) ∧
    (∀ span, (session.wait span).autosave.running = session.autosave.running) ∧
    (interval = 0 → session.autosave.running = false ∧ ticks = []) ∧
    (∀ contents, session.files.find path = .ok (some (.file contents)) →
      (∀ tick, latest? ticks = some tick → contents = Snapshot.encode tick.live) ∧
      (latest? ticks = none → files.entry? (placeOf path) = some (.file contents))) ∧
    Unwritten ((ticks.getLast?.map Tick.after).getD files) session.files ∧
    (session.now ≤ begun + interval → ticks = [] ∧ Unwritten files session.files) ∧
    (∀ tick ∈ ticks, tick.Sound path ∧
      (tick.before.find path = .ok (some .directory) ∨
        tick.before.find path.draft = .ok (some .directory) → tick.written = false)) ∧
    (session.autosave.running = false →
      (∀ span, session.wait span = { session with now := session.now + span }) ∧
      ∀ more later, Course session more later →
        more = [] ∧ later.autosave = session.autosave ∧ Unwritten session.files later.files) := by
  have hkept := h.kept
  refine ⟨hkept.instants, hkept.past, fun hrunning => ?_, decide_eq_true,
    fun span => running_advance _ _ _ _, fun hzero => ?_,
    fun contents hfile => ?_, hkept.since, fun hnow => ?_,
    fun tick htick => ⟨hkept.sound tick htick, (hkept.sound tick htick).failed_of_directory⟩,
    fun hstopped => ⟨wait_of_stopped hstopped, fun more later hlater =>
      hlater.stays_stopped hstopped⟩⟩
  · rw [← hkept.next_eq]
    exact h.now_le_next (Nat.le_add_right _ _) hrunning
  · have hidle := mt hkept.interval_pos (Nat.not_lt.mpr (Nat.le_of_eq hzero))
    obtain ⟨hrunning, hticks⟩ := not_or.mp hidle
    exact ⟨Bool.not_eq_true _ ▸ hrunning, not_not.mp hticks⟩
  · have hcurrent := hkept.current contents (FileSystem.entry?_of_find hfile)
    constructor
    · intro tick hlatest
      rw [hlatest] at hcurrent
      cases hcurrent
      rfl
    · intro hlatest
      rw [hlatest] at hcurrent
      exact hcurrent
  · have hticks := hkept.eq_nil_of_le hnow
    have hsince := hkept.since
    rw [hticks] at hsince
    exact ⟨hticks, hsince⟩

-- A directory stands in the way of the first snapshot, which leaves a draft next to it.
def blockedSession : Session :=
  let first := Session.start 0 (Bytes.ofText "db") 10 .empty .empty
  { first with files := first.files.makeDirectory (Bytes.ofText "db") }

-- The directory is removed, and there is something to write.
def clearedSession : Session :=
  let failed := blockedSession.wait 15
  { failed with
    store := (failed.store.set failed.now [107] [118]).2
    files := failed.files.remove (placeOf (Bytes.ofText "db")) }

-- Somebody removes the file that was written in the meantime.
def emptiedSession : Session :=
  let saved := clearedSession.wait 10
  { saved with files := saved.files.removeFile (Bytes.ofText "db") }

def stoppedSession : Session :=
  let last := emptiedSession.wait 10
  { last with autosave := last.autosave.stop }

theorem snapshots_after_failed_tick :
    let path : Path := Bytes.ofText "db"
    let first := Session.start 0 path 10 .empty .empty
    let ticks := blockedSession.ticks 15 ++ clearedSession.ticks 10 ++ emptiedSession.ticks 10
    Course first ticks stoppedSession ∧ ticks.map Tick.instant = [10, 20, 30] ∧
    ticks.map Tick.written = [false, true, true] ∧
    (blockedSession.wait 15).files.entries =
      [(placeOf path.draft, .file []), (placeOf path, .directory)] ∧
    emptiedSession.files = .empty ∧
    stoppedSession.files.entries = [(placeOf path, .file (Bytes.ofText "Kk v\n"))] ∧
    (∀ contents, stoppedSession.files.find path = .ok (some (.file contents)) →
      ∀ tick, latest? ticks = some tick → contents = Snapshot.encode tick.live) ∧
    (latest? ticks).map (Snapshot.encode ·.live) = some (Bytes.ofText "Kk v\n") ∧
    ∀ more later, Course stoppedSession more later → more = [] := by
  intro path first ticks
  have hroot : placeOf path ≠ FileSystem.root := by decide +kernel
  have hblocked : Course first [] blockedSession :=
    Course.begin.others (FileSystem.makeDirectory_unwritten _ path)
  have hcleared : Course first (blockedSession.ticks 15) clearedSession :=
    ((hblocked.wait 15).change clearedSession.store).others (FileSystem.remove_unwritten hroot)
  have hemptied :
      Course first (blockedSession.ticks 15 ++ clearedSession.ticks 10) emptiedSession :=
    (hcleared.wait 10).others (FileSystem.removeFile_unwritten _ path)
  have hcourse : Course first ticks stoppedSession := (hemptied.wait 10).stop
  obtain ⟨hinstants, -, -, -, -, -, hcurrent, -, -, -, hstopped⟩ := snapshots_follow_ticks hcourse
  have hlength : ticks.length = 3 := by decide +kernel
  refine ⟨hcourse, ?_, by decide +kernel, by decide +kernel, by decide +kernel,
    by decide +kernel, fun contents hfile => (hcurrent contents hfile).1, by decide +kernel,
    fun more later hlater => ((hstopped rfl).2 more later hlater).1⟩
  rw [hinstants, hlength]
  decide

end Autosave

end KeyValue
