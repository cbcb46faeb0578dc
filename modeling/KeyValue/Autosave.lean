import KeyValue.Snapshot.File

namespace KeyValue

-- Writes a snapshot at regular intervals, the first one an interval after the start. A
-- snapshot that fails is not repeated before the next one is due, and with an interval of
-- zero there are none. Two things are assumed: a snapshot takes no time, so that nothing else
-- happens in the middle of one, and a stop comes before a snapshot of the same instant.
structure Autosave where
  path : Path
  interval : Nat
  next : Nat
  running : Bool

namespace Autosave

def start (now : Nat) (path : Path) (interval : Nat) : Autosave :=
  ⟨path, interval, now + interval, 0 < interval⟩

def stop (autosave : Autosave) : Autosave := { autosave with running := false }

-- The snapshot that was due next has been attempted.
def passed (autosave : Autosave) : Autosave :=
  { autosave with next := autosave.next + max autosave.interval 1 }

-- Writes all snapshots that fall due before an instant. One that falls due just then is still
-- to come, as for the sweeper.
def advanceWith {m : Type → Type} [Monad m] {ε : Type}
    (performAll : List FileSystem.Action → m (Except ε Unit)) (autosave : Autosave)
    (instant : Nat) (store : Store) : m (Autosave × Store) :=
  if autosave.running ∧ autosave.next < instant then do
    let (_, store) ← Snapshot.dumpWith performAll autosave.next autosave.path store
    autosave.passed.advanceWith performAll instant store
  else return (autosave, store)
termination_by instant - autosave.next
decreasing_by
  simp only [passed]
  omega

def advance (autosave : Autosave) (instant : Nat) (store : Store) (files : FileSystem) :
    Autosave × Store × FileSystem :=
  let ((autosave, store), files) :=
    (autosave.advanceWith FileSystem.performing instant store).run files
  (autosave, store, files)

end Autosave

end KeyValue
