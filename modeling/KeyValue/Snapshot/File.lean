import KeyValue.FileSystem
import KeyValue.Snapshot.Decode
import KeyValue.Store.Keys

namespace KeyValue.Snapshot

-- How a new snapshot gets to its path: it is written in full next to it, made durable, and
-- only then put in place. At every moment the path holds the old snapshot or the new one.
def replacement (path : Path) (contents : Bytes) : List FileSystem.Action := [
  .create path.draft,
  .append path.draft contents,
  .sync path.draft,
  .rename path.draft path]

structure Written where
  keys : Nat
  bytes : Nat
deriving DecidableEq

-- Writes the values of all keys that are not due. Who calls it says how actions on files are
-- performed: on a file system as below, or on the files of the machine.
def dumpWith {m : Type → Type} [Monad m] {ε : Type}
    (performAll : List FileSystem.Action → m (Except ε Unit)) (now : Nat) (path : Path)
    (store : Store) : m (Except ε Written × Store) := do
  let (data, store) := store.snapshot now
  let contents := encode data
  let outcome ← performAll (replacement path contents)
  return (outcome.map fun _ => ⟨data.size, contents.length⟩, store)

def dump (now : Nat) (path : Path) (store : Store) (files : FileSystem) :
    Except FileError Written × Store × FileSystem :=
  let ((outcome, store), files) := (dumpWith FileSystem.performing now path store).run files
  (outcome, store, files)

-- Puts the contents of a snapshot in place of everything stored. Without a file the store
-- stays as it is.
def load (path : Path) (store : Store) (files : FileSystem) :
    Except FileError (Option Counts) × Store :=
  match files.read path with
  | .ok (some contents) =>
      let loaded := decode contents
      (.ok (some loaded.counts), store.restore loaded.data)
  | .ok none => (.ok none, store)
  | .error cause => (.error ⟨cause, path⟩, store)

end KeyValue.Snapshot
