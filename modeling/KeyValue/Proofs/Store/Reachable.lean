import KeyValue.Proofs.Snapshot.Records
import KeyValue.Proofs.Store.WellFormed

namespace KeyValue.Store

-- What happens to a store in the course of time. Contents that are loaded may be any bytes.
inductive Event where
  | request (tokens : List Bytes)
  | sweep
  | snapshot
  | load (contents : Bytes)

def Event.perform (now : Nat) (event : Event) (store : Store) : Store :=
  match event with
  | .request tokens => (store.execute now tokens).2
  | .sweep => (store.purge now).2
  | .snapshot => (store.snapshot now).2
  | .load contents => store.restore (Snapshot.decode contents).data

-- The stores that there can be at some instant, if nothing was stored at the beginning and
-- the clock never went back.
inductive Reachable : Nat → Store → Prop where
  | start (now : Nat) : Reachable now .empty
  | step {before now : Nat} {store : Store} (h : Reachable before store) (hle : before ≤ now)
      (event : Event) : Reachable now (event.perform now store)

theorem perform_wellFormed {store : Store} (h : store.keyspace.WellFormed) (now : Nat)
    (event : Event) : (event.perform now store).keyspace.WellFormed := by
  cases event with
  | request tokens => exact execute_wellFormed h now tokens
  | sweep => exact h.purge now
  | snapshot => exact h.purge now
  | load contents => exact restore_wellFormed (Snapshot.decode_wellFormed contents) store

theorem Reachable.wellFormed {now : Nat} {store : Store} (h : Reachable now store) :
    store.keyspace.WellFormed := by
  induction h with
  | start now => exact Keyspace.wellFormed_empty
  | step _ _ event ih => exact perform_wellFormed ih _ event

-- No run can give a key values of two kinds, a deadline without a value, or an empty list or
-- hash.
theorem reachable_keyspace_consistent {now : Nat} {store : Store} (h : Reachable now store) :
    (∀ key a b, store.keyspace.data.holds a key = true → store.keyspace.data.holds b key = true →
      a = b) ∧
    (∀ key, store.keyspace.deadlines.contains key = true →
      ∃! kind, store.keyspace.data.holds kind key = true) ∧
    ∀ key, store.keyspace.data.lists.get? key ≠ some [] ∧
      store.keyspace.data.hashes.get? key ≠ some .empty := by
  have hstore := h.wellFormed
  exact ⟨hstore.data.exclusive, hstore.deadlines,
    fun key => ⟨hstore.data.lists_nonempty key, hstore.data.hashes_nonempty key⟩⟩

-- A list is pushed, gets a deadline, and is still there at the next sweep.
def queueRun : Store :=
  Event.sweep.perform 7
    ((Event.request [Bytes.ofText "EXPIRE", [113], [49, 48]]).perform 5
      ((Event.request [Bytes.ofText "rpush", [113], [97], [98]]).perform 3 .empty))

theorem reachable_queueRun : Reachable 7 queueRun :=
  (((Reachable.start 0).step (show 0 ≤ 3 by decide) _).step (show 3 ≤ 5 by decide) _).step
    (show 5 ≤ 7 by decide) _

theorem queueRun_consistent :
    Reachable 7 queueRun ∧ queueRun.keyspace.deadlines.contains [113] = true ∧
      ∃! kind, queueRun.keyspace.data.holds kind [113] = true :=
  ⟨reachable_queueRun, by decide +kernel,
    (reachable_keyspace_consistent reachable_queueRun).2.1 [113] (by decide +kernel)⟩

end KeyValue.Store
