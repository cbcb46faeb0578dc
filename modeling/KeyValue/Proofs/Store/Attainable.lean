import KeyValue.Proofs.Store.Kinds
import KeyValue.Proofs.Store.Reachable

namespace KeyValue

-- No key has values of two kinds.
def Namespaces.Exclusive (data : Namespaces) : Prop := ∀ key, (data.slots key).Exclusive

theorem Namespaces.WellFormed.apart {data : Namespaces} (h : data.WellFormed) :
    data.Exclusive := by
  intro key a b ha hb
  rw [← holds_eq_slots] at ha hb
  exact h.exclusive key a b ha hb

namespace Cell

-- One value at most, and no deadline without it. A list or a hash may be empty.
structure Consistent (cell : Cell) : Prop where
  exclusive : cell.Exclusive
  tidy : cell.Tidy

variable {cell : Cell}

theorem Consistent.evict (h : cell.Consistent) (now : Nat) : (cell.evict now).Consistent :=
  evict_induction Consistent ⟨Slots.exclusive_vacant, tidy_vacant⟩ h now

theorem Consistent.eq_vacant (h : cell.Consistent) (hkind : cell.kind? = none) :
    cell = vacant := by
  obtain ⟨slots, deadline⟩ := cell
  have hslots : slots = .vacant := Slots.kind?_eq_none_iff.mp hkind
  have hdeadline : deadline = none := h.tidy hkind
  rw [hslots, hdeadline, vacant]

theorem slots_setDeadline (deadline : Nat) (cell : Cell) :
    (cell.setDeadline deadline).2.toSlots = cell.toSlots := by
  unfold setDeadline
  split <;> rfl

theorem within_keepOnly (kind : Kind) (cell : Cell) : (cell.keepOnly kind).Within kind := by
  intro other hother
  cases kind <;> cases other <;> first | rfl | cases hother

theorem exclusive_without (h : cell.Exclusive) (kind : Kind) : (cell.without kind).Exclusive := by
  intro a b ha hb
  rw [holds_without, Bool.and_eq_true] at ha hb
  exact h a b ha.1 hb.1

end Cell

namespace Store

variable {α : Type} {store : Store} {now : Nat} {key : Bytes}

-- What is restored has one value at most for each key.
def Call.KeepsApart : Call → Prop
  | .restore data => data.Exclusive
  | _ => True

-- The stores that there can be after any calls, at any instants, if nothing was stored at the
-- beginning.
inductive Attainable : Store → Prop where
  | empty : Attainable .empty
  | call {store : Store} (h : Attainable store) (now : Nat) (call : Call)
      (hcall : call.KeepsApart) : Attainable (call.perform now store)

theorem exclusive_onCell {act : Cell → α × Cell}
    (hact : ∀ cell : Cell, cell.Exclusive → (act cell).2.Exclusive)
    (h : ∀ key, (store.keyspace.cell key).Consistent) (other key : Bytes) :
    ((store.onCell now other act).2.keyspace.cell key).Exclusive := by
  rw [cell_onCell]
  split
  · exact hact _ ((h other).evict now).exclusive
  · exact (h key).exclusive

theorem exclusive_operation (h : ∀ key, (store.keyspace.cell key).Consistent) (op : Operation α)
    (key : Bytes) : ((op.perform now store).2.keyspace.cell key).Exclusive := by
  rcases op.works_cases with hany | ⟨kind, other, act, hworks⟩
  · cases op with
    | expire other seconds =>
        simp only [Operation.perform]
        cases hdeadline : deadline? now seconds with
        | none =>
            simp only [expire, hdeadline]
            exact (h key).exclusive
        | some deadline =>
            rw [expire_eq_onCell now other store hdeadline]
            refine exclusive_onCell (fun cell hcell => ?_) h other key
            rw [Cell.slots_setDeadline]
            exact hcell
    | rename old new =>
        simp only [Operation.perform]
        by_cases hne : old = new
        · subst hne
          rw [rename_self_eq_onCell]
          exact exclusive_onCell (fun cell hcell => hcell) h old key
        · have hold : (store.view now old).Exclusive := ((h old).evict now).exclusive
          have hnew : (store.view now new).Exclusive := ((h new).evict now).exclusive
          rw [rename_eq_onCells hne, cell_onCells]
          unfold Cell.rename
          cases hkind : (store.view now old).kind? with
          | none =>
              split
              · exact hnew
              · split
                · exact hold
                · exact (h key).exclusive
          | some kind =>
              split
              · exact (Cell.within_keepOnly kind _).exclusive
              · split
                · exact Cell.exclusive_without hold kind
                · exact (h key).exclusive
    | _ => cases hany
  · rw [hworks.perform]
    exact exclusive_onCell (fun cell hcell => hworks.confined.exclusive_typed hcell) h other key

theorem consistent_perform {call : Call} (h : ∀ key, (store.keyspace.cell key).Consistent)
    (hcall : call.KeepsApart) (key : Bytes) :
    ((call.perform now store).keyspace.cell key).Consistent := by
  refine ⟨?_, tidy_perform (fun key => (h key).tidy) key⟩
  have purged : ((store.keyspace.purge now).cell key).Exclusive := by
    rw [Keyspace.cell_purge]
    exact ((h key).evict now).exclusive
  cases call with
  | operation op => exact exclusive_operation h op key
  | kind other =>
      rw [Call.perform, kind?_eq_onCell]
      exact exclusive_onCell (fun cell hcell => hcell) h other key
  | delete other =>
      rw [Call.perform, delete_eq_onCell]
      exact exclusive_onCell (fun _ _ => Slots.exclusive_vacant) h other key
  | flushAll => exact Slots.exclusive_vacant
  | keys pattern => exact purged
  | purge => exact purged
  | snapshot => exact purged
  | stats => exact (h key).exclusive
  | restore data => exact hcall key

-- Whatever was called, no key has values of two kinds or a deadline without a value.
theorem Attainable.consistent (h : Attainable store) (key : Bytes) :
    (store.keyspace.cell key).Consistent := by
  induction h generalizing key with
  | empty => exact ⟨Slots.exclusive_vacant, Cell.tidy_vacant⟩
  | call _ now call hcall ih => exact consistent_perform ih hcall key

theorem Attainable.performAll (h : Attainable store) {calls : List (Nat × Call)}
    (hcalls : ∀ call ∈ calls, call.2.KeepsApart) : Attainable (performAll calls store) :=
  performAll_invariant Attainable (fun call hmem _ h => h.call call.1 call.2 (hcalls call hmem)) h

end Store

-- The call that a command comes down to.
def Command.call : Command → Store.Call
  | .ping | .echo _ => .stats
  | .flushAll => .flushAll
  | .keys pattern => .keys pattern
  | .type key => .kind key
  | .delete key => .delete key
  | .expire key seconds => .operation (.expire key seconds)
  | .rename old new => .operation (.rename old new)
  | .set key value => .operation (.set key value)
  | .get key => .operation (.get key)
  | .push side key values => .operation (.push side key values)
  | .pop side key => .operation (.pop side key)
  | .listLength key => .operation (.listLength key)
  | .listItems key => .operation (.listItems key)
  | .listRemove key count value => .operation (.listRemove key count value)
  | .listIndex key index => .operation (.listIndex key index)
  | .listSet key index value => .operation (.listSet key index value)
  | .setField key field value => .operation (.setField key field value)
  | .setFields key pairs => .operation (.setFields key pairs)
  | .getField key field => .operation (.getField key field)
  | .hasField key field => .operation (.hasField key field)
  | .deleteField key field => .operation (.deleteField key field)
  | .hashPairs key => .operation (.hashPairs key)
  | .hashFields key => .operation (.hashFields key)
  | .hashValues key => .operation (.hashValues key)
  | .hashSize key => .operation (.hashSize key)

theorem Command.snd_run_eq_perform (now : Nat) (command : Command) (store : Store) :
    (command.run now store).2 = command.call.perform now store := by
  cases command <;> rfl

theorem Command.call_keepsApart (command : Command) : command.call.KeepsApart := by
  cases command <;> trivial

namespace Store

variable {store : Store} {now : Nat}

theorem Attainable.execute (h : Attainable store) (now : Nat) (tokens : List Bytes) :
    Attainable (store.execute now tokens).2 := by
  cases hparse : Command.parse tokens with
  | error refusal =>
      simp only [Store.execute, hparse]
      exact h
  | ok command =>
      simp only [Store.execute, hparse, Command.snd_run_eq_perform]
      exact h.call now command.call command.call_keepsApart

-- Requests, sweeps, snapshots and loads are calls.
theorem Reachable.attainable (h : Reachable now store) : Attainable store := by
  induction h with
  | start now => exact .empty
  | @step before now store _ _ event ih =>
      cases event with
      | request tokens => exact ih.execute now tokens
      | sweep => exact ih.call now .purge trivial
      | snapshot => exact ih.call now .snapshot trivial
      | load contents =>
          exact ih.call now (.restore _) (Snapshot.decode_wellFormed contents).apart

end Store

end KeyValue
