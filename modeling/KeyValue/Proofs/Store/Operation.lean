import KeyValue.Proofs.Command.Effect
import KeyValue.Proofs.Keyspace.Restrict

namespace KeyValue

namespace Store

variable {α : Type}

-- The operations that may fail, by what they give when they do not.
inductive Operation : Type → Type where
  | expire (key : Bytes) (seconds : Int64) : Operation Unit
  | rename (old new : Bytes) : Operation Unit
  | set (key value : Bytes) : Operation Unit
  | get (key : Bytes) : Operation (Option Bytes)
  | push (side : Side) (key : Bytes) (values : List Bytes) : Operation Nat
  | pop (side : Side) (key : Bytes) : Operation (Option Bytes)
  | listLength (key : Bytes) : Operation Nat
  | listItems (key : Bytes) : Operation (List Bytes)
  | listIndex (key : Bytes) (index : Int64) : Operation (Option Bytes)
  | listSet (key : Bytes) (index : Int64) (value : Bytes) : Operation Unit
  | listRemove (key : Bytes) (count : Int64) (value : Bytes) : Operation Nat
  | setField (key field value : Bytes) : Operation Bool
  | setFields (key : Bytes) (pairs : List (Bytes × Bytes)) : Operation Unit
  | getField (key field : Bytes) : Operation (Option Bytes)
  | hasField (key field : Bytes) : Operation Bool
  | deleteField (key field : Bytes) : Operation Bool
  | hashPairs (key : Bytes) : Operation (List (Bytes × Bytes))
  | hashFields (key : Bytes) : Operation (List Bytes)
  | hashValues (key : Bytes) : Operation (List Bytes)
  | hashSize (key : Bytes) : Operation Nat

namespace Operation

def perform (now : Nat) (store : Store) : Operation α → Except StoreError α × Store
  | .expire key seconds => store.expire now key seconds
  | .rename old new => store.rename now old new
  | .set key value => store.set now key value
  | .get key => store.get now key
  | .push side key values => store.push side now key values
  | .pop side key => store.pop side now key
  | .listLength key => store.listLength now key
  | .listItems key => store.listItems now key
  | .listIndex key index => store.listIndex now key index
  | .listSet key index value => store.listSet now key index value
  | .listRemove key count value => store.listRemove now key count value
  | .setField key field value => store.setField now key field value
  | .setFields key pairs => store.setFields now key pairs
  | .getField key field => store.getField now key field
  | .hasField key field => store.hasField now key field
  | .deleteField key field => store.deleteField now key field
  | .hashPairs key => store.hashPairs now key
  | .hashFields key => store.hashFields now key
  | .hashValues key => store.hashValues now key
  | .hashSize key => store.hashSize now key

-- The keys that an operation is told to work on.
def named : Operation α → List Bytes
  | .expire key _ | .set key _ | .get key
  | .push _ key _ | .pop _ key | .listLength key | .listItems key
  | .listIndex key _ | .listSet key _ _ | .listRemove key _ _
  | .setField key _ _ | .setFields key _ | .getField key _ | .hasField key _ | .deleteField key _
  | .hashPairs key | .hashFields key | .hashValues key | .hashSize key => [key]
  | .rename old new => [old, new]

end Operation

end Store

namespace Cell

variable {α : Type} {cell : Cell}

-- Whatever makes it fail, the work on a cell changes nothing. Deadlines that do not exist are
-- found out before any cell is looked at.
def Harmless (act : Cell → Except StoreError α × Cell) : Prop :=
  ∀ cell cause, (act cell).1 = .error cause → (act cell).2 = cell ∧ cause ≠ .invalidExpire

theorem harmless_typed {act : Cell → Except StoreError α × Cell} (hact : Harmless act)
    (kind : Kind) : Harmless (typed kind act) := by
  intro cell cause
  unfold typed
  split
  · split
    · exact hact cell cause
    · rintro ⟨⟩
      exact ⟨rfl, by decide⟩
  · exact hact cell cause

theorem harmless_setDeadline (deadline : Nat) : Harmless (setDeadline deadline) := by
  intro cell cause
  unfold setDeadline
  split
  · rintro ⟨⟩
    exact ⟨rfl, by decide⟩
  · rintro ⟨⟩

theorem harmless_listSet (index : Int64) (value : Bytes) : Harmless (listSet index value) := by
  intro cell cause
  unfold listSet
  split
  · rintro ⟨⟩
    exact ⟨rfl, by decide⟩
  · split
    · rintro ⟨⟩
      exact ⟨rfl, by decide⟩
    · rintro ⟨⟩

-- The others find nothing wrong with a cell of their kind.

theorem harmless_set (value : Bytes) : Harmless (set value) := fun _ _ h => by cases h

theorem harmless_push (side : Store.Side) (values : List Bytes) : Harmless (push side values) :=
  fun _ _ h => by cases h

theorem harmless_pop (side : Store.Side) : Harmless (pop side) := by
  intro cell cause
  unfold pop
  split <;> rintro ⟨⟩

theorem harmless_listRemove (count : Int64) (value : Bytes) :
    Harmless (listRemove count value) := by
  intro cell cause
  unfold listRemove
  split <;> rintro ⟨⟩

theorem harmless_setField (field value : Bytes) : Harmless (setField field value) :=
  fun _ _ h => by cases h

theorem harmless_setFields (pairs : List (Bytes × Bytes)) : Harmless (setFields pairs) := by
  intro cell cause
  unfold setFields
  split <;> rintro ⟨⟩

theorem harmless_deleteField (field : Bytes) : Harmless (deleteField field) := by
  intro cell cause
  unfold deleteField
  split <;> rintro ⟨⟩

end Cell

namespace Store

variable {α : Type} {store : Store} {now : Nat} {cause : StoreError}

theorem onCell_of_error {key : Bytes} {act : Cell → Except StoreError α × Cell}
    (hact : Cell.Harmless act) (h : (store.onCell now key act).1 = .error cause) :
    (store.onCell now key act).2.keyspace = store.keyspace.dropDue now [key] ∧
      cause ≠ .invalidExpire := by
  obtain ⟨hsame, hcause⟩ := hact _ cause h
  refine ⟨?_, hcause⟩
  rw [Keyspace.dropDue_singleton, Keyspace.evict_eq_put]
  exact congrArg (store.keyspace.put key) hsame

theorem expire_of_error {key : Bytes} {seconds : Int64}
    (h : (store.expire now key seconds).1 = .error cause) :
    (cause = .invalidExpire ∧ (store.expire now key seconds).2 = store) ∨
      (cause ≠ .invalidExpire ∧
        (store.expire now key seconds).2.keyspace = store.keyspace.dropDue now [key]) := by
  cases hdeadline : deadline? now seconds with
  | none =>
      simp only [expire, hdeadline, Except.error.injEq] at h ⊢
      exact .inl ⟨h.symm, trivial⟩
  | some deadline =>
      rw [expire_eq_onCell now key store hdeadline] at h ⊢
      obtain ⟨hkeyspace, hcause⟩ := onCell_of_error (Cell.harmless_setDeadline deadline) h
      exact .inr ⟨hcause, hkeyspace⟩

theorem rename_of_error {old new : Bytes} (h : (store.rename now old new).1 = .error cause) :
    (store.rename now old new).2.keyspace = store.keyspace.dropDue now [old, new] ∧
      cause ≠ .invalidExpire := by
  rw [Keyspace.dropDue_cons, Keyspace.dropDue_singleton]
  revert h
  simp only [rename]
  split
  · rintro ⟨⟩
    exact ⟨rfl, by decide⟩
  · split <;> rintro ⟨⟩

namespace Operation

theorem perform_of_error {op : Operation α} (h : (op.perform now store).1 = .error cause) :
    (cause = .invalidExpire ∧ (op.perform now store).2 = store) ∨
      (cause ≠ .invalidExpire ∧
        (op.perform now store).2.keyspace = store.keyspace.dropDue now op.named) := by
  have typed {kind : Kind} {key : Bytes} {act : Cell → Except StoreError α × Cell}
      (hop : op.perform now store = store.onCell now key (Cell.typed kind act))
      (hact : Cell.Harmless act) :
      cause ≠ .invalidExpire ∧
        (op.perform now store).2.keyspace = store.keyspace.dropDue now [key] := by
    rw [hop] at h ⊢
    exact (onCell_of_error (Cell.harmless_typed hact kind) h).symm
  have reading {kind : Kind} {key : Bytes} {read : Cell → α}
      (hop : op.perform now store = store.onCell now key (Cell.typedRead kind read)) :
      cause ≠ .invalidExpire ∧
        (op.perform now store).2.keyspace = store.keyspace.dropDue now [key] :=
    typed hop fun _ _ h => by cases h
  cases op with
  | expire key seconds => exact expire_of_error h
  | rename old new => exact .inr (rename_of_error h).symm
  | set key value => exact .inr (typed (set_eq_onCell ..) (Cell.harmless_set value))
  | get key => exact .inr (reading (get_eq_onCell ..))
  | push side key values =>
      exact .inr (typed (push_eq_onCell ..) (Cell.harmless_push side values))
  | pop side key => exact .inr (typed (pop_eq_onCell ..) (Cell.harmless_pop side))
  | listLength key => exact .inr (reading (listLength_eq_onCell ..))
  | listItems key => exact .inr (reading (listItems_eq_onCell ..))
  | listIndex key index => exact .inr (reading (listIndex_eq_onCell ..))
  | listSet key index value =>
      exact .inr (typed (listSet_eq_onCell ..) (Cell.harmless_listSet index value))
  | listRemove key count value =>
      exact .inr (typed (listRemove_eq_onCell ..) (Cell.harmless_listRemove count value))
  | setField key field value =>
      exact .inr (typed (setField_eq_onCell ..) (Cell.harmless_setField field value))
  | setFields key pairs =>
      exact .inr (typed (setFields_eq_onCell ..) (Cell.harmless_setFields pairs))
  | getField key field => exact .inr (reading (getField_eq_onCell ..))
  | hasField key field => exact .inr (reading (hasField_eq_onCell ..))
  | deleteField key field =>
      exact .inr (typed (deleteField_eq_onCell ..) (Cell.harmless_deleteField field))
  | hashPairs key => exact .inr (reading (hashPairs_eq_onCell ..))
  | hashFields key => exact .inr (reading (hashFields_eq_onCell ..))
  | hashValues key => exact .inr (reading (hashValues_eq_onCell ..))
  | hashSize key => exact .inr (reading (hashSize_eq_onCell ..))

end Operation

end Store

end KeyValue
