import KeyValue.Proofs.Store.Operation

namespace KeyValue

namespace Cell

-- What most operations make of the cell that they work on: it stays as it is, or it becomes
-- vacant, or it holds a value afterwards and keeps its deadline. Only some of them give a value
-- to a key without one, and none of them makes an empty hash.
inductive Change (create : Prop) (cell : Cell) : Cell → Prop where
  | kept : Change create cell cell
  | gone : Change create cell .vacant
  | stored {slots : Slots} (hvalue : slots ≠ .vacant) (hcreate : cell.kind? = none → create)
      (hhash : slots.hash = some .empty → cell.hash = some .empty) :
      Change create cell ⟨slots, cell.deadline⟩

variable {create : Prop} {cell : Cell} {α : Type}

theorem change_typed {act : Cell → Except StoreError α × Cell}
    (hact : ∀ cell, Change create cell (act cell).2) (kind : Kind) (cell : Cell) :
    Change create cell (cell.typed kind act).2 := by
  unfold typed
  split
  · split
    · exact hact cell
    · exact .kept
  · exact hact cell

-- A typed operation that succeeds found nothing of another kind.
theorem typed_of_ok {kind : Kind} {act : Cell → Except StoreError α × Cell} {value : α}
    (h : (cell.typed kind act).1 = .ok value) : cell.typed kind act = act cell := by
  unfold typed at h ⊢
  split at h
  · split at h
    · exact if_pos ‹_›
    · cases h
  · rfl

-- A list or a hash that was there is a value that was there.

theorem kind?_ne_none_of_list {items : List Bytes} (h : cell.list = some items) :
    cell.kind? ≠ none := by
  intro hkind
  rw [Slots.kind?_eq_none_iff.mp hkind] at h
  cases h

theorem kind?_ne_none_of_hash {fields : ByteMap Bytes} (h : cell.hash = some fields) :
    cell.kind? ≠ none := by
  intro hkind
  rw [Slots.kind?_eq_none_iff.mp hkind] at h
  cases h

theorem change_withList (hcreate : cell.kind? = none → create) (items : List Bytes) :
    Change create cell { cell with list := some items } :=
  .stored (fun h => by cases congrArg Slots.list h) hcreate id

theorem change_withHash (hcreate : cell.kind? = none → create) {fields : ByteMap Bytes}
    (hfields : fields ≠ .empty) : Change create cell { cell with hash := some fields } :=
  .stored (fun h => by cases congrArg Slots.hash h) hcreate
    fun h => absurd (Option.some.inj h) hfields

theorem change_keepList (hcreate : cell.kind? = none → create) (items : List Bytes) :
    Change create cell (cell.keepList items) := by
  unfold keepList
  split
  · exact .gone
  · exact change_withList hcreate items

theorem change_keepHash (hcreate : cell.kind? = none → create) (fields : ByteMap Bytes) :
    Change create cell (cell.keepHash fields) := by
  unfold keepHash
  split
  · exact .gone
  · rename_i hfields
    exact change_withHash hcreate fun hempty => hfields (ByteMap.isEmpty_iff.mpr hempty)

theorem change_push (hcreate : create) (side : Store.Side) (values : List Bytes) (cell : Cell) :
    Change create cell (cell.push side values).2 :=
  change_withList (fun _ => hcreate) _

theorem change_pop (side : Store.Side) (cell : Cell) : Change create cell (cell.pop side).2 := by
  unfold pop
  split
  · exact .kept
  · rename_i items hlist
    exact change_keepList (fun hkind => absurd hkind (kind?_ne_none_of_list hlist)) _

theorem change_listSet (index : Int64) (value : Bytes) (cell : Cell) :
    Change create cell (cell.listSet index value).2 := by
  unfold listSet
  split
  · exact .kept
  · rename_i items hlist
    split
    · exact .kept
    · exact change_withList (fun hkind => absurd hkind (kind?_ne_none_of_list hlist)) _

theorem change_listRemove (count : Int64) (value : Bytes) (cell : Cell) :
    Change create cell (cell.listRemove count value).2 := by
  unfold listRemove
  split
  · exact .kept
  · rename_i items hlist
    exact change_keepList (fun hkind => absurd hkind (kind?_ne_none_of_list hlist)) _

theorem change_setField (hcreate : create) (field value : Bytes) (cell : Cell) :
    Change create cell (cell.setField field value).2 :=
  change_withHash (fun _ => hcreate) (ByteMap.insert_ne_empty _ field value)

theorem change_setFields {pairs : List (Bytes × Bytes)} (hcreate : pairs ≠ [] → create)
    (cell : Cell) : Change create cell (cell.setFields pairs).2 := by
  unfold setFields
  cases pairs with
  | nil => exact .kept
  | cons pair rest =>
      exact change_withHash (fun _ => hcreate (List.cons_ne_nil pair rest))
        (ByteMap.insertAll_ne_empty (ByteMap.insert_ne_empty _ _ _) rest)

theorem change_deleteField (field : Bytes) (cell : Cell) :
    Change create cell (cell.deleteField field).2 := by
  unfold deleteField
  split
  · exact .kept
  · rename_i fields hhash
    exact change_keepHash (fun hkind => absurd hkind (kind?_ne_none_of_hash hhash)) _

end Cell

namespace Store

-- The cell of a key as an operation finds it. What is due has gone.
def view (now : Nat) (key : Bytes) (store : Store) : Cell := (store.keyspace.cell key).evict now

-- A call of any operation that the store offers.
inductive Call where
  | operation {α : Type} (op : Operation α)
  | kind (key : Bytes)
  | delete (key : Bytes)
  | flushAll
  | keys (pattern : Bytes)
  | purge
  | snapshot
  | stats
  | restore (data : Namespaces)

theorem fst_onCell {α : Type} (now : Nat) (key : Bytes) (act : Cell → α × Cell) (store : Store) :
    (store.onCell now key act).1 = (act (store.view now key)).1 := rfl

theorem fst_onCells {α : Type} (now : Nat) (first second : Bytes)
    (act : Cell → Cell → α × Cell × Cell) (store : Store) :
    (store.onCells now first second act).1 =
      (act (store.view now first) (store.view now second)).1 := rfl

theorem cell_onCell {α : Type} (now : Nat) (key other : Bytes) (act : Cell → α × Cell)
    (store : Store) :
    (store.onCell now key act).2.keyspace.cell other =
      if other = key then (act (store.view now key)).2 else store.keyspace.cell other :=
  Keyspace.cell_put_apply ..

theorem cell_onCells {α : Type} (now : Nat) (first second other : Bytes)
    (act : Cell → Cell → α × Cell × Cell) (store : Store) :
    (store.onCells now first second act).2.keyspace.cell other =
      if other = second then (act (store.view now first) (store.view now second)).2.2
      else if other = first then (act (store.view now first) (store.view now second)).2.1
      else store.keyspace.cell other := by
  simp only [onCells, Keyspace.cell_put_apply]
  rfl

namespace Call

def perform (now : Nat) (store : Store) : Call → Store
  | .operation op => (op.perform now store).2
  | .kind key => (store.kind? now key).2
  | .delete key => (store.delete now key).2
  | .flushAll => store.flushAll
  | .keys pattern => (store.keys now pattern).2
  | .purge => (store.purge now).2
  | .snapshot => (store.snapshot now).2
  | .stats => store
  | .restore data => store.restore data

-- Only an operation that has a result of its own to give can fail.
def Succeeds (now : Nat) (store : Store) : Call → Prop
  | .operation op => ∃ value, (op.perform now store).1 = .ok value
  | _ => True

-- The calls that give a value to a key that has none, if they succeed.
def Creates (key : Bytes) : Call → Prop
  | .operation (.set other _) | .operation (.push _ other _) | .operation (.setField other _ _) =>
      other = key
  | .operation (.setFields other pairs) => other = key ∧ pairs ≠ []
  | .operation (.rename old new) => old ≠ new ∧ new = key
  | .restore data => data.kind? key ≠ none
  | _ => False

-- The calls that leave the deadline of a key alone, as long as the key has a value.
def Plain (key : Bytes) : Call → Prop
  | .operation (.set other _) | .operation (.expire other _) => other ≠ key
  | .operation (.rename old new) => old = new ∨ (old ≠ key ∧ new ≠ key)
  | .restore _ => False
  | _ => True

variable {now : Nat} {store : Store} {key : Bytes}

-- All that a call can have made of the cell of a key when it succeeded. A call that is not
-- about the key does not look at its cell either.
inductive Outcome (now : Nat) (store : Store) (key : Bytes) : Call → Cell → Prop where
  | unseen {call : Call} (hplain : call.Plain key) :
      Outcome now store key call (store.keyspace.cell key)
  | changed {call : Call} {cell : Cell} (hplain : call.Plain key)
      (h : Cell.Change (call.Creates key) (store.view now key) cell) :
      Outcome now store key call cell
  | set (value : Bytes) :
      Outcome now store key (.operation (.set key value))
        { store.view now key with string := some value, deadline := none }
  | expired {seconds : Int64} {deadline : Nat} (hdeadline : deadline? now seconds = some deadline)
      (hkind : (store.view now key).kind? ≠ none) :
      Outcome now store key (.operation (.expire key seconds))
        { store.view now key with deadline := some deadline }
  | renamedTo {old : Bytes} {kind : Kind} (hne : old ≠ key)
      (hkind : (store.view now old).kind? = some kind) :
      Outcome now store key (.operation (.rename old key)) ((store.view now old).keepOnly kind)
  | renamedFrom {new : Bytes} {kind : Kind} (hne : key ≠ new)
      (hkind : (store.view now key).kind? = some kind) :
      Outcome now store key (.operation (.rename key new)) ((store.view now key).without kind)
  | restored (data : Namespaces) :
      Outcome now store key (.restore data) ⟨data.slots key, none⟩

theorem outcome_onCell {α : Type} {call : Call} {other : Bytes} {act : Cell → α × Cell}
    (hcall : call.perform now store = (store.onCell now other act).2) (hplain : call.Plain key)
    (hact : other = key → ∀ cell, Cell.Change (call.Creates key) cell (act cell).2) :
    Outcome now store key call ((call.perform now store).keyspace.cell key) := by
  rw [hcall, cell_onCell]
  split
  · rename_i hkey
    subst hkey
    exact .changed hplain (hact rfl _)
  · exact .unseen hplain

theorem outcome_set {other value : Bytes}
    (h : (Call.operation (.set other value)).Succeeds now store) :
    Outcome now store key (.operation (.set other value))
      ((store.set now other value).2.keyspace.cell key) := by
  obtain ⟨result, h⟩ := h
  simp only [Operation.perform, set_eq_onCell, fst_onCell] at h
  rw [set_eq_onCell, cell_onCell, Cell.typed_of_ok h]
  split
  · rename_i hkey
    subst hkey
    exact .set value
  · rename_i hkey
    exact .unseen (Ne.symm hkey)

theorem outcome_expire {other : Bytes} {seconds : Int64}
    (h : (Call.operation (.expire other seconds)).Succeeds now store) :
    Outcome now store key (.operation (.expire other seconds))
      ((store.expire now other seconds).2.keyspace.cell key) := by
  obtain ⟨result, h⟩ := h
  simp only [Operation.perform] at h
  cases hdeadline : deadline? now seconds with
  | none =>
      simp only [expire, hdeadline] at h
      cases h
  | some deadline =>
      rw [expire_eq_onCell now other store hdeadline, fst_onCell] at h
      rw [expire_eq_onCell now other store hdeadline, cell_onCell]
      split
      · rename_i hkey
        subst hkey
        unfold Cell.setDeadline at h ⊢
        cases hkind : (store.view now key).kind? with
        | none =>
            simp only [hkind] at h
            cases h
        | some kind => exact .expired hdeadline (by simp [hkind])
      · rename_i hkey
        exact .unseen (Ne.symm hkey)

theorem outcome_rename {old new : Bytes}
    (h : (Call.operation (.rename old new)).Succeeds now store) :
    Outcome now store key (.operation (.rename old new))
      ((store.rename now old new).2.keyspace.cell key) := by
  obtain ⟨result, h⟩ := h
  simp only [Operation.perform] at h
  by_cases hne : old = new
  · subst hne
    exact outcome_onCell (congrArg Prod.snd (rename_self_eq_onCell now old store)) (.inl rfl)
      fun _ _ => .kept
  · rw [rename_eq_onCells hne, fst_onCells] at h
    rw [rename_eq_onCells hne, cell_onCells]
    unfold Cell.rename at h ⊢
    cases hkind : (store.view now old).kind? with
    | none =>
        simp only [hkind] at h
        cases h
    | some kind =>
        split
        · rename_i hnew
          subst hnew
          exact .renamedTo hne hkind
        · split
          · rename_i hold
            subst hold
            exact .renamedFrom hne hkind
          · rename_i hnew hold
            exact .unseen (.inr ⟨Ne.symm hold, Ne.symm hnew⟩)

theorem outcome_operation {α : Type} {op : Operation α}
    (h : (Call.operation op).Succeeds now store) :
    Outcome now store key (.operation op) ((op.perform now store).2.keyspace.cell key) := by
  have typed {kind : Kind} {other : Bytes} {act : Cell → Except StoreError α × Cell}
      (hop : op.perform now store = store.onCell now other (Cell.typed kind act))
      (hplain : (Call.operation op).Plain key)
      (hact : other = key →
        ∀ cell, Cell.Change ((Call.operation op).Creates key) cell (act cell).2) :
      Outcome now store key (.operation op) ((op.perform now store).2.keyspace.cell key) :=
    outcome_onCell (congrArg Prod.snd hop) hplain fun hkey => Cell.change_typed (hact hkey) kind
  have reading {kind : Kind} {other : Bytes} {read : Cell → α}
      (hop : op.perform now store = store.onCell now other (Cell.typedRead kind read))
      (hplain : (Call.operation op).Plain key) :
      Outcome now store key (.operation op) ((op.perform now store).2.keyspace.cell key) :=
    typed hop hplain fun _ _ => .kept
  cases op with
  | expire other seconds => exact outcome_expire h
  | rename old new => exact outcome_rename h
  | set other value => exact outcome_set h
  | get other => exact reading (get_eq_onCell ..) trivial
  | push side other values =>
      exact typed (push_eq_onCell ..) trivial fun hkey => Cell.change_push hkey side values
  | pop side other => exact typed (pop_eq_onCell ..) trivial fun _ => Cell.change_pop side
  | listLength other => exact reading (listLength_eq_onCell ..) trivial
  | listItems other => exact reading (listItems_eq_onCell ..) trivial
  | listIndex other index => exact reading (listIndex_eq_onCell ..) trivial
  | listSet other index value =>
      exact typed (listSet_eq_onCell ..) trivial fun _ => Cell.change_listSet index value
  | listRemove other count value =>
      exact typed (listRemove_eq_onCell ..) trivial fun _ => Cell.change_listRemove count value
  | setField other field value =>
      exact typed (setField_eq_onCell ..) trivial fun hkey => Cell.change_setField hkey field value
  | setFields other pairs =>
      exact typed (setFields_eq_onCell ..) trivial fun hkey =>
        Cell.change_setFields fun hpairs => ⟨hkey, hpairs⟩
  | getField other field => exact reading (getField_eq_onCell ..) trivial
  | hasField other field => exact reading (hasField_eq_onCell ..) trivial
  | deleteField other field =>
      exact typed (deleteField_eq_onCell ..) trivial fun _ => Cell.change_deleteField field
  | hashPairs other => exact reading (hashPairs_eq_onCell ..) trivial
  | hashFields other => exact reading (hashFields_eq_onCell ..) trivial
  | hashValues other => exact reading (hashValues_eq_onCell ..) trivial
  | hashSize other => exact reading (hashSize_eq_onCell ..) trivial

theorem outcome {call : Call} (h : call.Succeeds now store) (key : Bytes) :
    Outcome now store key call ((call.perform now store).keyspace.cell key) := by
  have purged : (store.keyspace.purge now).cell key = store.view now key :=
    Keyspace.cell_purge store.keyspace now key
  cases call with
  | operation op => exact outcome_operation h
  | kind other =>
      exact outcome_onCell (congrArg Prod.snd (kind?_eq_onCell now other store)) trivial
        fun _ _ => .kept
  | delete other =>
      exact outcome_onCell (congrArg Prod.snd (delete_eq_onCell now other store)) trivial
        fun _ _ => .gone
  | flushAll => exact .changed trivial .gone
  | keys pattern => exact .changed trivial (purged ▸ .kept)
  | purge => exact .changed trivial (purged ▸ .kept)
  | snapshot => exact .changed trivial (purged ▸ .kept)
  | stats => exact .unseen trivial
  | restore data => exact .restored data

-- A call that fails evicts what is due, if anything.
theorem cell_of_failure {call : Call} (h : ¬call.Succeeds now store) (key : Bytes) :
    (call.perform now store).keyspace.cell key = store.keyspace.cell key ∨
      (call.perform now store).keyspace.cell key = store.view now key := by
  cases call with
  | operation op =>
      cases hresult : (op.perform now store).1 with
      | ok value => exact absurd ⟨value, hresult⟩ h
      | error cause =>
          rcases Operation.perform_of_error hresult with ⟨_, hsame⟩ | ⟨_, hdropped⟩
          · exact .inl (congrArg (fun store => store.keyspace.cell key) hsame)
          · simp only [perform, hdropped, Keyspace.cell_dropDue]
            split
            · exact .inr rfl
            · exact .inl rfl
  | _ => exact absurd trivial h

end Call

-- Calls that are made one after the other, each at its own instant.
def performAll (calls : List (Nat × Call)) (store : Store) : Store :=
  calls.foldl (fun store call => call.2.perform call.1 store) store

theorem performAll_append (first second : List (Nat × Call)) (store : Store) :
    performAll (first ++ second) store = performAll second (performAll first store) :=
  List.foldl_append

-- What every call of a run preserves the whole run preserves.
theorem performAll_invariant (P : Store → Prop) {calls : List (Nat × Call)}
    (hcall : ∀ call ∈ calls, ∀ store, P store → P (call.2.perform call.1 store)) {store : Store}
    (h : P store) : P (performAll calls store) := by
  induction calls generalizing store with
  | nil => exact h
  | cons first rest ih =>
      obtain ⟨hfirst, hrest⟩ := List.forall_mem_cons.mp hcall
      exact ih hrest (hfirst store h)

-- What is true at the start of a run, and stays true as time passes, is true at its end, unless
-- one of the calls was of the kind that may undo it.
theorem holds_or_exists_call (P : Nat → Store → Prop) (Q : Nat → Store → Call → Prop)
    (htime : ∀ now later store, P now store → now ≤ later → P later store)
    (hcall : ∀ now store call, P now store → P now (call.perform now store) ∨ Q now store call)
    {calls : List (Nat × Call)} {now finish : Nat} {store : Store} (h : P now store)
    (hordered : (now :: (calls.map Prod.fst ++ [finish])).Pairwise (· ≤ ·)) :
    P finish (performAll calls store) ∨
      ∃ before call after, calls = before ++ call :: after ∧
        Q call.1 (performAll before store) call.2 := by
  induction calls generalizing now store with
  | nil =>
      have hle : now ≤ finish := by simpa using hordered
      exact .inl (htime now finish store h hle)
  | cons first rest ih =>
      obtain ⟨instant, call⟩ := first
      obtain ⟨hfirst, hrest⟩ := List.pairwise_cons.mp hordered
      have hhere : P instant store := htime now instant store h (hfirst instant (by simp))
      rcases hcall instant store call hhere with hafter | hundone
      · rcases ih hafter hrest with hend | ⟨before, later, after, hsplit, hundone⟩
        · exact .inl hend
        · exact .inr ⟨(instant, call) :: before, later, after,
            congrArg ((instant, call) :: ·) hsplit, hundone⟩
      · exact .inr ⟨[], (instant, call), rest, rfl, hundone⟩

-- The same for what does not depend on the time.
theorem kept_or_exists_call (P : Store → Prop) (Q : Nat → Store → Call → Prop)
    (hcall : ∀ now store call, P store → P (call.perform now store) ∨ Q now store call)
    {store : Store} (h : P store) (calls : List (Nat × Call)) :
    P (performAll calls store) ∨
      ∃ before call after, calls = before ++ call :: after ∧
        Q call.1 (performAll before store) call.2 := by
  induction calls generalizing store with
  | nil => exact .inl h
  | cons first rest ih =>
      rcases hcall first.1 store first.2 h with hafter | hundone
      · rcases ih hafter with hend | ⟨before, call, after, hsplit, hundone⟩
        · exact .inl hend
        · exact .inr ⟨first :: before, call, after, congrArg (first :: ·) hsplit, hundone⟩
      · exact .inr ⟨[], first, rest, rfl, hundone⟩

end Store

end KeyValue
