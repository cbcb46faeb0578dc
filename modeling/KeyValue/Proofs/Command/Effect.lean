import KeyValue.Command.Execute
import KeyValue.Proofs.Store.Cells

namespace KeyValue

namespace Cell

def keepOnly (kind : Kind) (cell : Cell) : Cell :=
  match kind with
  | .string => ⟨⟨cell.string, none, none⟩, cell.deadline⟩
  | .list => ⟨⟨none, cell.list, none⟩, cell.deadline⟩
  | .hash => ⟨⟨none, none, cell.hash⟩, cell.deadline⟩

def without (kind : Kind) (cell : Cell) : Cell :=
  match kind with
  | .string => ⟨{ cell.toSlots with string := none }, none⟩
  | .list => ⟨{ cell.toSlots with list := none }, none⟩
  | .hash => ⟨{ cell.toSlots with hash := none }, none⟩

-- What a renaming to another key does to the two cells.
def rename (old new : Cell) : Except StoreError Unit × Cell × Cell :=
  match old.kind? with
  | none => (.error .noSuchKey, old, new)
  | some kind => (.ok (), old.without kind, old.keepOnly kind)

def replying {α : Type} (reply : α → Reply) (act : Cell → α × Cell) (cell : Cell) : Reply × Cell :=
  (reply (act cell).1, (act cell).2)

end Cell

namespace Store

variable {α : Type}

theorem get?_moveEntry_erase {old new : Bytes} (hne : old ≠ new) (map : ByteMap α) (key : Bytes) :
    (moveEntry old new (map.erase new)).get? key =
      if key = new then map.get? old else if key = old then none else map.get? key := by
  have hold : (map.erase new).get? old = map.get? old := by simp [hne]
  unfold moveEntry
  rw [hold]
  cases h : map.get? old with
  | none =>
      by_cases hkey : key = old
      · subst hkey
        simp [h]
      · simp [hkey]
  | some value => by_cases hkey : key = new <;> simp [hkey]

theorem moveKey_eq_put {old new : Bytes} (hne : old ≠ new) (kind : Kind) (keyspace : Keyspace) :
    moveKey kind old new keyspace =
      (keyspace.put old ((keyspace.cell old).without kind)).put new
        ((keyspace.cell old).keepOnly kind) := by
  refine Keyspace.ext_cell fun key => ?_
  simp only [Keyspace.cell_put_apply]
  by_cases hnew : key = new
  · subst hnew
    cases kind <;> simp [moveKey, moveValue, Keyspace.cell, Namespaces.slots, Keyspace.erase,
      Namespaces.erase, Cell.keepOnly, get?_moveEntry_erase hne]
  · by_cases hold : key = old
    · subst hold
      cases kind <;> simp [moveKey, moveValue, Keyspace.cell, Namespaces.slots, Keyspace.erase,
        Namespaces.erase, Cell.without, get?_moveEntry_erase hne, hne]
    · cases kind <;> simp [moveKey, moveValue, Keyspace.cell, Namespaces.slots, Keyspace.erase,
        Namespaces.erase, get?_moveEntry_erase hne, hnew, hold]

-- Works on the cells of two different keys.
def onCells (now : Nat) (first second : Bytes) (act : Cell → Cell → α × Cell × Cell)
    (store : Store) : α × Store :=
  let a := store.keyspace.cell first
  let b := store.keyspace.cell second
  let result := act (a.evict now) (b.evict now)
  (result.1, ⟨(store.keyspace.put first result.2.1).put second result.2.2,
    store.evicted + (if a.isDue now then 1 else 0) + if b.isDue now then 1 else 0⟩)

theorem rename_eq_onCells {old new : Bytes} (hne : old ≠ new) (now : Nat) (store : Store) :
    store.rename now old new = store.onCells now old new Cell.rename := by
  have hne' : ¬new = old := fun h => hne h.symm
  simp only [rename, onCells, evict, Cell.rename, Keyspace.evict_eq_put, Keyspace.kind?_eq_cell,
    Keyspace.isDue_eq_cell, Keyspace.cell_put_apply, hne, hne', if_false, if_true]
  cases hkind : ((store.keyspace.cell old).evict now).kind? with
  | none => rfl
  | some kind =>
      simp only [moveKey_eq_put hne, Keyspace.cell_put_apply, hne, if_false, if_true]
      rw [Keyspace.put_comm _ hne, Keyspace.put_put, Keyspace.put_comm _ hne, Keyspace.put_put,
        Keyspace.put_comm _ hne]
      rfl

-- A key that is renamed to itself is only looked at.
theorem rename_self_eq_onCell (now : Nat) (key : Bytes) (store : Store) :
    store.rename now key key = store.onCell now key fun cell =>
      (if cell.kind?.isSome then .ok () else .error .noSuchKey, cell) := by
  have hgone := Cell.isDue_evict now (store.keyspace.cell key)
  simp only [rename, onCell, evict, Keyspace.evict_eq_put, Keyspace.kind?_eq_cell,
    Keyspace.isDue_eq_cell, Keyspace.cell_put_apply, Keyspace.put_put, if_true, hgone,
    Cell.evict_evict _ (Nat.le_refl now)]
  cases ((store.keyspace.cell key).evict now).kind? <;> rfl

end Store

-- All that a request can do with a store.
inductive Effect where
  -- It is answered without a look at the store.
  | silent (reply : Reply)
  | clear
  | listKeys (pattern : Bytes)
  | onCell (key : Bytes) (act : Cell → Reply × Cell)
  | onCells (first second : Bytes) (hne : first ≠ second)
      (act : Cell → Cell → Reply × Cell × Cell)

def Effect.perform (now : Nat) (effect : Effect) (store : Store) : Reply × Store :=
  match effect with
  | .silent reply => (reply, store)
  | .clear => (.ok, store.flushAll)
  | .listKeys pattern => Command.answer .ofBytesList (store.keys now pattern)
  | .onCell key act => store.onCell now key act
  | .onCells first second _ act => store.onCells now first second act

namespace Command

def effect (now : Nat) : Command → Effect
  | .ping => .silent .pong
  | .echo message => .silent (echoReply message)
  | .flushAll => .clear
  | .keys pattern => .listKeys pattern
  | .type key => .onCell key (Cell.replying kindReply fun cell => (cell.kind?, cell))
  | .delete key => .onCell key (Cell.replying .ofBool fun cell => (cell.kind?.isSome, .vacant))
  | .expire key seconds =>
      match Store.deadline? now seconds with
      | none => .silent (.error StoreError.invalidExpire.message)
      | some deadline =>
          .onCell key (Cell.replying (.ofOutcome fun _ => .ok) (Cell.setDeadline deadline))
  | .rename old new =>
      if hne : old = new then
        .onCell old (Cell.replying (.ofOutcome fun _ => .ok) fun cell =>
          (if cell.kind?.isSome then .ok () else .error .noSuchKey, cell))
      else
        .onCells old new hne fun a b =>
          (.ofOutcome (fun _ => .ok) (Cell.rename a b).1, (Cell.rename a b).2)
  | .set key value =>
      .onCell key (Cell.replying (.ofOutcome fun _ => .ok) (Cell.typed .string (Cell.set value)))
  | .get key =>
      .onCell key (Cell.replying (.ofOutcome .ofOption)
        (Cell.typedRead .string fun cell => cell.string))
  | .push side key values =>
      .onCell key (Cell.replying (.ofOutcome .ofLength)
        (Cell.typed .list (Cell.push side values)))
  | .pop side key =>
      .onCell key (Cell.replying (.ofOutcome .ofOption) (Cell.typed .list (Cell.pop side)))
  | .listLength key =>
      .onCell key (Cell.replying (.ofOutcome .ofLength)
        (Cell.typedRead .list fun cell => cell.items.length))
  | .listItems key =>
      .onCell key (Cell.replying (.ofOutcome .ofBytesList) (Cell.typedRead .list Cell.items))
  | .listRemove key count value =>
      .onCell key (Cell.replying (.ofOutcome .ofLength)
        (Cell.typed .list (Cell.listRemove count value)))
  | .listIndex key index =>
      .onCell key (Cell.replying (.ofOutcome .ofOption) (Cell.typedRead .list fun cell =>
        (Store.position? index cell.items.length).bind (cell.items[·]?)))
  | .listSet key index value =>
      .onCell key (Cell.replying (.ofOutcome fun _ => .ok)
        (Cell.typed .list (Cell.listSet index value)))
  | .setField key field value =>
      .onCell key (Cell.replying (.ofOutcome fun _ => .integer 1)
        (Cell.typed .hash (Cell.setField field value)))
  | .setFields key pairs =>
      .onCell key (Cell.replying (.ofOutcome fun _ => .ok)
        (Cell.typed .hash (Cell.setFields pairs)))
  | .getField key field =>
      .onCell key (Cell.replying (.ofOutcome .ofOption)
        (Cell.typedRead .hash fun cell => cell.fields.get? field))
  | .hasField key field =>
      .onCell key (Cell.replying (.ofOutcome .ofBool)
        (Cell.typedRead .hash fun cell => cell.fields.contains field))
  | .deleteField key field =>
      .onCell key (Cell.replying (.ofOutcome .ofBool)
        (Cell.typed .hash (Cell.deleteField field)))
  | .hashPairs key =>
      .onCell key (Cell.replying
        (.ofOutcome fun pairs => .ofBytesList (pairs.flatMap fun (field, value) => [field, value]))
        (Cell.typedRead .hash fun cell => cell.fields.entries))
  | .hashFields key =>
      .onCell key (Cell.replying (.ofOutcome .ofBytesList)
        (Cell.typedRead .hash fun cell => cell.fields.keys))
  | .hashValues key =>
      .onCell key (Cell.replying (.ofOutcome .ofBytesList)
        (Cell.typedRead .hash fun cell => Bytes.sort cell.fields.values))
  | .hashSize key =>
      .onCell key (Cell.replying (.ofOutcome .ofLength)
        (Cell.typedRead .hash fun cell => cell.fields.size))

theorem run_eq_perform (now : Nat) (command : Command) (store : Store) :
    command.run now store = (command.effect now).perform now store := by
  cases command with
  | ping => rfl
  | echo message => rfl
  | flushAll => rfl
  | keys pattern => rfl
  | type key => rw [run, Store.kind?_eq_onCell]; rfl
  | delete key => rw [run, Store.delete_eq_onCell]; rfl
  | expire key seconds =>
      cases h : Store.deadline? now seconds with
      | none =>
          simp only [run, effect, Store.expire, h]
          rfl
      | some deadline =>
          simp only [run, effect, h, Store.expire_eq_onCell now key store h]
          rfl
  | rename old new =>
      by_cases hne : old = new
      · subst hne
        simp only [run, effect, Store.rename_self_eq_onCell, dif_pos]
        rfl
      · simp only [run, effect, Store.rename_eq_onCells hne, dif_neg hne]
        rfl
  | set key value => rw [run, Store.set_eq_onCell]; rfl
  | get key => rw [run, Store.get_eq_onCell]; rfl
  | push side key values => rw [run, Store.push_eq_onCell]; rfl
  | pop side key => rw [run, Store.pop_eq_onCell]; rfl
  | listLength key => rw [run, Store.listLength_eq_onCell]; rfl
  | listItems key => rw [run, Store.listItems_eq_onCell]; rfl
  | listRemove key count value => rw [run, Store.listRemove_eq_onCell]; rfl
  | listIndex key index => rw [run, Store.listIndex_eq_onCell]; rfl
  | listSet key index value => rw [run, Store.listSet_eq_onCell]; rfl
  | setField key field value => rw [run, Store.setField_eq_onCell]; rfl
  | setFields key pairs => rw [run, Store.setFields_eq_onCell]; rfl
  | getField key field => rw [run, Store.getField_eq_onCell]; rfl
  | hasField key field => rw [run, Store.hasField_eq_onCell]; rfl
  | deleteField key field => rw [run, Store.deleteField_eq_onCell]; rfl
  | hashPairs key => rw [run, Store.hashPairs_eq_onCell]; rfl
  | hashFields key => rw [run, Store.hashFields_eq_onCell]; rfl
  | hashValues key => rw [run, Store.hashValues_eq_onCell]; rfl
  | hashSize key => rw [run, Store.hashSize_eq_onCell]; rfl

theorem exists_of_map_eq_ok {ε α β : Type} {x : Except ε α} {f : α → β} {b : β}
    (h : x.map f = .ok b) : ∃ a, f a = b := by
  cases x with
  | error cause => cases h
  | ok a => exact ⟨a, Except.ok.inj h⟩

-- What a list of tokens asks for. A refusal never reaches the store.
def effectOf (now : Nat) (tokens : List Bytes) : Effect :=
  match parse tokens with
  | .ok command => command.effect now
  | .error refusal => .silent (.error refusal.message)

end Command

theorem Store.execute_eq_perform (now : Nat) (tokens : List Bytes) (store : Store) :
    store.execute now tokens = (Command.effectOf now tokens).perform now store := by
  unfold Store.execute Command.effectOf
  cases Command.parse tokens with
  | ok command => exact Command.run_eq_perform now command store
  | error refusal => rfl

end KeyValue
