import KeyValue.Proofs.Keyspace.Cell
import KeyValue.Store.Hashes
import KeyValue.Store.Keys
import KeyValue.Store.Lists
import KeyValue.Store.Strings

namespace KeyValue

open Store (Side)

namespace Cell

-- What the store's operations do to the cell of the one key that they name. Whatever is due
-- has gone from the cell before.

def typed {α : Type} (kind : Kind) (act : Cell → Except StoreError α × Cell) (cell : Cell) :
    Except StoreError α × Cell :=
  match cell.kind? with
  | some other => if other = kind then act cell else (.error .wrongType, cell)
  | none => act cell

def typedRead {α : Type} (kind : Kind) (read : Cell → α) (cell : Cell) :
    Except StoreError α × Cell :=
  typed kind (fun cell => (.ok (read cell), cell)) cell

theorem snd_typedRead {α : Type} (kind : Kind) (read : Cell → α) (cell : Cell) :
    (cell.typedRead kind read).2 = cell := by
  unfold typedRead typed
  split
  · split <;> rfl
  · rfl

def items (cell : Cell) : List Bytes := cell.list.getD []

def fields (cell : Cell) : ByteMap Bytes := cell.hash.getD .empty

def keepList (cell : Cell) (items : List Bytes) : Cell :=
  if items.isEmpty then vacant else { cell with list := some items }

def keepHash (cell : Cell) (fields : ByteMap Bytes) : Cell :=
  if fields.isEmpty then vacant else { cell with hash := some fields }

def setDeadline (deadline : Nat) (cell : Cell) : Except StoreError Unit × Cell :=
  match cell.kind? with
  | none => (.error .noSuchKey, cell)
  | some _ => (.ok (), { cell with deadline := some deadline })

def set (value : Bytes) (cell : Cell) : Except StoreError Unit × Cell :=
  (.ok (), { cell with string := some value, deadline := none })

def push (side : Side) (values : List Bytes) (cell : Cell) : Except StoreError Nat × Cell :=
  let items := side.push values cell.items
  (.ok items.length, { cell with list := some items })

def pop (side : Side) (cell : Cell) : Except StoreError (Option Bytes) × Cell :=
  match cell.list with
  | none => (.ok none, cell)
  | some items => (.ok (side.pop items).1, cell.keepList (side.pop items).2)

def listSet (index : Int64) (value : Bytes) (cell : Cell) : Except StoreError Unit × Cell :=
  match cell.list with
  | none => (.error .noSuchKey, cell)
  | some items =>
      match Store.position? index items.length with
      | none => (.error .indexOutOfRange, cell)
      | some position => (.ok (), { cell with list := some (items.set position value) })

def listRemove (count : Int64) (value : Bytes) (cell : Cell) : Except StoreError Nat × Cell :=
  match cell.list with
  | none => (.ok 0, cell)
  | some items =>
      (.ok (Store.removeMatches count value items).1,
        cell.keepList (Store.removeMatches count value items).2)

def setField (field value : Bytes) (cell : Cell) : Except StoreError Bool × Cell :=
  (.ok !cell.fields.contains field, { cell with hash := some (cell.fields.insert field value) })

def setFields (pairs : List (Bytes × Bytes)) (cell : Cell) : Except StoreError Unit × Cell :=
  if pairs.isEmpty then (.ok (), cell)
  else (.ok (), { cell with hash := some (cell.fields.insertAll pairs) })

def deleteField (field : Bytes) (cell : Cell) : Except StoreError Bool × Cell :=
  match cell.hash with
  | none => (.ok false, cell)
  | some fields => (.ok (fields.contains field), cell.keepHash (fields.erase field))

end Cell

namespace Keyspace

-- Lets an operation on cells work on the cell of a key.
def onCell {α : Type} (key : Bytes) (act : Cell → α × Cell) (keyspace : Keyspace) :
    α × Keyspace :=
  ((act (keyspace.cell key)).1, keyspace.put key (act (keyspace.cell key)).2)

theorem keepList_eq_put (keyspace : Keyspace) (key : Bytes) (items : List Bytes) :
    keyspace.keepList key items = keyspace.put key ((keyspace.cell key).keepList items) := by
  unfold keepList Cell.keepList
  split
  · exact erase_eq_put keyspace key
  · exact setList_eq_put keyspace key items

theorem keepHash_eq_put (keyspace : Keyspace) (key : Bytes) (fields : ByteMap Bytes) :
    keyspace.keepHash key fields = keyspace.put key ((keyspace.cell key).keepHash fields) := by
  unfold keepHash Cell.keepHash
  split
  · exact erase_eq_put keyspace key
  · exact setHash_eq_put keyspace key fields

end Keyspace

namespace Store

variable {α : Type}

def onCell (now : Nat) (key : Bytes) (act : Cell → α × Cell) (store : Store) : α × Store :=
  let cell := store.keyspace.cell key
  let result := act (cell.evict now)
  (result.1, ⟨store.keyspace.put key result.2, store.evicted + if cell.isDue now then 1 else 0⟩)

theorem onKey_eq_onCell {key : Bytes} {act : Keyspace → α × Keyspace} {act' : Cell → α × Cell}
    (h : ∀ keyspace, act keyspace = keyspace.onCell key act') (now : Nat) (store : Store) :
    store.onKey now key act = store.onCell now key act' := by
  simp only [onKey, onCell, evict, h, Keyspace.onCell, Keyspace.evict_eq_put,
    Keyspace.put_put, Keyspace.cell_put_self]
  rfl

theorem typed_eq_onCell {key : Bytes} {act : Keyspace → Except StoreError α × Keyspace}
    {act' : Cell → Except StoreError α × Cell}
    (h : ∀ keyspace, act keyspace = keyspace.onCell key act') (kind : Kind) (now : Nat)
    (store : Store) :
    store.typed kind now key act = store.onCell now key (Cell.typed kind act') := by
  refine onKey_eq_onCell (fun keyspace => ?_) now store
  simp only [Keyspace.kind?_eq_cell, h, Keyspace.onCell, Cell.typed]
  cases (keyspace.cell key).kind? with
  | none => rfl
  | some other =>
      by_cases hkind : other = kind
      · simp only [hkind, if_true]
      · simp only [hkind, if_false, Keyspace.put_cell]

theorem typedRead_eq_onCell {key : Bytes} {read : Keyspace → α} {read' : Cell → α}
    (h : ∀ keyspace, read keyspace = read' (keyspace.cell key)) (kind : Kind) (now : Nat)
    (store : Store) :
    store.typedRead kind now key read = store.onCell now key (Cell.typedRead kind read') :=
  typed_eq_onCell (fun keyspace => by rw [h, Keyspace.onCell, Keyspace.put_cell]) kind now store

variable (now : Nat) (key : Bytes) (store : Store)

theorem kind?_eq_onCell :
    store.kind? now key = store.onCell now key fun cell => (cell.kind?, cell) :=
  onKey_eq_onCell (fun keyspace => by
    rw [Keyspace.onCell, Keyspace.put_cell, Keyspace.kind?_eq_cell]) now store

theorem delete_eq_onCell :
    store.delete now key = store.onCell now key fun cell => (cell.kind?.isSome, .vacant) :=
  onKey_eq_onCell (fun keyspace => by
    rw [Keyspace.onCell, Keyspace.erase_eq_put, Keyspace.kind?_eq_cell]) now store

theorem expire_eq_onCell {seconds : Int64} {deadline : Nat}
    (h : deadline? now seconds = some deadline) :
    store.expire now key seconds = store.onCell now key (Cell.setDeadline deadline) := by
  simp only [expire, h]
  refine onKey_eq_onCell (fun keyspace => ?_) now store
  simp only [Keyspace.kind?_eq_cell, Keyspace.onCell, Cell.setDeadline]
  cases (keyspace.cell key).kind? with
  | none => simp only [Keyspace.put_cell]
  | some kind =>
      exact congrArg (Prod.mk _) (Keyspace.withDeadline_eq_put keyspace key (some deadline))

theorem set_eq_onCell (value : Bytes) :
    store.set now key value = store.onCell now key (Cell.typed .string (Cell.set value)) := by
  refine typed_eq_onCell (fun keyspace => congrArg (Prod.mk (Except.ok ())) ?_) .string now store
  calc
    _ = ({ keyspace with deadlines := keyspace.deadlines.assign key none }).setString key value :=
      rfl
    _ = keyspace.put key (Cell.set value (keyspace.cell key)).2 := by
      rw [Keyspace.withDeadline_eq_put, Keyspace.setString_eq_put, Keyspace.put_put,
        Keyspace.cell_put_self, Cell.set]

theorem get_eq_onCell :
    store.get now key = store.onCell now key (Cell.typedRead .string fun cell => cell.string) :=
  typedRead_eq_onCell (by intro keyspace; rfl) .string now store

theorem push_eq_onCell (side : Side) (values : List Bytes) :
    store.push side now key values =
      store.onCell now key (Cell.typed .list (Cell.push side values)) :=
  typed_eq_onCell (fun keyspace => by
    simp only [Keyspace.setList_eq_put]
    rfl) .list now store

theorem pop_eq_onCell (side : Side) :
    store.pop side now key = store.onCell now key (Cell.typed .list (Cell.pop side)) := by
  refine typed_eq_onCell (fun keyspace => ?_) .list now store
  simp only [Keyspace.list_eq_cell, Keyspace.onCell, Cell.pop]
  cases (keyspace.cell key).list with
  | none => simp only [Keyspace.put_cell]
  | some items => simp only [Keyspace.keepList_eq_put]

theorem listLength_eq_onCell :
    store.listLength now key =
      store.onCell now key (Cell.typedRead .list fun cell => cell.items.length) :=
  typedRead_eq_onCell (by intro keyspace; rfl) .list now store

theorem listItems_eq_onCell :
    store.listItems now key = store.onCell now key (Cell.typedRead .list Cell.items) :=
  typedRead_eq_onCell (by intro keyspace; rfl) .list now store

theorem listIndex_eq_onCell (index : Int64) :
    store.listIndex now key index = store.onCell now key (Cell.typedRead .list fun cell =>
      (position? index cell.items.length).bind (cell.items[·]?)) :=
  typedRead_eq_onCell (by intro keyspace; rfl) .list now store

theorem listSet_eq_onCell (index : Int64) (value : Bytes) :
    store.listSet now key index value =
      store.onCell now key (Cell.typed .list (Cell.listSet index value)) := by
  refine typed_eq_onCell (fun keyspace => ?_) .list now store
  simp only [Keyspace.list_eq_cell, Keyspace.onCell, Cell.listSet]
  cases (keyspace.cell key).list with
  | none => simp only [Keyspace.put_cell]
  | some items =>
      cases hposition : position? index items.length with
      | none => simp only [hposition, Keyspace.put_cell]
      | some position => simp only [hposition, Keyspace.setList_eq_put]

theorem listRemove_eq_onCell (count : Int64) (value : Bytes) :
    store.listRemove now key count value =
      store.onCell now key (Cell.typed .list (Cell.listRemove count value)) := by
  refine typed_eq_onCell (fun keyspace => ?_) .list now store
  simp only [Keyspace.list_eq_cell, Keyspace.onCell, Cell.listRemove]
  cases (keyspace.cell key).list with
  | none => simp only [Keyspace.put_cell]
  | some items => simp only [Keyspace.keepList_eq_put]

theorem setField_eq_onCell (field value : Bytes) :
    store.setField now key field value =
      store.onCell now key (Cell.typed .hash (Cell.setField field value)) :=
  typed_eq_onCell (fun keyspace => by
    simp only [Keyspace.setHash_eq_put]
    rfl) .hash now store

theorem setFields_eq_onCell (pairs : List (Bytes × Bytes)) :
    store.setFields now key pairs =
      store.onCell now key (Cell.typed .hash (Cell.setFields pairs)) := by
  refine typed_eq_onCell (fun keyspace => ?_) .hash now store
  simp only [Keyspace.onCell, Cell.setFields]
  cases pairs.isEmpty with
  | true => simp only [if_true, Keyspace.put_cell]
  | false =>
      simp only [Keyspace.setHash_eq_put]
      rfl

theorem getField_eq_onCell (field : Bytes) :
    store.getField now key field =
      store.onCell now key (Cell.typedRead .hash fun cell => cell.fields.get? field) :=
  typedRead_eq_onCell (by intro keyspace; rfl) .hash now store

theorem hasField_eq_onCell (field : Bytes) :
    store.hasField now key field =
      store.onCell now key (Cell.typedRead .hash fun cell => cell.fields.contains field) :=
  typedRead_eq_onCell (by intro keyspace; rfl) .hash now store

theorem deleteField_eq_onCell (field : Bytes) :
    store.deleteField now key field =
      store.onCell now key (Cell.typed .hash (Cell.deleteField field)) := by
  refine typed_eq_onCell (fun keyspace => ?_) .hash now store
  simp only [Keyspace.hash_eq_cell, Keyspace.onCell, Cell.deleteField]
  cases (keyspace.cell key).hash with
  | none => simp only [Keyspace.put_cell]
  | some fields => simp only [Keyspace.keepHash_eq_put]

theorem hashPairs_eq_onCell :
    store.hashPairs now key =
      store.onCell now key (Cell.typedRead .hash fun cell => cell.fields.entries) :=
  typedRead_eq_onCell (by intro keyspace; rfl) .hash now store

theorem hashFields_eq_onCell :
    store.hashFields now key =
      store.onCell now key (Cell.typedRead .hash fun cell => cell.fields.keys) :=
  typedRead_eq_onCell (by intro keyspace; rfl) .hash now store

theorem hashValues_eq_onCell :
    store.hashValues now key =
      store.onCell now key (Cell.typedRead .hash fun cell => Bytes.sort cell.fields.values) :=
  typedRead_eq_onCell (by intro keyspace; rfl) .hash now store

theorem hashSize_eq_onCell :
    store.hashSize now key =
      store.onCell now key (Cell.typedRead .hash fun cell => cell.fields.size) :=
  typedRead_eq_onCell (by intro keyspace; rfl) .hash now store

end Store

end KeyValue
