import KeyValue.Proofs.Store.Deadlines
import KeyValue.Proofs.Store.ListCell
import KeyValue.Proofs.Store.Nonempty

namespace KeyValue

namespace Cell

variable {α : Type} {cell : Cell}

theorem typed_of_kind? {kind : Kind} (h : cell.kind? = some kind)
    (act : Cell → Except StoreError α × Cell) : cell.typed kind act = act cell := by
  simp only [typed, h, if_true]

theorem typed_of_absent (h : cell.kind? = none) (kind : Kind)
    (act : Cell → Except StoreError α × Cell) : cell.typed kind act = act cell := by
  simp only [typed, h]

theorem kind?_withList (h : cell.kind? = some .list) (items : List Bytes) :
    ({ cell with list := some items } : Cell).kind? = some .list := by
  revert h
  simp only [Slots.kind?]
  cases cell.string with
  | none => exact fun _ => rfl
  | some value => exact id

end Cell

namespace Store

variable {α : Type} {store : Store} {now : Nat} {key : Bytes}

-- A live key is found with all that is stored under it.

theorem not_due_of_kind? {kind : Kind} (h : (store.kind? now key).1 = some kind) :
    (store.keyspace.cell key).isDue now = false := by
  have hlive : store.isLive now key = true := by
    rw [isLive_eq_view, ← kind?_eq_view, h, Option.isSome_some]
  exact (isLive_iff_cell.mp hlive).2

theorem view_of_kind? {kind : Kind} (h : (store.kind? now key).1 = some kind) :
    store.view now key = store.keyspace.cell key :=
  Cell.evict_of_not_due (not_due_of_kind? h)

theorem evict_of_kind? {kind : Kind} (h : (store.kind? now key).1 = some kind) :
    store.evict now key = store := by
  have hdue := not_due_of_kind? h
  simp only [evict, Keyspace.evict, Keyspace.isDue_eq_cell, hdue]
  rfl

theorem kind?_cell_of_kind? {kind : Kind} (h : (store.kind? now key).1 = some kind) :
    (store.keyspace.cell key).kind? = some kind := by
  rw [← view_of_kind? h, ← kind?_eq_view, h]

theorem list_of_kind? (h : (store.kind? now key).1 = some .list) :
    (store.keyspace.cell key).list = some (store.keyspace.listAt key) :=
  Cell.list_of_kind? (kind?_cell_of_kind? h)

-- Operations on a live list evict nothing.
theorem onCell_of_list (h : (store.kind? now key).1 = some .list)
    (act : Cell → Except StoreError α × Cell) :
    store.onCell now key (Cell.typed .list act) =
      ((act (store.keyspace.cell key)).1,
        { store with keyspace := store.keyspace.put key (act (store.keyspace.cell key)).2 }) := by
  have hdue := not_due_of_kind? h
  simp only [onCell, hdue, Cell.evict_of_not_due hdue, Cell.typed_of_kind? (kind?_cell_of_kind? h)]
  rfl

theorem read_of_list (h : (store.kind? now key).1 = some .list) (read : Cell → α) :
    (store.onCell now key (Cell.typedRead .list read)).1 =
      .ok (read (store.keyspace.cell key)) :=
  congrArg Prod.fst (onCell_of_list h fun cell => (.ok (read cell), cell))

-- Where there is nothing, an operation on a list finds none.
theorem fst_onCell_of_absent (h : (store.kind? now key).1 = none)
    (act : Cell → Except StoreError α × Cell) :
    (store.onCell now key (Cell.typed .list act)).1 =
      (act ⟨.vacant, (store.view now key).deadline⟩).1 := by
  rw [kind?_eq_view] at h
  have hslots := Slots.kind?_eq_none_iff.mp h
  rw [fst_onCell, Cell.typed_of_absent h, ← hslots]

theorem read_of_absent (h : (store.kind? now key).1 = none) (read : Cell → α) :
    (store.onCell now key (Cell.typedRead .list read)).1 =
      .ok (read ⟨.vacant, (store.view now key).deadline⟩) :=
  fst_onCell_of_absent h fun cell => (.ok (read cell), cell)

end Store

end KeyValue
