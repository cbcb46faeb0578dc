import KeyValue.Proofs.Store.WellFormed

namespace KeyValue

open Store (Side)

theorem Store.Side.length_push (side : Side) (values items : List Bytes) :
    (side.push values items).length = items.length + values.length := by
  cases side with
  | head => rw [push, List.length_append, List.length_reverse, Nat.add_comm]
  | tail => exact List.length_append

namespace Cell

variable {cell : Cell} {deadline : Option Nat} {items : List Bytes}

@[simp] theorem items_keepList (cell : Cell) (items : List Bytes) :
    (cell.keepList items).items = items := by
  cases items with
  | nil => rfl
  | cons first rest => rfl

-- A cell with a list that may have a deadline, and nothing else. Without items there is no list
-- and no deadline.
def listing (deadline : Option Nat) (items : List Bytes) : Cell :=
  keepList ⟨.vacant, deadline⟩ items

@[simp] theorem items_listing (deadline : Option Nat) (items : List Bytes) :
    (listing deadline items).items = items :=
  items_keepList _ items

theorem listing_of_ne_nil (h : items ≠ []) :
    listing deadline items = ⟨⟨none, some items, none⟩, deadline⟩ := by
  cases items with
  | nil => exact absurd rfl h
  | cons first rest => rfl

theorem isDue_listing {now : Nat} (h : ∀ instant, deadline = some instant → now < instant)
    (items : List Bytes) : (listing deadline items).isDue now = false := by
  cases items with
  | nil => rfl
  | cons first rest =>
      cases deadline with
      | none => rfl
      | some instant => exact decide_eq_false (Nat.not_le.mpr (h instant rfl))

-- Operations on lists find nothing in their way.
theorem typed_listing {α : Type} (act : Cell → Except StoreError α × Cell)
    (deadline : Option Nat) (items : List Bytes) :
    (listing deadline items).typed .list act = act (listing deadline items) := by
  cases items with
  | nil => rfl
  | cons first rest => rfl

-- The list that a push makes has no deadline.
theorem push_listing (side : Side) {values : List Bytes} (hvalues : values ≠ [])
    (hdeadline : items = [] → deadline = none) :
    (listing deadline items).push side values =
      (.ok (items.length + values.length), listing deadline (side.push values items)) := by
  rw [push, items_listing, side.length_push, listing_of_ne_nil (side.push_ne_nil hvalues items)]
  cases items with
  | nil =>
      rw [hdeadline rfl]
      rfl
  | cons first rest => rfl

theorem pop_listing (side : Side) (deadline : Option Nat) (items : List Bytes) :
    (listing deadline items).pop side =
      (.ok (side.pop items).1, listing deadline (side.pop items).2) := by
  cases items with
  | nil => cases side <;> rfl
  | cons first rest => rfl

theorem WellFormed.eq_listing (h : cell.WellFormed)
    (hkind : cell.kind? = none ∨ cell.kind? = some .list) :
    cell = listing cell.deadline cell.items := by
  rcases hkind with hkind | hkind
  · rw [h.eq_vacant hkind]
    rfl
  · obtain ⟨slots, deadline⟩ := cell
    cases h.slots with
    | vacant => cases hkind
    | string value => cases hkind
    | list items hitems => exact (listing_of_ne_nil hitems).symm
    | hash fields hfields => cases hkind

end Cell

end KeyValue
