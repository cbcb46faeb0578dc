import KeyValue.Keyspace
import KeyValue.Proofs.ByteMap
import Mathlib.Logic.Function.Basic

namespace KeyValue

-- What the three maps hold under one key.
structure Slots where
  string : Option Bytes
  list : Option (List Bytes)
  hash : Option (ByteMap Bytes)
deriving DecidableEq

namespace Slots

def vacant : Slots := ⟨none, none, none⟩

def kind? (slots : Slots) : Option Kind :=
  if slots.string.isSome then some .string
  else if slots.list.isSome then some .list
  else if slots.hash.isSome then some .hash
  else none

theorem kind?_eq_none_iff {slots : Slots} : slots.kind? = none ↔ slots = vacant := by
  obtain ⟨string, list, hash⟩ := slots
  cases string <;> cases list <;> cases hash <;> simp [kind?, vacant]

end Slots

namespace Namespaces

def slots (data : Namespaces) (key : Bytes) : Slots :=
  ⟨data.strings.get? key, data.lists.get? key, data.hashes.get? key⟩

theorem ext_slots {a b : Namespaces} (h : ∀ key, a.slots key = b.slots key) : a = b := by
  obtain ⟨strings, lists, hashes⟩ := a
  obtain ⟨strings', lists', hashes'⟩ := b
  simp only [slots, Slots.mk.injEq] at h
  rw [ByteMap.ext_get? fun key => (h key).1, ByteMap.ext_get? fun key => (h key).2.1,
    ByteMap.ext_get? fun key => (h key).2.2]

@[simp] theorem slots_erase (data : Namespaces) (key other : Bytes) :
    (data.erase key).slots other = if other = key then .vacant else data.slots other := by
  by_cases h : other = key <;> simp [slots, erase, Slots.vacant, h]

theorem length_keys (data : Namespaces) : data.keys.length = data.size := by
  simp only [keys, size, ByteMap.size, List.length_append, ByteMap.keys, List.length_map]

end Namespaces

-- All that is stored under one key: its values, and the instant at which it ceases to exist.
-- A keyspace is as much as one cell for each key.
structure Cell extends Slots where
  deadline : Option Nat
deriving DecidableEq

namespace Cell

def vacant : Cell := ⟨.vacant, none⟩

def isDue (now : Nat) (cell : Cell) : Bool :=
  match cell.deadline with
  | some deadline => deadline ≤ now
  | none => false

def evict (now : Nat) (cell : Cell) : Cell := if cell.isDue now then vacant else cell

theorem evict_cases (cell : Cell) (now : Nat) :
    cell.evict now = vacant ∨ cell.evict now = cell := by
  unfold evict
  split
  · exact .inl rfl
  · exact .inr rfl

-- What is true of the vacant cell is not made false by an eviction.
theorem evict_induction (P : Cell → Prop) {cell : Cell} (hvacant : P vacant) (hcell : P cell)
    (now : Nat) : P (cell.evict now) := by
  rcases cell.evict_cases now with hgone | hsame
  · rw [hgone]
    exact hvacant
  · rw [hsame]
    exact hcell

@[simp] theorem isDue_vacant (now : Nat) : vacant.isDue now = false := rfl

@[simp] theorem isDue_evict (now : Nat) (cell : Cell) : (cell.evict now).isDue now = false := by
  cases h : cell.isDue now <;> simp [evict, h]

theorem isDue_mono {now later : Nat} {cell : Cell} (h : cell.isDue now = true)
    (hle : now ≤ later) : cell.isDue later = true := by
  unfold isDue at h ⊢
  split at h
  · simp only [decide_eq_true_eq] at h ⊢
    omega
  · cases h

-- What is due at one instant has left nothing to find at a later one.
@[simp] theorem evict_evict {now later : Nat} (cell : Cell) (hle : now ≤ later) :
    (cell.evict now).evict later = cell.evict later := by
  cases h : cell.isDue now with
  | true => simp [evict, h, isDue_mono h hle]
  | false => simp [evict, h]

end Cell

namespace Keyspace

def cell (keyspace : Keyspace) (key : Bytes) : Cell :=
  ⟨keyspace.data.slots key, keyspace.deadlines.get? key⟩

-- Replaces all that is stored under one key.
def put (keyspace : Keyspace) (key : Bytes) (cell : Cell) : Keyspace where
  data := {
    strings := keyspace.data.strings.assign key cell.string
    lists := keyspace.data.lists.assign key cell.list
    hashes := keyspace.data.hashes.assign key cell.hash }
  deadlines := keyspace.deadlines.assign key cell.deadline

theorem ext_cell {a b : Keyspace} (h : ∀ key, a.cell key = b.cell key) : a = b := by
  obtain ⟨data, deadlines⟩ := a
  obtain ⟨data', deadlines'⟩ := b
  simp only [cell, Cell.mk.injEq] at h
  rw [Namespaces.ext_slots fun key => (h key).1, ByteMap.ext_get? fun key => (h key).2]

theorem kind?_eq_cell (keyspace : Keyspace) (key : Bytes) :
    keyspace.kind? key = (keyspace.cell key).kind? := rfl

theorem list_eq_cell (keyspace : Keyspace) (key : Bytes) :
    keyspace.data.lists.get? key = (keyspace.cell key).list := rfl

theorem hash_eq_cell (keyspace : Keyspace) (key : Bytes) :
    keyspace.data.hashes.get? key = (keyspace.cell key).hash := rfl

theorem isDue_eq_cell (keyspace : Keyspace) (now : Nat) (key : Bytes) :
    keyspace.isDue now key = (keyspace.cell key).isDue now := rfl

theorem cell_put_apply (keyspace : Keyspace) (key other : Bytes) (cell : Cell) :
    (keyspace.put key cell).cell other = if other = key then cell else keyspace.cell other := by
  by_cases h : other = key <;> simp [Keyspace.cell, put, Namespaces.slots, h]

@[simp] theorem cell_put (keyspace : Keyspace) (key : Bytes) (cell : Cell) :
    (keyspace.put key cell).cell = Function.update keyspace.cell key cell := by
  funext other
  rw [cell_put_apply, Function.update_apply]

theorem cell_put_self (keyspace : Keyspace) (key : Bytes) (cell : Cell) :
    (keyspace.put key cell).cell key = cell := by
  rw [cell_put, Function.update_self]

theorem ext_put {a b : Keyspace} {key : Bytes} {cell : Cell} (hkey : a.cell key = cell)
    (hother : ∀ other, other ≠ key → a.cell other = b.cell other) : a = b.put key cell := by
  refine ext_cell fun other => ?_
  rw [cell_put_apply]
  by_cases h : other = key
  · simp [h, hkey]
  · simp [h, hother other h]

@[simp] theorem put_cell (keyspace : Keyspace) (key : Bytes) :
    keyspace.put key (keyspace.cell key) = keyspace :=
  (ext_put rfl fun _ _ => rfl).symm

@[simp] theorem put_put (keyspace : Keyspace) (key : Bytes) (cell cell' : Cell) :
    (keyspace.put key cell).put key cell' = keyspace.put key cell' :=
  ext_put (by simp) fun other h => by simp [h]

theorem put_comm (keyspace : Keyspace) {first second : Bytes} (hne : first ≠ second)
    (a b : Cell) :
    (keyspace.put first a).put second b = (keyspace.put second b).put first a := by
  refine ext_cell fun key => ?_
  simp only [cell_put]
  rw [Function.update_comm hne.symm]

-- Every change of a keyspace that concerns one key is a change of that key's cell.

theorem erase_eq_put (keyspace : Keyspace) (key : Bytes) :
    keyspace.erase key = keyspace.put key .vacant :=
  ext_put (by simp [erase, cell, Cell.vacant]) fun other h => by simp [erase, cell, h]

theorem evict_eq_put (keyspace : Keyspace) (now : Nat) (key : Bytes) :
    keyspace.evict now key = keyspace.put key ((keyspace.cell key).evict now) := by
  unfold evict Cell.evict
  rw [isDue_eq_cell]
  split
  · exact erase_eq_put keyspace key
  · exact (put_cell keyspace key).symm

theorem setString_eq_put (keyspace : Keyspace) (key value : Bytes) :
    keyspace.setString key value =
      keyspace.put key { keyspace.cell key with string := some value } :=
  ext_put (by simp [setString, cell, Namespaces.slots]) fun other h => by
    simp [setString, cell, Namespaces.slots, h]

theorem setList_eq_put (keyspace : Keyspace) (key : Bytes) (items : List Bytes) :
    keyspace.setList key items = keyspace.put key { keyspace.cell key with list := some items } :=
  ext_put (by simp [setList, cell, Namespaces.slots]) fun other h => by
    simp [setList, cell, Namespaces.slots, h]

theorem setHash_eq_put (keyspace : Keyspace) (key : Bytes) (fields : ByteMap Bytes) :
    keyspace.setHash key fields = keyspace.put key { keyspace.cell key with hash := some fields } :=
  ext_put (by simp [setHash, cell, Namespaces.slots]) fun other h => by
    simp [setHash, cell, Namespaces.slots, h]

theorem withDeadline_eq_put (keyspace : Keyspace) (key : Bytes) (deadline : Option Nat) :
    { keyspace with deadlines := keyspace.deadlines.assign key deadline } =
      keyspace.put key { keyspace.cell key with deadline := deadline } :=
  ext_put (by simp [cell]) fun other h => by simp [cell, h]

-- A purge evicts every key.
theorem mem_dueKeys_iff {keyspace : Keyspace} {now : Nat} {key : Bytes} :
    key ∈ keyspace.dueKeys now ↔ (keyspace.cell key).isDue now = true := by
  simp only [dueKeys, ByteMap.mem_keys_iff, ByteMap.get?_filter, Option.filter_eq_some_iff,
    Cell.isDue, cell]
  cases keyspace.deadlines.get? key <;> simp

theorem cell_foldl_erase (keyspace : Keyspace) (keys : List Bytes) (key : Bytes) :
    (keys.foldl erase keyspace).cell key = if key ∈ keys then .vacant else keyspace.cell key := by
  induction keys generalizing keyspace with
  | nil => simp
  | cons first rest ih =>
      rw [List.foldl_cons, ih, erase_eq_put, cell_put_apply]
      by_cases hrest : key ∈ rest
      · simp [hrest]
      · simp [hrest]

@[simp] theorem cell_purge (keyspace : Keyspace) (now : Nat) (key : Bytes) :
    (keyspace.purge now).cell key = (keyspace.cell key).evict now := by
  rw [purge, cell_foldl_erase]
  simp only [mem_dueKeys_iff, Cell.evict]

-- The values of all keys that are not due.
def live (keyspace : Keyspace) (now : Nat) : Namespaces where
  strings := keyspace.data.strings.filter fun key _ => !keyspace.isDue now key
  lists := keyspace.data.lists.filter fun key _ => !keyspace.isDue now key
  hashes := keyspace.data.hashes.filter fun key _ => !keyspace.isDue now key

theorem data_purge (keyspace : Keyspace) (now : Nat) :
    (keyspace.purge now).data = keyspace.live now := by
  refine Namespaces.ext_slots fun key => ?_
  have hslots : (keyspace.purge now).data.slots key = ((keyspace.cell key).evict now).toSlots :=
    congrArg Cell.toSlots (cell_purge keyspace now key)
  rw [hslots, Cell.evict, ← isDue_eq_cell]
  cases h : keyspace.isDue now key with
  | true =>
      simp only [live, Namespaces.slots, ByteMap.get?_filter, h]
      simp [Cell.vacant, Slots.vacant]
  | false =>
      have hall {α : Type} (value : Option α) : value.filter (fun _ => true) = value := by
        cases value <;> rfl
      simp only [live, Namespaces.slots, ByteMap.get?_filter, h, Bool.not_false, hall]
      rfl

-- Without deadlines nothing is ever due.

theorem purge_of_no_deadlines (data : Namespaces) (now : Nat) :
    (⟨data, .empty⟩ : Keyspace).purge now = ⟨data, .empty⟩ := rfl

theorem live_of_no_deadlines (data : Namespaces) (now : Nat) :
    (⟨data, .empty⟩ : Keyspace).live now = data :=
  (data_purge ⟨data, .empty⟩ now).symm

end Keyspace

end KeyValue
