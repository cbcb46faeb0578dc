import KeyValue.Proofs.Keyspace.Cell
import Mathlib.Logic.ExistsUnique

namespace KeyValue

namespace Slots

def holds (slots : Slots) : Kind → Bool
  | .string => slots.string.isSome
  | .list => slots.list.isSome
  | .hash => slots.hash.isSome

-- One value at most, and no empty list or hash.
inductive WellFormed : Slots → Prop where
  | vacant : WellFormed .vacant
  | string (value : Bytes) : WellFormed ⟨some value, none, none⟩
  | list (items : List Bytes) (h : items ≠ []) : WellFormed ⟨none, some items, none⟩
  | hash (fields : ByteMap Bytes) (h : fields ≠ .empty) : WellFormed ⟨none, none, some fields⟩

theorem wellFormed_iff {slots : Slots} :
    slots.WellFormed ↔
      (∀ a b, slots.holds a = true → slots.holds b = true → a = b) ∧
        slots.list ≠ some [] ∧ slots.hash ≠ some .empty := by
  constructor
  · intro h
    refine ⟨fun a b ha hb => ?_, ?_, ?_⟩
    · cases h <;> cases a <;> cases b <;> simp_all [holds, vacant]
    · cases h <;> simp_all [vacant]
    · cases h <;> simp_all [vacant]
  · rintro ⟨hexclusive, hlist, hhash⟩
    obtain ⟨string, list, hash⟩ := slots
    cases string with
    | some value =>
        cases list with
        | some items => cases hexclusive .string .list rfl rfl
        | none =>
            cases hash with
            | some fields => cases hexclusive .string .hash rfl rfl
            | none => exact .string value
    | none =>
        cases list with
        | some items =>
            cases hash with
            | some fields => cases hexclusive .list .hash rfl rfl
            | none => exact .list items fun h => hlist (congrArg some h)
        | none =>
            cases hash with
            | some fields => exact .hash fields fun h => hhash (congrArg some h)
            | none => exact .vacant

theorem kind?_eq_none_iff_holds {slots : Slots} :
    slots.kind? = none ↔ ∀ kind, slots.holds kind = false := by
  rw [kind?_eq_none_iff]
  constructor
  · rintro rfl kind
    cases kind <;> rfl
  · intro h
    obtain ⟨string, list, hash⟩ := slots
    have hstring : string = none := by simpa [holds] using h .string
    have hlist : list = none := by simpa [holds] using h .list
    have hhash : hash = none := by simpa [holds] using h .hash
    rw [hstring, hlist, hhash, vacant]

theorem holds_of_kind? {slots : Slots} {kind : Kind} (h : slots.kind? = some kind) :
    slots.holds kind = true := by
  revert h
  unfold kind?
  split
  · rintro ⟨⟩
    assumption
  · split
    · rintro ⟨⟩
      assumption
    · split
      · rintro ⟨⟩
        assumption
      · rintro ⟨⟩

theorem WellFormed.holds_iff {slots : Slots} (h : slots.WellFormed) (kind : Kind) :
    slots.holds kind = true ↔ slots.kind? = some kind := by
  cases h <;> cases kind <;> simp [holds, kind?, Slots.vacant]

end Slots

namespace Namespaces

def holds (data : Namespaces) (kind : Kind) (key : Bytes) : Bool :=
  match kind with
  | .string => data.strings.contains key
  | .list => data.lists.contains key
  | .hash => data.hashes.contains key

-- A key has a value of one kind only, and no list or hash is empty.
structure WellFormed (data : Namespaces) : Prop where
  exclusive : ∀ key a b, data.holds a key = true → data.holds b key = true → a = b
  lists_nonempty : ∀ key, data.lists.get? key ≠ some []
  hashes_nonempty : ∀ key, data.hashes.get? key ≠ some .empty

theorem holds_eq_slots (data : Namespaces) (kind : Kind) (key : Bytes) :
    data.holds kind key = (data.slots key).holds kind := by
  cases kind <;> rfl

theorem wellFormed_iff_slots {data : Namespaces} :
    data.WellFormed ↔ ∀ key, (data.slots key).WellFormed := by
  simp only [Slots.wellFormed_iff]
  constructor
  · intro h key
    refine ⟨fun a b => ?_, h.lists_nonempty key, h.hashes_nonempty key⟩
    simpa only [holds_eq_slots] using h.exclusive key a b
  · intro h
    refine ⟨fun key a b => ?_, fun key => (h key).2.1, fun key => (h key).2.2⟩
    simpa only [holds_eq_slots] using (h key).1 a b

end Namespaces

-- Moreover, a key that has a deadline has a value.
structure Keyspace.WellFormed (keyspace : Keyspace) : Prop where
  data : keyspace.data.WellFormed
  deadlines : ∀ key, keyspace.deadlines.contains key = true →
    ∃! kind, keyspace.data.holds kind key = true

structure Cell.WellFormed (cell : Cell) : Prop where
  slots : cell.toSlots.WellFormed
  deadline : cell.kind? = none → cell.deadline = none

namespace Cell

theorem wellFormed_vacant : vacant.WellFormed := ⟨.vacant, fun _ => rfl⟩

theorem WellFormed.evict {cell : Cell} (h : cell.WellFormed) (now : Nat) :
    (cell.evict now).WellFormed := by
  unfold Cell.evict
  split
  · exact wellFormed_vacant
  · exact h

theorem WellFormed.eq_vacant {cell : Cell} (h : cell.WellFormed) (hkind : cell.kind? = none) :
    cell = vacant := by
  have hdeadline := h.deadline hkind
  obtain ⟨slots, deadline⟩ := cell
  subst hdeadline
  cases h.slots with
  | vacant => rfl
  | string value => cases hkind
  | list items hitems => cases hkind
  | hash fields hfields => cases hkind

end Cell

namespace Keyspace

variable {keyspace : Keyspace}

theorem wellFormed_iff_cell :
    keyspace.WellFormed ↔ ∀ key, (keyspace.cell key).WellFormed := by
  constructor
  · intro h key
    have hslots := Namespaces.wellFormed_iff_slots.mp h.data key
    refine ⟨hslots, fun hkind => ?_⟩
    by_contra hdeadline
    obtain ⟨kind, hholds, _⟩ := h.deadlines key (Option.isSome_iff_ne_none.mpr hdeadline)
    simp only [Namespaces.holds_eq_slots, hslots.holds_iff] at hholds
    exact Option.some_ne_none kind (hholds.symm.trans hkind)
  · intro h
    refine ⟨Namespaces.wellFormed_iff_slots.mpr fun key => (h key).slots, fun key hdeadline => ?_⟩
    have hslots : (keyspace.data.slots key).WellFormed := (h key).slots
    simp only [Namespaces.holds_eq_slots, hslots.holds_iff]
    cases hkind : (keyspace.cell key).kind? with
    | none =>
        rw [ByteMap.contains, show keyspace.deadlines.get? key = none from (h key).deadline hkind]
          at hdeadline
        cases hdeadline
    | some kind =>
        exact ⟨kind, hkind, fun other hother => Option.some.inj (hother.symm.trans hkind)⟩

theorem wellFormed_empty : empty.WellFormed :=
  wellFormed_iff_cell.mpr fun _ => Cell.wellFormed_vacant

theorem WellFormed.put (h : keyspace.WellFormed) {cell : Cell} (hcell : cell.WellFormed)
    (key : Bytes) : (keyspace.put key cell).WellFormed := by
  refine wellFormed_iff_cell.mpr fun other => ?_
  rw [cell_put_apply]
  split
  · exact hcell
  · exact wellFormed_iff_cell.mp h other

theorem WellFormed.purge (h : keyspace.WellFormed) (now : Nat) :
    (keyspace.purge now).WellFormed := by
  refine wellFormed_iff_cell.mpr fun key => ?_
  rw [cell_purge]
  exact (wellFormed_iff_cell.mp h key).evict now

theorem WellFormed.live (h : keyspace.WellFormed) (now : Nat) :
    (keyspace.live now).WellFormed :=
  data_purge keyspace now ▸ (h.purge now).data

end Keyspace

end KeyValue
