import KeyValue.Proofs.Command.Effect
import KeyValue.Proofs.Keyspace.WellFormed

namespace KeyValue

theorem Store.Side.push_ne_nil (side : Store.Side) {values : List Bytes} (h : values ≠ [])
    (items : List Bytes) : side.push values items ≠ [] := by
  cases side <;> simp [push, h]

namespace Cell

variable {α : Type} {cell : Cell}

-- No value of another kind is in the way.
def Admits (kind : Kind) (cell : Cell) : Prop := ∀ other, cell.kind? = some other → other = kind

-- With a value in place any deadline will do.
theorem WellFormed.withDeadline (h : cell.WellFormed) (hkind : cell.kind? ≠ none)
    (deadline : Option Nat) : ({ cell with deadline := deadline } : Cell).WellFormed :=
  ⟨h.slots, fun hnone => absurd hnone hkind⟩

theorem WellFormed.withString (h : cell.WellFormed) (hadmits : cell.Admits .string)
    (value : Bytes) (deadline : Option Nat) :
    ({ cell with string := some value, deadline := deadline } : Cell).WellFormed := by
  obtain ⟨slots, _⟩ := cell
  refine ⟨?_, fun hnone => by cases hnone⟩
  cases h.slots with
  | vacant => exact .string value
  | string _ => exact .string value
  | list items _ => cases hadmits .list rfl
  | hash fields _ => cases hadmits .hash rfl

theorem WellFormed.withList (h : cell.WellFormed) (hadmits : cell.Admits .list)
    {items : List Bytes} (hitems : items ≠ []) :
    ({ cell with list := some items } : Cell).WellFormed := by
  obtain ⟨slots, deadline⟩ := cell
  cases h.slots with
  | vacant => exact ⟨.list items hitems, fun hnone => by cases hnone⟩
  | string _ => cases hadmits .string rfl
  | list _ _ => exact ⟨.list items hitems, fun hnone => by cases hnone⟩
  | hash fields _ => cases hadmits .hash rfl

theorem WellFormed.withHash (h : cell.WellFormed) (hadmits : cell.Admits .hash)
    {fields : ByteMap Bytes} (hfields : fields ≠ .empty) :
    ({ cell with hash := some fields } : Cell).WellFormed := by
  obtain ⟨slots, deadline⟩ := cell
  cases h.slots with
  | vacant => exact ⟨.hash fields hfields, fun hnone => by cases hnone⟩
  | string _ => cases hadmits .string rfl
  | list items _ => cases hadmits .list rfl
  | hash _ _ => exact ⟨.hash fields hfields, fun hnone => by cases hnone⟩

-- What is left of a list or hash after a removal is stored only if it is not empty.

theorem WellFormed.keepList (h : cell.WellFormed) (hadmits : cell.Admits .list)
    (items : List Bytes) : (cell.keepList items).WellFormed := by
  unfold Cell.keepList
  split
  · exact wellFormed_vacant
  · rename_i hitems
    exact h.withList hadmits fun hnil => hitems (List.isEmpty_iff.mpr hnil)

theorem WellFormed.keepHash (h : cell.WellFormed) (hadmits : cell.Admits .hash)
    (fields : ByteMap Bytes) : (cell.keepHash fields).WellFormed := by
  unfold Cell.keepHash
  split
  · exact wellFormed_vacant
  · rename_i hfields
    exact h.withHash hadmits fun hempty => hfields (ByteMap.isEmpty_iff.mpr hempty)

theorem WellFormed.typed {kind : Kind} {act : Cell → Except StoreError α × Cell}
    (hact : ∀ cell, cell.WellFormed → cell.Admits kind → (act cell).2.WellFormed)
    (h : cell.WellFormed) : (cell.typed kind act).2.WellFormed := by
  unfold Cell.typed
  cases hkind : cell.kind? with
  | none => exact hact cell h fun other hother => by cases hkind.symm.trans hother
  | some other =>
      by_cases hsame : other = kind
      · simp only [hsame, if_true]
        exact hact cell h fun other' hother =>
          (Option.some.inj (hother.symm.trans hkind)).trans hsame
      · simpa only [hsame, if_false] using h

theorem WellFormed.setDeadline (h : cell.WellFormed) (deadline : Nat) :
    (cell.setDeadline deadline).2.WellFormed := by
  unfold Cell.setDeadline
  split
  · exact h
  · rename_i kind hkind
    exact h.withDeadline (by simp [hkind]) _

theorem WellFormed.push (h : cell.WellFormed) (hadmits : cell.Admits .list) (side : Store.Side)
    {values : List Bytes} (hvalues : values ≠ []) : (cell.push side values).2.WellFormed :=
  h.withList hadmits (side.push_ne_nil hvalues cell.items)

theorem WellFormed.pop (h : cell.WellFormed) (hadmits : cell.Admits .list) (side : Store.Side) :
    (cell.pop side).2.WellFormed := by
  unfold Cell.pop
  split
  · exact h
  · exact h.keepList hadmits _

theorem WellFormed.listSet (h : cell.WellFormed) (hadmits : cell.Admits .list) (index : Int64)
    (value : Bytes) : (cell.listSet index value).2.WellFormed := by
  unfold Cell.listSet
  split
  · exact h
  · rename_i items hitems
    split
    · exact h
    · have hne : items ≠ [] := fun hnil =>
        (Slots.wellFormed_iff.mp h.slots).2.1 (hnil ▸ hitems)
      exact h.withList hadmits (by simpa using hne)

theorem WellFormed.listRemove (h : cell.WellFormed) (hadmits : cell.Admits .list) (count : Int64)
    (value : Bytes) : (cell.listRemove count value).2.WellFormed := by
  unfold Cell.listRemove
  split
  · exact h
  · exact h.keepList hadmits _

theorem WellFormed.setField (h : cell.WellFormed) (hadmits : cell.Admits .hash)
    (field value : Bytes) : (cell.setField field value).2.WellFormed :=
  h.withHash hadmits (ByteMap.insert_ne_empty _ field value)

theorem WellFormed.setFields (h : cell.WellFormed) (hadmits : cell.Admits .hash)
    (pairs : List (Bytes × Bytes)) : (cell.setFields pairs).2.WellFormed := by
  unfold Cell.setFields
  cases pairs with
  | nil => exact h
  | cons pair rest =>
      exact h.withHash hadmits (ByteMap.insertAll_ne_empty (ByteMap.insert_ne_empty _ _ _) rest)

theorem WellFormed.deleteField (h : cell.WellFormed) (hadmits : cell.Admits .hash)
    (field : Bytes) : (cell.deleteField field).2.WellFormed := by
  unfold Cell.deleteField
  split
  · exact h
  · exact h.keepHash hadmits _

-- A well-formed cell has nothing besides the value that is moved.
theorem WellFormed.rename {old new : Cell} (hold : old.WellFormed) (hnew : new.WellFormed) :
    (Cell.rename old new).2.1.WellFormed ∧ (Cell.rename old new).2.2.WellFormed := by
  obtain ⟨slots, deadline⟩ := old
  cases hold.slots with
  | vacant => exact ⟨hold, hnew⟩
  | string value => exact ⟨wellFormed_vacant, hold⟩
  | list items h => exact ⟨wellFormed_vacant, hold⟩
  | hash fields h => exact ⟨wellFormed_vacant, hold⟩

end Cell

-- The effect keeps well-formed cells well-formed.
def Effect.Sound : Effect → Prop
  | .onCell _ act => ∀ cell : Cell, cell.WellFormed → (act cell).2.WellFormed
  | .onCells _ _ _ act => ∀ a b : Cell, a.WellFormed → b.WellFormed →
      (act a b).2.1.WellFormed ∧ (act a b).2.2.WellFormed
  | _ => True

theorem Effect.Sound.perform {effect : Effect} (h : effect.Sound) (now : Nat) {store : Store}
    (hstore : store.keyspace.WellFormed) : (effect.perform now store).2.keyspace.WellFormed := by
  have hcell (key : Bytes) : ((store.keyspace.cell key).evict now).WellFormed :=
    (Keyspace.wellFormed_iff_cell.mp hstore key).evict now
  cases effect with
  | silent reply => exact hstore
  | clear => exact Keyspace.wellFormed_empty
  | listKeys pattern => exact hstore.purge now
  | onCell key act => exact hstore.put (h _ (hcell key)) key
  | onCells first second hne act =>
      obtain ⟨hfirst, hsecond⟩ := h _ _ (hcell first) (hcell second)
      exact (hstore.put hfirst first).put hsecond second

namespace Command

-- Only a push without values could leave an empty list behind, and no request asks for one.
def Complete : Command → Prop
  | .push _ _ values => values ≠ []
  | _ => True

theorem effect_sound {command : Command} (h : command.Complete) (now : Nat) :
    (command.effect now).Sound := by
  cases command with
  | ping => trivial
  | echo message => trivial
  | flushAll => trivial
  | keys pattern => trivial
  | type key => exact fun cell hcell => hcell
  | delete key => exact fun cell hcell => Cell.wellFormed_vacant
  | expire key seconds =>
      simp only [effect]
      split
      · trivial
      · exact fun cell hcell => Cell.WellFormed.setDeadline hcell _
  | rename old new =>
      simp only [effect]
      split
      · exact fun cell hcell => hcell
      · exact fun a b ha hb => ha.rename hb
  | set key value =>
      exact fun cell hcell => hcell.typed fun cell hcell hadmits =>
        hcell.withString hadmits value none
  | push side key values =>
      exact fun cell hcell => hcell.typed fun cell hcell hadmits => hcell.push hadmits side h
  | pop side key =>
      exact fun cell hcell => hcell.typed fun cell hcell hadmits => hcell.pop hadmits side
  | listRemove key count value =>
      exact fun cell hcell => hcell.typed fun cell hcell hadmits =>
        hcell.listRemove hadmits count value
  | listSet key index value =>
      exact fun cell hcell => hcell.typed fun cell hcell hadmits =>
        hcell.listSet hadmits index value
  | setField key field value =>
      exact fun cell hcell => hcell.typed fun cell hcell hadmits =>
        hcell.setField hadmits field value
  | setFields key pairs =>
      exact fun cell hcell => hcell.typed fun cell hcell hadmits => hcell.setFields hadmits pairs
  | deleteField key field =>
      exact fun cell hcell => hcell.typed fun cell hcell hadmits => hcell.deleteField hadmits field
  | get | listLength | listItems | listIndex | getField | hasField | hashPairs | hashFields
  | hashValues | hashSize =>
      exact fun cell hcell => (Cell.snd_typedRead _ _ cell).symm ▸ hcell

theorem complete_of_ofArguments {verb : Verb} {arguments : List Bytes} :
    ∀ command, ofArguments verb arguments = .ok command → command.Complete := by
  unfold ofArguments
  split
  all_goals simp only [Except.ok.injEq, reduceCtorEq, forall_eq', Complete, ne_eq,
    not_false_eq_true, false_imp_iff, implies_true]
  -- Those with an integer among their arguments, and HMSET with its pairs, may still fail.
  case h_9 | h_19 | h_20 | h_21 =>
    intro command h
    obtain ⟨value, rfl⟩ := exists_of_map_eq_ok h
    trivial
  case h_30 =>
    intro command h
    split at h
    · cases h
      trivial
    · cases h

theorem complete_of_parse {tokens : List Bytes} {command : Command}
    (h : parse tokens = .ok command) : command.Complete := by
  unfold parse at h
  split at h
  · cases h
  · simp only at h
    split at h
    · exact complete_of_ofArguments _ h
    · cases h

theorem effectOf_sound (now : Nat) (tokens : List Bytes) : (effectOf now tokens).Sound := by
  unfold effectOf
  split
  · exact effect_sound (complete_of_parse ‹_›) now
  · trivial

end Command

namespace Store

variable {store : Store}

theorem execute_wellFormed (h : store.keyspace.WellFormed) (now : Nat) (tokens : List Bytes) :
    (store.execute now tokens).2.keyspace.WellFormed := by
  rw [execute_eq_perform]
  exact (Command.effectOf_sound now tokens).perform now h

theorem restore_wellFormed {data : Namespaces} (h : data.WellFormed) (store : Store) :
    (store.restore data).keyspace.WellFormed :=
  ⟨h, fun key hdeadline => by cases hdeadline⟩

end Store

end KeyValue
