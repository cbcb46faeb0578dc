import KeyValue.Proofs.Store.LiveList
import KeyValue.Proofs.Store.Positions

namespace KeyValue

namespace Slots

def Exclusive (slots : Slots) : Prop :=
  ∀ a b, slots.holds a = true → slots.holds b = true → a = b

theorem exclusive_vacant : vacant.Exclusive := by
  intro a b ha
  cases a <;> cases ha

-- Then the kind that is found first is the only one.
theorem Exclusive.holds_iff {slots : Slots} (h : slots.Exclusive) (kind : Kind) :
    slots.holds kind = true ↔ slots.kind? = some kind := by
  refine ⟨fun hholds => ?_, holds_of_kind?⟩
  cases hfirst : slots.kind? with
  | none =>
      have hnone := kind?_eq_none_iff_holds.mp hfirst kind
      cases hholds.symm.trans hnone
  | some first => rw [h kind first hholds (holds_of_kind? hfirst)]

end Slots

namespace Cell

variable {α : Type} {kind : Kind} {cell : Cell} {act : Cell → Except StoreError α × Cell}

-- There is no value of another kind.
def Within (kind : Kind) (cell : Cell) : Prop := ∀ other, cell.holds other = true → other = kind

theorem within_vacant (kind : Kind) : vacant.Within kind := by
  intro other hother
  cases other <;> cases hother

theorem Within.exclusive (h : cell.Within kind) : cell.Exclusive :=
  fun a b ha hb => (h a ha).trans (h b hb).symm

theorem within_of_admits (h : cell.Exclusive) (hadmits : cell.Admits kind) : cell.Within kind :=
  fun other hother => hadmits other ((h.holds_iff other).mp hother)

theorem Within.eq_vacant (h : cell.Within kind) (hholds : cell.holds kind = false)
    (hdeadline : cell.deadline = none) : cell = vacant := by
  have hnone : cell.kind? = none := by
    refine Slots.kind?_eq_none_iff_holds.mpr fun other => ?_
    cases hother : cell.holds other with
    | false => rfl
    | true =>
        rw [h other hother, hholds] at hother
        cases hother
  obtain ⟨slots, deadline⟩ := cell
  subst hdeadline
  rw [vacant, ← Slots.kind?_eq_none_iff.mp hnone]

-- What the work of a typed operation is held to. It does not find fault with the kind of a value
-- itself, and makes no value of another kind than its own.
structure Confined (kind : Kind) (act : Cell → Except StoreError α × Cell) : Prop where
  admits : ∀ cell, (act cell).1 ≠ .error .wrongType
  within : ∀ cell, cell.Within kind → (act cell).2.Within kind

theorem Within.withString (h : cell.Within .string) (value : Option Bytes)
    (deadline : Option Nat) :
    ({ cell with string := value, deadline := deadline } : Cell).Within .string := by
  intro other hother
  cases other with
  | string => rfl
  | list => exact h .list hother
  | hash => exact h .hash hother

theorem Within.withList (h : cell.Within .list) (items : Option (List Bytes)) :
    ({ cell with list := items } : Cell).Within .list := by
  intro other hother
  cases other with
  | string => exact h .string hother
  | list => rfl
  | hash => exact h .hash hother

theorem Within.withHash (h : cell.Within .hash) (fields : Option (ByteMap Bytes)) :
    ({ cell with hash := fields } : Cell).Within .hash := by
  intro other hother
  cases other with
  | string => exact h .string hother
  | list => exact h .list hother
  | hash => rfl

theorem Within.keepList (h : cell.Within .list) (items : List Bytes) :
    (cell.keepList items).Within .list := by
  unfold Cell.keepList
  split
  · exact within_vacant .list
  · exact h.withList (some items)

theorem Within.keepHash (h : cell.Within .hash) (fields : ByteMap Bytes) :
    (cell.keepHash fields).Within .hash := by
  unfold Cell.keepHash
  split
  · exact within_vacant .hash
  · exact h.withHash (some fields)

theorem confined_read (kind : Kind) (read : Cell → α) :
    Confined kind fun cell => (.ok (read cell), cell) :=
  ⟨fun _ => by rintro ⟨⟩, fun _ h => h⟩

theorem confined_set (value : Bytes) : Confined .string (set value) :=
  ⟨fun _ => by rintro ⟨⟩, fun _ h => h.withString (some value) none⟩

theorem confined_push (side : Store.Side) (values : List Bytes) :
    Confined .list (push side values) :=
  ⟨fun _ => by rintro ⟨⟩, fun _ h => h.withList _⟩

theorem confined_pop (side : Store.Side) : Confined .list (pop side) := by
  constructor
  · intro cell
    unfold pop
    split <;> rintro ⟨⟩
  · intro cell h
    unfold pop
    split
    · exact h
    · exact h.keepList _

theorem confined_listSet (index : Int64) (value : Bytes) :
    Confined .list (listSet index value) := by
  constructor
  · intro cell
    unfold listSet
    split
    · rintro ⟨⟩
    · split <;> rintro ⟨⟩
  · intro cell h
    unfold listSet
    split
    · exact h
    · split
      · exact h
      · exact h.withList _

theorem confined_listRemove (count : Int64) (value : Bytes) :
    Confined .list (listRemove count value) := by
  constructor
  · intro cell
    unfold listRemove
    split <;> rintro ⟨⟩
  · intro cell h
    unfold listRemove
    split
    · exact h
    · exact h.keepList _

theorem confined_setField (field value : Bytes) : Confined .hash (setField field value) :=
  ⟨fun _ => by rintro ⟨⟩, fun _ h => h.withHash _⟩

theorem confined_setFields (pairs : List (Bytes × Bytes)) : Confined .hash (setFields pairs) := by
  constructor
  · intro cell
    unfold setFields
    split <;> rintro ⟨⟩
  · intro cell h
    unfold setFields
    split
    · exact h
    · exact h.withHash _

theorem confined_deleteField (field : Bytes) : Confined .hash (deleteField field) := by
  constructor
  · intro cell
    unfold deleteField
    split <;> rintro ⟨⟩
  · intro cell h
    unfold deleteField
    split
    · exact h
    · exact h.keepHash _

-- A typed operation is refused for a value of another kind, and does its work otherwise.
theorem typed_cases (kind : Kind) (act : Cell → Except StoreError α × Cell) (cell : Cell) :
    (cell.Admits kind ∧ cell.typed kind act = act cell) ∨
      ∃ other, other ≠ kind ∧ cell.kind? = some other ∧
        cell.typed kind act = (.error .wrongType, cell) := by
  cases hkind : cell.kind? with
  | none =>
      have hadmits : cell.Admits kind := fun other hother => by cases hkind.symm.trans hother
      exact .inl ⟨hadmits, typed_of_absent hkind kind act⟩
  | some found =>
      by_cases hsame : found = kind
      · subst hsame
        have hadmits : cell.Admits found := fun other hother =>
          Option.some.inj (hother.symm.trans hkind)
        exact .inl ⟨hadmits, typed_of_kind? hkind act⟩
      · exact .inr ⟨found, hsame, rfl, by simp only [typed, hkind, if_neg hsame]⟩

theorem typed_of_admits (h : cell.Admits kind)
    (act : Cell → Except StoreError α × Cell) : cell.typed kind act = act cell := by
  rcases cell.typed_cases kind act with ⟨_, htyped⟩ | ⟨other, hne, hother, _⟩
  · exact htyped
  · exact absurd (h other hother) hne

theorem Confined.fst_typed_eq_wrongType_iff (hact : Confined kind act) (cell : Cell) :
    (cell.typed kind act).1 = .error .wrongType ↔
      ∃ other, other ≠ kind ∧ cell.kind? = some other := by
  rcases cell.typed_cases kind act with ⟨hadmits, htyped⟩ | ⟨found, hne, hfound, htyped⟩
  · rw [htyped]
    refine ⟨fun hwrong => absurd hwrong (hact.admits cell), ?_⟩
    rintro ⟨other, hne, hother⟩
    exact absurd (hadmits other hother) hne
  · rw [htyped]
    exact ⟨fun _ => ⟨found, hne, hfound⟩, fun _ => rfl⟩

theorem Confined.within_typed (hact : Confined kind act) (h : cell.Exclusive) {value : α}
    (hok : (cell.typed kind act).1 = .ok value) : (cell.typed kind act).2.Within kind := by
  rcases cell.typed_cases kind act with ⟨hadmits, htyped⟩ | ⟨_, _, _, htyped⟩
  · rw [htyped]
    exact hact.within cell (within_of_admits h hadmits)
  · rw [htyped] at hok
    cases hok

theorem Confined.exclusive_typed (hact : Confined kind act) (h : cell.Exclusive) :
    (cell.typed kind act).2.Exclusive := by
  rcases cell.typed_cases kind act with ⟨hadmits, htyped⟩ | ⟨_, _, _, htyped⟩
  · rw [htyped]
    exact (hact.within cell (within_of_admits h hadmits)).exclusive
  · rw [htyped]
    exact h

end Cell

namespace Store

variable {α : Type}

namespace Operation

-- The kind of values that an operation works on. Two of them take any.
def kind? : Operation α → Option Kind
  | .expire _ _ | .rename _ _ => none
  | .set _ _ | .get _ => some .string
  | .push _ _ _ | .pop _ _ | .listLength _ | .listItems _ | .listIndex _ _ | .listSet _ _ _
  | .listRemove _ _ _ => some .list
  | .setField _ _ _ | .setFields _ _ | .getField _ _ | .hasField _ _ | .deleteField _ _
  | .hashPairs _ | .hashFields _ | .hashValues _ | .hashSize _ => some .hash

-- The operations that give a value to a key that has none.
def writes : Operation α → Bool
  | .set _ _ | .push _ _ _ | .setField _ _ _ => true
  | .setFields _ pairs => !pairs.isEmpty
  | _ => false

-- What a typed operation gives if there is no value under its key. Most find nothing.
def onNothing : Operation α → Except StoreError α
  | .expire _ _ | .rename _ _ | .listSet _ _ _ => .error .noSuchKey
  | .set _ _ | .setFields _ _ => .ok ()
  | .push _ _ values => .ok values.length
  | .get _ | .pop _ _ | .listIndex _ _ | .getField _ _ => .ok none
  | .listLength _ | .listRemove _ _ _ | .hashSize _ => .ok 0
  | .listItems _ | .hashPairs _ | .hashFields _ | .hashValues _ => .ok []
  | .setField _ _ _ => .ok true
  | .hasField _ _ | .deleteField _ _ => .ok false

-- What a typed operation is: it does some work on the cell of its key, if no value of another kind
-- is there.
structure Works (op : Operation α) (kind : Kind) (key : Bytes)
    (act : Cell → Except StoreError α × Cell) : Prop where
  typed : op.kind? = some kind
  named : op.named = [key]
  perform : ∀ now store, op.perform now store = store.onCell now key (Cell.typed kind act)
  confined : Cell.Confined kind act
  answer : (act .vacant).1 = op.onNothing
  deadline : (act .vacant).2.deadline = none
  holds : (act .vacant).2.holds kind = op.writes

theorem works_cases (op : Operation α) :
    op.kind? = none ∨ ∃ kind key act, op.Works kind key act := by
  have reading {kind : Kind} {key : Bytes} {read : Cell → α}
      (hkind : op.kind? = some kind) (hnamed : op.named = [key])
      (hop : ∀ now store, op.perform now store = store.onCell now key (Cell.typedRead kind read))
      (hread : .ok (read .vacant) = op.onNothing) (hwrites : op.writes = false) :
      op.kind? = none ∨ ∃ kind key act, op.Works kind key act := by
    refine .inr ⟨kind, key, _, hkind, hnamed, hop, Cell.confined_read kind read, hread, rfl, ?_⟩
    rw [hwrites]
    cases kind <;> rfl
  cases op with
  | expire key seconds => exact .inl rfl
  | rename old new => exact .inl rfl
  | set key value =>
      exact .inr ⟨_, _, _, rfl, rfl, fun _ _ => set_eq_onCell .., Cell.confined_set value,
        rfl, rfl, rfl⟩
  | get key => exact reading rfl rfl (fun _ _ => get_eq_onCell ..) rfl rfl
  | push side key values =>
      have hlength : (side.push values []).length = values.length :=
        (side.length_push values []).trans (Nat.zero_add _)
      exact .inr ⟨_, _, _, rfl, rfl, fun _ _ => push_eq_onCell .., Cell.confined_push side values,
        congrArg Except.ok hlength, rfl, rfl⟩
  | pop side key =>
      exact .inr ⟨_, _, _, rfl, rfl, fun _ _ => pop_eq_onCell .., Cell.confined_pop side,
        rfl, rfl, rfl⟩
  | listLength key => exact reading rfl rfl (fun _ _ => listLength_eq_onCell ..) rfl rfl
  | listItems key => exact reading rfl rfl (fun _ _ => listItems_eq_onCell ..) rfl rfl
  | listIndex key index =>
      have hnone : (position? index 0).bind (Cell.vacant.items[·]?) = none := by
        rw [position?_zero, Option.bind_none]
      exact reading rfl rfl (fun _ _ => listIndex_eq_onCell ..) (congrArg Except.ok hnone) rfl
  | listSet key index value =>
      exact .inr ⟨_, _, _, rfl, rfl, fun _ _ => listSet_eq_onCell ..,
        Cell.confined_listSet index value, rfl, rfl, rfl⟩
  | listRemove key count value =>
      exact .inr ⟨_, _, _, rfl, rfl, fun _ _ => listRemove_eq_onCell ..,
        Cell.confined_listRemove count value, rfl, rfl, rfl⟩
  | setField key field value =>
      exact .inr ⟨_, _, _, rfl, rfl, fun _ _ => setField_eq_onCell ..,
        Cell.confined_setField field value, rfl, rfl, rfl⟩
  | setFields key pairs =>
      refine .inr ⟨_, _, Cell.setFields pairs, rfl, rfl, fun _ _ => setFields_eq_onCell ..,
        Cell.confined_setFields pairs, ?_, ?_, ?_⟩
      all_goals cases pairs <;> rfl
  | getField key field => exact reading rfl rfl (fun _ _ => getField_eq_onCell ..) rfl rfl
  | hasField key field => exact reading rfl rfl (fun _ _ => hasField_eq_onCell ..) rfl rfl
  | deleteField key field =>
      exact .inr ⟨_, _, _, rfl, rfl, fun _ _ => deleteField_eq_onCell ..,
        Cell.confined_deleteField field, rfl, rfl, rfl⟩
  | hashPairs key => exact reading rfl rfl (fun _ _ => hashPairs_eq_onCell ..) rfl rfl
  | hashFields key => exact reading rfl rfl (fun _ _ => hashFields_eq_onCell ..) rfl rfl
  | hashValues key => exact reading rfl rfl (fun _ _ => hashValues_eq_onCell ..) rfl rfl
  | hashSize key => exact reading rfl rfl (fun _ _ => hashSize_eq_onCell ..) rfl rfl

namespace Works

variable {op : Operation α} {kind : Kind} {key : Bytes} {act : Cell → Except StoreError α × Cell}

theorem within_vacant (h : op.Works kind key act) : (act .vacant).2.Within kind :=
  h.confined.within .vacant (Cell.within_vacant kind)

-- An operation that does not write leaves a vacant cell vacant.
theorem eq_vacant (h : op.Works kind key act) (hwrites : op.writes = false) :
    (act .vacant).2 = .vacant :=
  h.within_vacant.eq_vacant (h.holds.trans hwrites) h.deadline

end Works

end Operation

end Store

end KeyValue
