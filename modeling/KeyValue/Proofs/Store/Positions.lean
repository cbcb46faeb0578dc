import KeyValue.Proofs.Store.LiveList

namespace KeyValue.Store

-- An index denotes a position if it is its number counted from the head, or the negated number of
-- positions from it to the end.
def Denotes (index : Int64) (length position : Nat) : Prop :=
  position < length ∧ (index.toInt = position ∨ index.toInt = position - length)

instance (index : Int64) (length position : Nat) : Decidable (Denotes index length position) :=
  inferInstanceAs (Decidable (_ ∧ _))

theorem position?_eq_some_iff {index : Int64} {length position : Nat} :
    position? index length = some position ↔ Denotes index length position := by
  simp only [position?, fromHead, Denotes]
  split <;> split <;> simp only [Option.some.injEq, reduceCtorEq, false_iff] <;> omega

theorem position?_eq_none_iff {index : Int64} {length : Nat} :
    position? index length = none ↔ ∀ position, ¬Denotes index length position := by
  simp only [← position?_eq_some_iff, Option.eq_none_iff_forall_ne_some, ne_eq]

theorem position?_zero (index : Int64) : position? index 0 = none :=
  position?_eq_none_iff.mpr fun position h => Nat.not_lt_zero position h.1

-- The number of a position, computed with 64-bit integers, whose addition wraps around.
def wrappedFromHead (index : Int64) (length : Nat) : Int64 :=
  if index < 0 then Int64.ofNat length + index else index

-- It does not come to that if the length is a 64-bit integer itself.
theorem toInt_wrappedFromHead {length : Nat} (h : length ≤ Int64.maxValue.toInt) (index : Int64) :
    (wrappedFromHead index length).toInt = fromHead index length := by
  have hmax : Int64.maxValue.toInt = 9223372036854775807 := by decide
  have hlength : (Int64.ofNat length).toInt = length := Int64.toInt_ofNat_of_lt (by omega)
  have hleast := index.le_toInt
  simp only [wrappedFromHead, fromHead, Int64.lt_iff_toInt_lt, Int64.toInt_zero]
  split
  · rw [Int64.toInt_add, hlength, Int.bmod_eq_of_le]
    all_goals omega
  · rfl

variable {store : Store} {now : Nat} {key : Bytes}

theorem listIndex_of_list (h : (store.kind? now key).1 = some .list) (index : Int64) :
    (store.listIndex now key index).1 =
      .ok ((position? index (store.keyspace.listAt key).length).bind
        ((store.keyspace.listAt key)[·]?)) := by
  rw [listIndex_eq_onCell]
  exact read_of_list h _

theorem listLength_of_list (h : (store.kind? now key).1 = some .list) :
    (store.listLength now key).1 = .ok (store.keyspace.listAt key).length := by
  rw [listLength_eq_onCell]
  exact read_of_list h _

-- The store with other items under a key.
def withList (key : Bytes) (items : List Bytes) (store : Store) : Store :=
  { store with keyspace := store.keyspace.setList key items }

theorem listSet_of_list (h : (store.kind? now key).1 = some .list) (index : Int64)
    (value : Bytes) :
    store.listSet now key index value =
      match position? index (store.keyspace.listAt key).length with
      | none => (.error .indexOutOfRange, store)
      | some position =>
          (.ok (), store.withList key ((store.keyspace.listAt key).set position value)) := by
  rw [listSet_eq_onCell, onCell_of_list h]
  simp only [Cell.listSet, list_of_kind? h]
  cases position? index (store.keyspace.listAt key).length with
  | none => rw [Keyspace.put_cell]
  | some position => exact Prod.ext rfl (congrArg (Store.mk · store.evicted)
      (Keyspace.setList_eq_put ..).symm)

theorem kind?_withList (h : (store.kind? now key).1 = some .list) (items : List Bytes) :
    ((store.withList key items).kind? now key).1 = some .list := by
  have hcell : (store.withList key items).keyspace.cell key =
      { store.keyspace.cell key with list := some items } := by
    simp [withList, Keyspace.setList_eq_put]
  have hdue : ({ store.keyspace.cell key with list := some items } : Cell).isDue now = false :=
    not_due_of_kind? h
  rw [kind?_eq_view, view, hcell, Cell.evict_of_not_due hdue]
  exact Cell.kind?_withList (kind?_cell_of_kind? h) items

@[simp] theorem listAt_withList (items : List Bytes) :
    (store.withList key items).keyspace.listAt key = items := by
  simp [withList, Keyspace.listAt, Keyspace.setList]

theorem listIndex_of_denotes (h : (store.kind? now key).1 = some .list) {index : Int64}
    {position : Nat} (hposition : Denotes index (store.keyspace.listAt key).length position) :
    (store.listIndex now key index).1 = .ok (store.keyspace.listAt key)[position]? := by
  rw [listIndex_of_list h, position?_eq_some_iff.mpr hposition]
  rfl

theorem listIndex_eq_nil_iff (h : (store.kind? now key).1 = some .list) {index : Int64} :
    (store.listIndex now key index).1 = .ok none ↔
      ∀ position, ¬Denotes index (store.keyspace.listAt key).length position := by
  rw [← position?_eq_none_iff, listIndex_of_list h, Except.ok.injEq]
  cases hposition : position? index (store.keyspace.listAt key).length with
  | none => simp
  | some position =>
      have hbound := (position?_eq_some_iff.mp hposition).1
      simpa using hbound

-- After a value has been put at a position it is found there, by either index, and whatever is
-- found elsewhere was there before.
theorem listIndex_listSet (h : (store.kind? now key).1 = some .list) {index : Int64}
    {position : Nat} (hposition : Denotes index (store.keyspace.listAt key).length position)
    (value : Bytes) (other : Int64) :
    ((store.listSet now key index value).2.listIndex now key other).1 =
      if Denotes other (store.keyspace.listAt key).length position then .ok (some value)
      else (store.listIndex now key other).1 := by
  rw [listSet_of_list h, position?_eq_some_iff.mpr hposition, listIndex_of_list (kind?_withList h _),
    listIndex_of_list h, listAt_withList, List.length_set]
  split
  · rename_i hsame
    rw [position?_eq_some_iff.mpr hsame, Option.bind_some, List.getElem?_set_self hposition.1]
  · rename_i hother
    cases hfound : position? other (store.keyspace.listAt key).length with
    | none => rfl
    | some found =>
        have hne : position ≠ found := by
          rintro rfl
          exact hother (position?_eq_some_iff.mp hfound)
        rw [Option.bind_some, Option.bind_some, List.getElem?_set_ne hne]

theorem listSet_of_nil (h : (store.kind? now key).1 = some .list) {index : Int64}
    (hnil : (store.listIndex now key index).1 = .ok none) (value : Bytes) :
    store.listSet now key index value = (.error .indexOutOfRange, store) := by
  have hposition := position?_eq_none_iff.mpr ((listIndex_eq_nil_iff h).mp hnil)
  rw [listSet_of_list h, hposition]

theorem listSet_of_denotes (h : (store.kind? now key).1 = some .list) {index : Int64}
    {position : Nat} (hposition : Denotes index (store.keyspace.listAt key).length position)
    (value : Bytes) :
    store.listSet now key index value =
      (.ok (), store.withList key ((store.keyspace.listAt key).set position value)) := by
  rw [listSet_of_list h, position?_eq_some_iff.mpr hposition]

theorem listSet_eq_ok_iff (h : (store.kind? now key).1 = some .list) (index : Int64)
    (value : Bytes) :
    (store.listSet now key index value).1 = .ok () ↔
      (store.listIndex now key index).1 ≠ .ok none := by
  constructor
  · intro hok hnil
    rw [listSet_of_nil h hnil] at hok
    cases hok
  · intro hsome
    rw [Ne, listIndex_eq_nil_iff h] at hsome
    obtain ⟨position, hposition⟩ := Classical.not_forall.mp hsome
    rw [listSet_of_denotes h (Classical.not_not.mp hposition)]

-- Whatever the store, in a live list an index reads the element at the position that it denotes, or
-- nothing if it denotes none, and 64-bit integers are enough to find the position. Where it reads
-- something it writes as well: then the value is read by just those indices that denote the same
-- position, and nothing else has changed for any other. Where it reads nothing, or where there is no
-- list, it does not write.
theorem positions_agree (store : Store) (now : Nat) (key : Bytes) :
    ((store.kind? now key).1 = some .list →
      let items := store.keyspace.listAt key
      (∀ index : Int64,
        (∀ position, Denotes index items.length position →
          (store.listIndex now key index).1 = .ok items[position]?) ∧
        ((∀ position, ¬Denotes index items.length position) →
          (store.listIndex now key index).1 = .ok none) ∧
        (items.length ≤ Int64.maxValue.toInt →
          (wrappedFromHead index items.length).toInt = fromHead index items.length)) ∧
      ∀ (index : Int64) (value : Bytes),
        ((store.listSet now key index value).1 = .ok () ↔
          (store.listIndex now key index).1 ≠ .ok none) ∧
        ((store.listIndex now key index).1 = .ok none →
          store.listSet now key index value = (.error .indexOutOfRange, store)) ∧
        ∀ position, Denotes index items.length position →
          let after := (store.listSet now key index value).2
          (∀ other : Int64, (after.listIndex now key other).1 =
            if Denotes other items.length position then .ok (some value)
            else (store.listIndex now key other).1) ∧
          (after.listLength now key).1 = (store.listLength now key).1 ∧
          after.keyspace.deadlines.get? key = store.keyspace.deadlines.get? key) ∧
    ((store.kind? now key).1 = none → ∀ (index : Int64) (value : Bytes),
      (store.listIndex now key index).1 = .ok none ∧
        (store.listSet now key index value).1 = .error .noSuchKey) := by
  refine ⟨fun h => ⟨fun index => ?reads, fun index value => ?writes⟩, fun h index value => ?absent⟩
  case reads =>
    exact ⟨fun position => listIndex_of_denotes h, (listIndex_eq_nil_iff h).mpr,
      fun hlength => toInt_wrappedFromHead hlength index⟩
  case writes =>
    refine ⟨listSet_eq_ok_iff h index value, fun hnil => listSet_of_nil h hnil value,
      fun position hposition => ⟨listIndex_listSet h hposition value, ?_⟩⟩
    rw [listSet_of_denotes h hposition, listLength_of_list (kind?_withList h _),
      listLength_of_list h, listAt_withList, List.length_set]
    exact ⟨rfl, rfl⟩
  case absent =>
    have hread : (store.listIndex now key index).1 = .ok ((position? index 0).bind ([][·]?)) := by
      rw [listIndex_eq_onCell, read_of_absent h]
      rfl
    refine ⟨?_, ?_⟩
    · rw [hread, position?_zero, Option.bind_none]
    · rw [listSet_eq_onCell, fst_onCell_of_absent h]
      rfl

def deckStore : Store :=
  ⟨⟨⟨.empty, ByteMap.empty.insert [108] [[97], [98], [99]], .empty⟩,
    ByteMap.empty.insert [108] 9⟩, 0⟩

-- The first index that denotes a position, the one before it, and the least of all.
theorem deckStore_positions_agree :
    (deckStore.kind? 5 [108]).1 = some .list ∧ Denotes (-3) 3 0 ∧
    (deckStore.listIndex 5 [108] (-3)).1 = .ok (some [97]) ∧
    (deckStore.listIndex 5 [108] Int64.minValue).1 = .ok none ∧
    (wrappedFromHead Int64.minValue 3).toInt = fromHead Int64.minValue 3 ∧
    deckStore.listSet 5 [108] (-4) [122] = (.error .indexOutOfRange, deckStore) ∧
    ((deckStore.listSet 5 [108] (-3) [122]).2.listIndex 5 [108] 0).1 = .ok (some [122]) ∧
    (deckStore.kind? 5 [120]).1 = none ∧
    (deckStore.listSet 5 [120] 0 [122]).1 = .error .noSuchKey := by
  have hkind : (deckStore.kind? 5 [108]).1 = some .list := by decide +kernel
  have habsent : (deckStore.kind? 5 [120]).1 = none := by decide +kernel
  have hfirst : Denotes (-3) 3 0 := by decide
  have hnil : (deckStore.listIndex 5 [108] (-4)).1 = .ok none := rfl
  obtain ⟨hreads, hwrites⟩ := (positions_agree deckStore 5 [108]).1 hkind
  obtain ⟨-, hleast, hwrapped⟩ := hreads Int64.minValue
  refine ⟨hkind, hfirst, (hreads (-3)).1 0 hfirst, hleast ?_, hwrapped (by decide +kernel),
    (hwrites (-4) [122]).2.1 hnil, ?_, habsent,
    ((positions_agree deckStore 5 [120]).2 habsent 0 [122]).2⟩
  · exact position?_eq_none_iff.mp (by decide +kernel)
  · exact (((hwrites (-3) [122]).2.2 0 hfirst).1 0).trans (if_pos (by decide +kernel))

end KeyValue.Store
