import KeyValue.Proofs.Store.LiveList

namespace KeyValue.Store

-- So many elements equal to the value have gone, those that were nearest to the side. All other
-- elements are still there, in their order.
def Loses (side : Side) (value : Bytes) (number : Nat) (items rest : List Bytes) : Prop :=
  ∃ front back, items = front ++ back ∧
    match side with
    | .head => front.count value = number ∧ rest = front.filter (· ≠ value) ++ back
    | .tail => back.count value = number ∧ rest = front ++ back.filter (· ≠ value)

-- As many of a number as a limit admits.
def atMost (limit : Option Nat) (number : Nat) : Nat := limit.elim number (min number)

theorem Loses.reverse {value : Bytes} {number : Nat} {items rest : List Bytes}
    (h : Loses .tail value number items rest) :
    Loses .head value number items.reverse rest.reverse := by
  obtain ⟨front, back, rfl, hcount, rfl⟩ := h
  refine ⟨back.reverse, front.reverse, List.reverse_append, ?_, ?_⟩
  · rw [List.count_reverse, hcount]
  · rw [List.reverse_append, List.filter_reverse]

-- Where all that equal the value go, it does not matter from which side one counts them.
theorem Loses.eq_filter {value : Bytes} {items rest : List Bytes}
    (h : Loses .tail value (items.count value) items rest) : rest = items.filter (· ≠ value) := by
  obtain ⟨front, back, rfl, hcount, rfl⟩ := h
  have hfront : front.count value = 0 := by
    rw [List.count_append] at hcount
    omega
  have hkept : front.filter (· ≠ value) = front := by
    refine List.filter_eq_self.mpr fun item hitem => decide_eq_true fun heq => ?_
    exact List.count_eq_zero.mp hfront (heq ▸ hitem)
  rw [List.filter_append, hkept]

theorem retain_cons (mark : Bool) (marks : List Bool) (item : Bytes) (items : List Bytes) :
    retain (mark :: marks) (item :: items) =
      if mark then retain marks items else item :: retain marks items := by
  cases mark <;> rfl

theorem retain_reverse {marks : List Bool} {items : List Bytes}
    (h : marks.length = items.length) :
    retain marks.reverse items.reverse = (retain marks items).reverse := by
  have hzip : items.reverse.zip marks.reverse = (items.zip marks).reverse := by
    rw [List.zip_eq_zipWith, List.zip_eq_zipWith, List.reverse_zipWith h.symm]
  rw [retain, hzip, List.filter_reverse, List.map_reverse, retain]

namespace Scan

variable {value : Bytes} {limit : Option Nat} {items : List Bytes} {scan : Scan}

-- What is true of a scan that has come to these elements, the last of them first.
structure Sound (value : Bytes) (limit : Option Nat) (items : List Bytes) (scan : Scan) :
    Prop where
  length : scan.marks.length = items.length
  marked : scan.marked = atMost limit (items.count value)
  loses : Loses .tail value scan.marked items (retain scan.marks items)

theorem sound_start : Sound value limit [] ⟨[], 0⟩ where
  length := rfl
  marked := by cases limit <;> simp [atMost]
  loses := ⟨[], [], rfl, rfl, rfl⟩

-- As long as the limit is not reached every element that equals the value has been marked.
theorem Sound.marked_of_below (h : scan.Sound value limit items)
    (hbelow : limit.all fun limit => scan.marked < limit) : scan.marked = items.count value := by
  have hmarked := h.marked
  cases limit with
  | none => exact hmarked
  | some limit =>
      simp only [atMost, Option.elim_some] at hmarked
      simp only [Option.all_some, decide_eq_true_eq] at hbelow
      omega

theorem Sound.visit_marked (h : scan.Sound value limit items)
    (hbelow : limit.all fun limit => scan.marked < limit) :
    Sound value limit (value :: items) ⟨true :: scan.marks, scan.marked + 1⟩ where
  length := congrArg Nat.succ h.length
  marked := by
    rw [List.count_cons_self, h.marked_of_below hbelow]
    have hmarked := h.marked_of_below hbelow
    cases limit with
    | none => rfl
    | some limit =>
        simp only [Option.all_some, decide_eq_true_eq] at hbelow
        simp only [atMost, Option.elim_some]
        omega
  loses := by
    have hall := h.marked_of_below hbelow
    have hrest := Loses.eq_filter (hall ▸ h.loses)
    refine ⟨[], value :: items, rfl, ?_, ?_⟩
    · rw [List.count_cons_self, hall]
    · rw [retain_cons, if_pos rfl, hrest]
      simp

theorem Sound.visit_kept (h : scan.Sound value limit items) {item : Bytes}
    (hkeep : ¬(item = value ∧ limit.all fun limit => scan.marked < limit)) :
    Sound value limit (item :: items) ⟨false :: scan.marks, scan.marked⟩ where
  length := congrArg Nat.succ h.length
  marked := by
    by_cases hitem : item = value
    · -- The limit is reached, so one more element makes no difference.
      have hfull := mt (And.intro hitem) hkeep
      have hmarked := h.marked
      rw [hitem, List.count_cons_self]
      cases limit with
      | none => exact absurd rfl hfull
      | some limit =>
          simp only [Option.all_some, decide_eq_true_eq] at hfull
          simp only [atMost, Option.elim_some] at hmarked ⊢
          omega
    · rw [List.count_cons_of_ne hitem, h.marked]
  loses := by
    obtain ⟨front, back, hitems, hcount, hrest⟩ := h.loses
    refine ⟨item :: front, back, congrArg (item :: ·) hitems, hcount, ?_⟩
    exact congrArg (item :: ·) hrest

theorem Sound.visit (h : scan.Sound value limit items) (item : Bytes) :
    (scan.visit value limit item).Sound value limit (item :: items) := by
  unfold Scan.visit
  split
  · rename_i hgoes
    obtain ⟨rfl, hbelow⟩ := hgoes
    exact h.visit_marked hbelow
  · exact h.visit_kept ‹_›

theorem sound_scan (value : Bytes) (limit : Option Nat) (items : List Bytes) :
    (Store.scan .tail value limit items).Sound value limit items := by
  induction items with
  | nil => exact sound_start
  | cons item rest ih => exact ih.visit item

end Scan

-- A scan from the head is one of the reversed list from its tail.
theorem scan_head_eq (value : Bytes) (limit : Option Nat) (items : List Bytes) :
    scan .head value limit items =
      ⟨(scan .tail value limit items.reverse).marks.reverse,
        (scan .tail value limit items.reverse).marked⟩ := by
  simp only [scan, List.foldl_eq_foldr_reverse]

theorem scan_loses (side : Side) (value : Bytes) (limit : Option Nat) (items : List Bytes) :
    (scan side value limit items).marked = atMost limit (items.count value) ∧
      Loses side value (scan side value limit items).marked items
        (retain (scan side value limit items).marks items) := by
  cases side with
  | tail =>
      have hsound := Scan.sound_scan value limit items
      exact ⟨hsound.marked, hsound.loses⟩
  | head =>
      have hsound := Scan.sound_scan value limit items.reverse
      have hretain := retain_reverse hsound.length
      have hloses := hsound.loses.reverse
      rw [List.reverse_reverse] at hretain hloses
      rw [scan_head_eq]
      refine ⟨?_, ?_⟩
      · exact hsound.marked.trans (by rw [List.count_reverse])
      · rw [← hretain] at hloses
        exact hloses

theorem removeMatches_loses (count : Int64) (value : Bytes) (items : List Bytes) :
    (removeMatches count value items).1 =
        (if count.toInt = 0 then items.count value
          else min (items.count value) count.toInt.natAbs) ∧
      Loses (if count.toInt < 0 then .tail else .head) value (removeMatches count value items).1
        items (removeMatches count value items).2 := by
  obtain ⟨hmarked, hloses⟩ := scan_loses (if count.toInt < 0 then .tail else .head) value
    (if count.toInt = 0 then none else some count.toInt.natAbs) items
  refine ⟨hmarked.trans ?_, hloses⟩
  split <;> rfl

theorem toInt_neg_of_pos {count : Int64} (h : 0 < count.toInt) : (-count).toInt = -count.toInt := by
  have hlt := count.toInt_lt
  rw [Int64.toInt_neg, Int.bmod_eq_of_le]
  all_goals omega

theorem removeMatches_neg {count : Int64} (h : 0 < count.toInt) (value : Bytes)
    (items : List Bytes) :
    (removeMatches (-count) value items).2 =
      (removeMatches count value items.reverse).2.reverse := by
  have hsound := Scan.sound_scan value (some count.toInt.natAbs) items
  have hneg := toInt_neg_of_pos h
  have htail : (removeMatches (-count) value items).2 =
      retain (scan .tail value (some count.toInt.natAbs) items).marks items := by
    simp only [removeMatches, hneg, Int.natAbs_neg]
    rw [if_pos (by omega), if_neg (by omega)]
  have hhead : (removeMatches count value items.reverse).2 =
      retain (scan .tail value (some count.toInt.natAbs) items).marks.reverse items.reverse := by
    simp only [removeMatches]
    rw [if_neg (by omega), if_neg (by omega), scan_head_eq, List.reverse_reverse]
  rw [htail, hhead, retain_reverse hsound.length, List.reverse_reverse]

variable {store : Store} {now : Nat} {key : Bytes}

theorem listRemove_of_list (h : (store.kind? now key).1 = some .list) (count : Int64)
    (value : Bytes) :
    (store.listRemove now key count value).1 =
        .ok (removeMatches count value (store.keyspace.listAt key)).1 ∧
      (store.listRemove now key count value).2.keyspace.cell key =
        (store.keyspace.cell key).keepList
          (removeMatches count value (store.keyspace.listAt key)).2 := by
  rw [listRemove_eq_onCell, onCell_of_list h]
  simp only [Cell.listRemove, list_of_kind? h, Keyspace.cell_put_self]
  exact ⟨trivial, trivial⟩

-- What is left of the list of a key after a removal.
theorem listAt_listRemove (h : (store.kind? now key).1 = some .list) (count : Int64)
    (value : Bytes) :
    (store.listRemove now key count value).2.keyspace.listAt key =
      (removeMatches count value (store.keyspace.listAt key)).2 := by
  have hcell := (listRemove_of_list h count value).2
  exact (congrArg Cell.items hcell).trans (Cell.items_keepList _ _)

-- Whatever the store, a removal from a live list takes away as many elements that equal the value
-- as the count allows, all of them if it is zero, and takes those that are nearest to the head if
-- it is positive, to the tail if it is negative. The key goes with its deadline if nothing is left,
-- and keeps it otherwise. So from the tail of a list goes what goes from the head of the reversed
-- list.
theorem removal_exact (h : (store.kind? now key).1 = some .list) (count : Int64) (value : Bytes) :
    let items := store.keyspace.listAt key
    let removed :=
      if count.toInt = 0 then items.count value else min (items.count value) count.toInt.natAbs
    let after := (store.listRemove now key count value).2
    let rest := after.keyspace.listAt key
    (store.listRemove now key count value).1 = .ok removed ∧
    Loses (if count.toInt < 0 then .tail else .head) value removed items rest ∧
    after.keyspace.cell key =
      (if rest = [] then .vacant else { store.keyspace.cell key with list := some rest }) ∧
    ∀ (mirror : Store) (later : Nat) (other : Bytes),
      (mirror.kind? later other).1 = some .list →
      mirror.keyspace.listAt other = items.reverse → 0 < count.toInt →
      (store.listRemove now key (-count) value).2.keyspace.listAt key =
        ((mirror.listRemove later other count value).2.keyspace.listAt other).reverse := by
  intro items removed after rest
  obtain ⟨hanswer, hcell⟩ := listRemove_of_list h count value
  obtain ⟨hremoved, hloses⟩ := removeMatches_loses count value items
  have hrest : rest = (removeMatches count value items).2 := listAt_listRemove h count value
  refine ⟨hanswer.trans (congrArg Except.ok hremoved), ?_, ?_, ?_⟩
  · rwa [hremoved, ← hrest] at hloses
  · rw [hcell, hrest, Cell.keepList]
    simp only [List.isEmpty_iff, items]
  · intro mirror later other hkind hitems hpositive
    rw [listAt_listRemove h, listAt_listRemove hkind, hitems, removeMatches_neg hpositive]

-- The list reads the same from both sides, and is due at the ninth nanosecond.
def rollStore : Store :=
  ⟨⟨⟨.empty, ByteMap.empty.insert [108] [[97], [98], [97], [98], [97]], .empty⟩,
    ByteMap.empty.insert [108] 9⟩, 0⟩

theorem rollStore_removal :
    (rollStore.kind? 5 [108]).1 = some .list ∧
    rollStore.keyspace.listAt [108] = (rollStore.keyspace.listAt [108]).reverse ∧
    (rollStore.listRemove 5 [108] 2 [97]).1 = .ok 2 ∧
    Loses .head [97] 2 [[97], [98], [97], [98], [97]]
      ((rollStore.listRemove 5 [108] 2 [97]).2.keyspace.listAt [108]) ∧
    (rollStore.listRemove 5 [108] 2 [97]).2.keyspace.cell [108] =
      ⟨⟨none, some [[98], [98], [97]], none⟩, some 9⟩ ∧
    (rollStore.listRemove 5 [108] (-2) [97]).2.keyspace.listAt [108] = [[97], [98], [98]] ∧
    (rollStore.listRemove 5 [108] Int64.minValue [97]).1 = .ok 3 := by
  have hkind : (rollStore.kind? 5 [108]).1 = some .list := by decide +kernel
  have hmirror : rollStore.keyspace.listAt [108] = (rollStore.keyspace.listAt [108]).reverse := by
    decide +kernel
  obtain ⟨hanswer, hloses, hcell, htail⟩ := removal_exact hkind 2 [97]
  have hall := (removal_exact hkind Int64.minValue [97]).1
  refine ⟨hkind, hmirror, hanswer, hloses, hcell.trans (by decide +kernel), ?_, hall⟩
  exact (htail rollStore 5 [108] hkind hmirror (by decide)).trans (by decide +kernel)

end KeyValue.Store
