import KeyValue.Proofs.Store.LiveList
import KeyValue.Proofs.Store.Queue
import Mathlib.Data.List.Induction

namespace KeyValue

namespace Store.Side

variable (side : Side)

-- What comes out of a list that is popped so many times, and what remains of it.
def popAll : Nat → List Bytes → List (Option Bytes) × List Bytes
  | 0, items => ([], items)
  | count + 1, items =>
      let rest := popAll count (side.pop items).2
      ((side.pop items).1 :: rest.1, rest.2)

theorem pop_push_append (values : List Bytes) (last : Bytes) (items : List Bytes) :
    side.pop (side.push (values ++ [last]) items) = (some last, side.push values items) := by
  cases side with
  | head => simp [pop, push]
  | tail => simp [pop, push, ← List.append_assoc]

theorem pop_opposite_push_cons (first : Bytes) (values : List Bytes) :
    side.opposite.pop (side.push (first :: values) []) = (some first, side.push values []) := by
  cases side with
  | head => simp [opposite, pop, push]
  | tail => rfl

theorem popAll_push (values items : List Bytes) :
    side.popAll values.length (side.push values items) = (values.reverse.map some, items) := by
  -- what comes out first has gone in last
  induction values using List.reverseRecOn with
  | nil => cases side <;> simp [popAll, push]
  | append_singleton values last ih =>
      rw [List.length_append, List.length_singleton, popAll, pop_push_append, ih,
        List.reverse_append]
      rfl

theorem popAll_opposite_push (values : List Bytes) :
    side.opposite.popAll values.length (side.push values []) = (values.map some, []) := by
  induction values with
  | nil => cases side <;> rfl
  | cons first rest ih =>
      rw [List.length_cons, popAll, pop_opposite_push_cons, ih]
      rfl

end Store.Side

namespace Store

variable {store : Store} {side : Side} {now : Nat} {key : Bytes} {deadline : Option Nat}
  {items values : List Bytes} {times : List Nat}

-- Pops a list once at each of some instants.
def popEach (side : Side) (key : Bytes) :
    List Nat → Store → List (Except StoreError (Option Bytes)) × Store
  | [], store => ([], store)
  | now :: times, store =>
      let popped := store.pop side now key
      let rest := popEach side key times popped.2
      (popped.1 :: rest.1, rest.2)

theorem push_of_listing (hview : store.view now key = .listing deadline items)
    (hvalues : values ≠ []) (hdeadline : items = [] → deadline = none) :
    store.push side now key values =
      (.ok (items.length + values.length), { store.evict now key with
        keyspace := store.keyspace.put key (.listing deadline (side.push values items)) }) := by
  rw [view] at hview
  simp only [push_eq_onCell, onCell, hview, Cell.typed_listing,
    Cell.push_listing side hvalues hdeadline]
  rfl

theorem pop_of_listing (hcell : store.keyspace.cell key = .listing deadline items)
    (hnow : ∀ instant, deadline = some instant → now < instant) :
    store.pop side now key =
      (.ok (side.pop items).1, { store with
        keyspace := store.keyspace.put key (.listing deadline (side.pop items).2) }) := by
  have hdue := Cell.isDue_listing hnow items
  simp only [pop_eq_onCell, onCell, hcell, hdue, Cell.evict_of_not_due hdue, Cell.typed_listing,
    Cell.pop_listing]
  rfl

theorem popEach_of_listing (hcell : store.keyspace.cell key = .listing deadline items)
    (htimes : ∀ now ∈ times, ∀ instant, deadline = some instant → now < instant) :
    store.popEach side key times =
      ((side.popAll times.length items).1.map .ok, { store with
        keyspace := store.keyspace.put key
          (.listing deadline (side.popAll times.length items).2) }) := by
  -- every pop finds a list with this deadline, or nothing, and leaves the same
  induction times generalizing store items with
  | nil =>
      rw [List.length_nil, Side.popAll, ← hcell, Keyspace.put_cell]
      rfl
  | cons now times ih =>
      obtain ⟨hnow, hlater⟩ := List.forall_mem_cons.mp htimes
      rw [popEach, pop_of_listing hcell hnow, ih (Keyspace.cell_put_self ..) hlater]
      simp only [Keyspace.put_put, List.length_cons, Side.popAll, List.map_cons]

theorem evict_eq_put (now : Nat) (key : Bytes) (store : Store) :
    store.evict now key =
      { store.evict now key with keyspace := store.keyspace.put key (store.view now key) } := by
  rw [view, ← Keyspace.evict_eq_put]
  rfl

-- If the pops leave what was there before the push then they undo it.
theorem popEach_push {other : Side} {popped : List Bytes}
    (hview : store.view now key = .listing deadline items) (hvalues : values ≠ [])
    (hdeadline : items = [] → deadline = none) (hlength : times.length = values.length)
    (htimes : ∀ now ∈ times, ∀ instant, deadline = some instant → now < instant)
    (hpops : other.popAll values.length (side.push values items) = (popped.map some, items)) :
    (store.push side now key values).2.popEach other key times =
      (popped.map fun value => .ok (some value), store.evict now key) := by
  rw [push_of_listing hview hvalues hdeadline,
    popEach_of_listing (Keyspace.cell_put_self ..) htimes, hlength, hpops,
    evict_eq_put, hview, Keyspace.put_put, List.map_map]
  rfl

theorem evict_alike (now : Nat) (key : Bytes) (store : Store) :
    Alike now (store.evict now key) store := by
  refine alike_iff_cell.mpr fun other => ?_
  rw [evict, Keyspace.evict_eq_put, Keyspace.cell_put_apply]
  split
  · rename_i hkey
    rw [hkey, Cell.evict_evict _ (Nat.le_refl now)]
  · rfl

-- What is pushed onto a list, or makes one, comes back with as many pops on the same side, the
-- last of it first, if the list does not expire meanwhile. Then everything is as before: the list
-- is there again with its deadline, or nothing is. If nothing was there then pops on the other
-- side empty the list as well, and give the values in the order in which they were pushed.
theorem pops_undo_push {start : Nat} (hreach : Reachable start store) (side : Side)
    (hkind : (store.kind? now key).1 = none ∨ (store.kind? now key).1 = some .list)
    (hvalues : values ≠ []) (hlength : times.length = values.length)
    (htimes : ∀ deadline, store.deadlineOf now key = some deadline →
      ∀ later ∈ times, later < deadline) :
    let pushed := store.push side now key values
    let undone := pushed.2.popEach side key times
    let passed := pushed.2.popEach side.opposite key times
    (∃ length, (store.listLength now key).1 = .ok length ∧
      pushed.1 = .ok (length + values.length)) ∧
    undone.1 = values.reverse.map (fun value => .ok (some value)) ∧
    Alike now undone.2 store ∧
    ((store.kind? now key).1 = some .list → undone.2 = store) ∧
    ((store.kind? now key).1 = none →
      undone.2.keyspace.cell key = .vacant ∧
      passed.1 = values.map (fun value => .ok (some value)) ∧ passed.2 = undone.2) := by
  intro pushed undone passed
  have hcell := Keyspace.wellFormed_iff_cell.mp hreach.wellFormed key
  have hfound := view_wellFormed hreach.wellFormed now key
  rw [deadlineOf_eq_view hcell.deadline] at htimes
  have hview : store.view now key =
      .listing (store.view now key).deadline (store.view now key).items := by
    refine hfound.eq_listing ?_
    rwa [kind?_eq_view] at hkind
  have hdeadline (hnil : (store.view now key).items = []) :
      (store.view now key).deadline = none := by
    rw [hnil] at hview
    exact congrArg Cell.deadline hview
  have hpushed : pushed = _ := push_of_listing hview hvalues hdeadline
  have hundone : undone = _ := popEach_push hview hvalues hdeadline hlength
    (fun later hmem instant hinstant => htimes instant hinstant later hmem)
    (side.popAll_push values _)
  refine ⟨⟨_, ?_, congrArg Prod.fst hpushed⟩, congrArg Prod.fst hundone, ?_, fun hlist => ?_,
    fun habsent => ?_⟩
  · rw [listLength_eq_onCell, fst_onCell, hview, Cell.typedRead, Cell.typed_listing,
      Cell.items_listing]
  · rw [hundone]
    exact evict_alike now key store
  · rw [hundone]
    exact evict_of_kind? hlist
  · have hvacant : store.view now key = .listing none [] := by
      rw [kind?_eq_view] at habsent
      exact hfound.eq_vacant habsent
    have hpassed : passed = _ := popEach_push hvacant hvalues (fun _ => rfl) hlength
      (by rintro _ _ _ ⟨⟩) (side.popAll_opposite_push values)
    rw [hpassed, hundone]
    refine ⟨?_, rfl, rfl⟩
    rw [evict_eq_put, Keyspace.cell_put_self, hvacant]
    rfl

-- Two values go onto the head of the list with a deadline, and two more make another list.
theorem queueRun_pops_undo_push :
    Reachable 7 queueRun ∧ (queueRun.kind? 8 [113]).1 = some .list ∧
    (queueRun.kind? 8 [110]).1 = none ∧
    (∃ deadline, queueRun.deadlineOf 8 [113] = some deadline) ∧
    ((queueRun.push .head 8 [113] [[99], [100]]).2.popEach .head [113] [8, 9]).1 =
      [.ok (some [100]), .ok (some [99])] ∧
    ((queueRun.push .head 8 [113] [[99], [100]]).2.popEach .head [113] [8, 9]).2 = queueRun ∧
    ((queueRun.push .head 8 [110] [[99], [100]]).2.popEach .tail [110] [8, 9]).1 =
      [.ok (some [99]), .ok (some [100])] ∧
    Alike 8 ((queueRun.push .head 8 [110] [[99], [100]]).2.popEach .tail [110] [8, 9]).2
      queueRun := by
  have hlist : (queueRun.kind? 8 [113]).1 = some .list := by decide +kernel
  have habsent : (queueRun.kind? 8 [110]).1 = none := by decide +kernel
  have hdeadline : queueRun.deadlineOf 8 [113] = some (5 + Clock.seconds 10) := by decide +kernel
  have hundated : queueRun.deadlineOf 8 [110] = none := by decide +kernel
  have hvalues : ([[99], [100]] : List Bytes) ≠ [] := by decide
  have hlength : [8, 9].length = ([[99], [100]] : List Bytes).length := rfl
  have hintime (deadline) (h : queueRun.deadlineOf 8 [113] = some deadline) :
      ∀ later ∈ [8, 9], later < deadline := by
    cases hdeadline.symm.trans h
    decide
  have hnever (deadline) (h : queueRun.deadlineOf 8 [110] = some deadline) :
      ∀ later ∈ [8, 9], later < deadline := by
    cases hundated.symm.trans h
  obtain ⟨-, hback, -, hthere, -⟩ :=
    pops_undo_push reachable_queueRun .head (.inr hlist) hvalues hlength hintime
  obtain ⟨-, -, halike, -, hgone⟩ :=
    pops_undo_push reachable_queueRun .head (.inl habsent) hvalues hlength hnever
  obtain ⟨-, hpassed, hsame⟩ := hgone habsent
  exact ⟨reachable_queueRun, hlist, habsent, ⟨_, hdeadline⟩, hback, hthere hlist, hpassed,
    hsame ▸ halike⟩

end Store

end KeyValue
