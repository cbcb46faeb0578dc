import KeyValue.Proofs.Store.Alike
import KeyValue.Proofs.Store.Deadlines
import KeyValue.Proofs.Store.Nonempty

namespace KeyValue

namespace Cell

theorem rename_of_absent {old : Cell} (h : old.kind? = none) (new : Cell) :
    Cell.rename old new = (.error .noSuchKey, old, new) := by
  simp only [Cell.rename, h]

-- A value is alone in its cell, so the whole cell goes with it. What the other cell held has no
-- part in it.
theorem WellFormed.rename_eq {old : Cell} (h : old.WellFormed) (hkind : old.kind? ≠ none)
    (new : Cell) : Cell.rename old new = (.ok (), vacant, old) := by
  obtain ⟨slots, deadline⟩ := old
  cases h.slots with
  | vacant => exact absurd rfl hkind
  | string value => rfl
  | list items hitems => rfl
  | hash fields hfields => rfl

end Cell

namespace Store

variable {store : Store} {now : Nat} {old new key : Bytes}

theorem view_of_not_isLive (hstore : store.keyspace.WellFormed)
    (h : store.isLive now key = false) : store.view now key = .vacant :=
  (view_wellFormed hstore now key).eq_vacant (isLive_eq_false_iff.mp h)

theorem rename_of_not_isLive (h : store.isLive now old = false) (new : Bytes) :
    (store.rename now old new).1 = .error .noSuchKey ∧
      Alike now (store.rename now old new).2 store := by
  have hkind := isLive_eq_false_iff.mp h
  have hfails : (store.rename now old new).1 = .error .noSuchKey := by
    by_cases hne : old = new
    · subst hne
      rw [rename_self_eq_onCell, fst_onCell, hkind]
      rfl
    · rw [rename_eq_onCells hne, fst_onCells, Cell.rename_of_absent hkind]
  have hcall : ¬(Call.operation (.rename old new)).Succeeds now store := by
    rintro ⟨value, hok⟩
    cases hfails.symm.trans hok
  refine ⟨hfails, alike_iff_cell.mpr fun key => ?_⟩
  have hview : ((Call.operation (.rename old new)).perform now store).view now key =
      store.view now key := view_of_failure hcall
  exact hview

theorem rename_self_of_isLive (h : store.isLive now key = true) :
    store.rename now key key = (.ok (), store) := by
  obtain ⟨hkind, hdue⟩ := isLive_iff_cell.mp h
  have hvalue := Option.isSome_iff_ne_none.mpr hkind
  simp only [rename_self_eq_onCell, onCell, hdue, Cell.evict_of_not_due hdue, hvalue,
    Keyspace.put_cell, if_true]
  rfl

-- The whole cell changes its place.
theorem rename_of_isLive (hstore : store.keyspace.WellFormed) (h : store.isLive now old = true)
    (hne : old ≠ new) :
    store.rename now old new = (.ok (), {
      keyspace := (store.keyspace.put old .vacant).put new (store.keyspace.cell old)
      evicted := store.evicted + if (store.keyspace.cell new).isDue now then 1 else 0 }) := by
  obtain ⟨hkind, hdue⟩ := isLive_iff_cell.mp h
  have hcell := Keyspace.wellFormed_iff_cell.mp hstore old
  simp only [rename_eq_onCells hne, onCells, hdue, Cell.evict_of_not_due hdue, hcell.rename_eq hkind]
  rfl

theorem cell_rename (hstore : store.keyspace.WellFormed) (h : store.isLive now old = true)
    (hne : old ≠ new) (key : Bytes) :
    (store.rename now old new).2.keyspace.cell key =
      if key = new then store.keyspace.cell old
      else if key = old then .vacant
      else store.keyspace.cell key := by
  rw [rename_of_isLive hstore h hne, Keyspace.cell_put_apply, Keyspace.cell_put_apply]

theorem fst_rename_eq_ok_iff (hstore : store.keyspace.WellFormed) :
    (store.rename now old new).1 = .ok () ↔ store.isLive now old = true := by
  cases h : store.isLive now old with
  | false =>
      rw [(rename_of_not_isLive h new).1]
      simp
  | true =>
      by_cases hne : old = new
      · subst hne
        simp only [rename_self_of_isLive h]
      · simp only [rename_of_isLive hstore h hne]

theorem wellFormed_rename (hstore : store.keyspace.WellFormed) (now : Nat) (old new : Bytes) :
    (store.rename now old new).2.keyspace.WellFormed := by
  have hcareful : ¬(Call.operation (.rename old new)).MakesEmptyList now store := id
  exact perform_operation_wellFormed hstore hcareful

-- If the new key was free then the value can come back.
theorem rename_rename (hstore : store.keyspace.WellFormed) (hfree : store.isLive now new = false) :
    let after := store.rename now old new
    (after.2.rename now new old).1 = after.1 ∧ Alike now (after.2.rename now new old).2 store := by
  intro after
  cases h : store.isLive now old with
  | false =>
      obtain ⟨hfails, halike⟩ := rename_of_not_isLive h new
      have hstill : after.2.isLive now new = false := by
        rw [isLive_eq_false_iff, view, alike_iff_cell.mp halike new]
        exact isLive_eq_false_iff.mp hfree
      obtain ⟨hback, hsame⟩ := rename_of_not_isLive hstill old
      exact ⟨hback.trans hfails.symm, hsame.trans halike⟩
  | true =>
      have hne : old ≠ new := by
        rintro rfl
        cases h.symm.trans hfree
      have hcell := cell_rename hstore h hne
      have hmoved : after.2.isLive now new = true := by
        rw [isLive_iff_cell, hcell, if_pos rfl]
        exact isLive_iff_cell.mp h
      have hafter := wellFormed_rename hstore now old new
      have hback := cell_rename hafter hmoved hne.symm
      refine ⟨?_, alike_iff_cell.mpr fun key => ?_⟩
      · exact ((fst_rename_eq_ok_iff hafter).mpr hmoved).trans
          ((fst_rename_eq_ok_iff hstore).mpr h).symm
      · rw [hback key, hcell new, hcell key, if_pos rfl]
        split
        · rename_i hold
          rw [hold]
        · rename_i hold
          split
          · rename_i hnew
            rw [hnew]
            exact (view_of_not_isLive hstore hfree).symm
          · rfl

-- A rename succeeds if there is something to move, and moves all of it: the value, whatever its
-- kind, and the deadline, if there is one. It leaves nothing under the old key, and nothing of
-- what was under the new one. A key that takes its own name, a rename that fails, and a rename
-- to a free key and back change nothing that is live.
theorem rename_moves_cell {start : Nat} (h : Reachable start store) (now : Nat)
    (old new : Bytes) :
    let renamed := store.rename now old new
    let after := renamed.2
    (renamed.1 = .ok () ↔ store.isLive now old = true) ∧
    (store.isLive now old = false → renamed.1 = .error .noSuchKey ∧ Alike now after store) ∧
    (old = new → Alike now after store) ∧
    (store.isLive now old = true → old ≠ new →
      after.keyspace.cell new = store.keyspace.cell old ∧
      after.keyspace.cell old = .vacant ∧
      ∀ key, key ≠ old → key ≠ new → after.keyspace.cell key = store.keyspace.cell key) ∧
    (store.isLive now new = false →
      (after.rename now new old).1 = renamed.1 ∧ Alike now (after.rename now new old).2 store) := by
  have hstore := h.wellFormed
  intro renamed after
  refine ⟨fst_rename_eq_ok_iff hstore, fun hgone => rename_of_not_isLive hgone new, ?_,
    fun hlive hne => ?_, rename_rename hstore⟩
  · rintro rfl
    cases hlive : store.isLive now old with
    | false => exact (rename_of_not_isLive hlive old).2
    | true =>
        have hsame : after = store := congrArg Prod.snd (rename_self_of_isLive hlive)
        rw [hsame]
        exact .refl now store
  · have hcell := cell_rename hstore hlive hne
    refine ⟨?_, ?_, fun key hold hnew => ?_⟩
    · rw [hcell, if_pos rfl]
    · rw [hcell, if_neg hne, if_pos rfl]
    · rw [hcell, if_neg hnew, if_neg hold]

-- The list with a deadline gets a string beside it. It takes the string's place, or that of
-- nothing and then its own again.
def shelfStore : Store :=
  (Event.request [Bytes.ofText "SET", [115], [120]]).perform 8 queueRun

theorem shelfStore_rename_moves_cell :
    Reachable 8 shelfStore ∧
    shelfStore.isLive 9 [113] = true ∧ shelfStore.isLive 9 [115] = true ∧
    (shelfStore.rename 9 [113] [115]).1 = .ok () ∧
    (shelfStore.rename 9 [113] [115]).2.keyspace.cell [115] = shelfStore.keyspace.cell [113] ∧
    (shelfStore.rename 9 [113] [115]).2.keyspace.cell [113] = .vacant ∧
    (shelfStore.keyspace.cell [113]).deadline ≠ none ∧
    Alike 9 (shelfStore.rename 9 [115] [115]).2 shelfStore ∧
    shelfStore.isLive 9 [110] = false ∧
    (shelfStore.rename 9 [110] [115]).1 = .error .noSuchKey ∧
    Alike 9 ((shelfStore.rename 9 [113] [110]).2.rename 9 [110] [113]).2 shelfStore := by
  have hreach : Reachable 8 shelfStore := reachable_queueRun.step (show 7 ≤ 8 by decide) _
  have hlive : shelfStore.isLive 9 [113] = true := by decide +kernel
  have hfree : shelfStore.isLive 9 [110] = false := by decide +kernel
  obtain ⟨hiff, -, -, hmoves, -⟩ := rename_moves_cell hreach 9 [113] [115]
  obtain ⟨hplace, hleft, -⟩ := hmoves hlive (by decide)
  exact ⟨hreach, hlive, by decide +kernel, hiff.mpr hlive, hplace, hleft, by decide +kernel,
    (rename_moves_cell hreach 9 [115] [115]).2.2.1 rfl, hfree,
    ((rename_moves_cell hreach 9 [110] [115]).2.1 hfree).1,
    ((rename_moves_cell hreach 9 [113] [110]).2.2.2.2 hfree).2⟩

end Store

end KeyValue
