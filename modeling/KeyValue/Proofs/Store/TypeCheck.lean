import KeyValue.Proofs.Store.Attainable

namespace KeyValue.Store

variable {α : Type} {store : Store} {now : Nat} {key : Bytes} {kind : Kind} {op : Operation α}

theorem Operation.exists_works (hkind : op.kind? = some kind) (hkey : op.named = [key]) :
    ∃ act, op.Works kind key act := by
  rcases op.works_cases with hany | ⟨other, place, act, hworks⟩
  · cases hany.symm.trans hkind
  · have hsame : other = kind := Option.some.inj (hworks.typed.symm.trans hkind)
    have hplace : place = key := List.singleton_inj.mp (hworks.named.symm.trans hkey)
    subst hsame hplace
    exact ⟨act, hworks⟩

theorem holds_eq_cell (kind : Kind) (key : Bytes) (store : Store) :
    store.keyspace.data.holds kind key = (store.keyspace.cell key).holds kind :=
  Namespaces.holds_eq_slots ..

-- An operation finds a value if the key is live, and it is the value that the key holds.
theorem kind?_view_eq_some_iff (h : (store.keyspace.cell key).Exclusive) (kind : Kind) :
    (store.view now key).kind? = some kind ↔
      store.isLive now key = true ∧ store.keyspace.data.holds kind key = true := by
  rw [holds_eq_cell, h.holds_iff]
  cases hlive : store.isLive now key with
  | false =>
      rw [isLive_eq_false_iff.mp hlive]
      simp
  | true =>
      rw [view, Cell.evict_of_not_due (isLive_iff_cell.mp hlive).2]
      simp

theorem Attainable.view_eq_vacant (h : store.Attainable) (hgone : store.isLive now key = false) :
    store.view now key = .vacant :=
  ((h.consistent key).evict now).eq_vacant (isLive_eq_false_iff.mp hgone)

namespace Operation.Works

variable {act : Cell → Except StoreError α × Cell}

theorem fst_eq_wrongType_iff (hworks : op.Works kind key act)
    (h : (store.keyspace.cell key).Exclusive) :
    (op.perform now store).1 = .error .wrongType ↔
      store.isLive now key = true ∧
        ∃ other, other ≠ kind ∧ store.keyspace.data.holds other key = true := by
  rw [hworks.perform, fst_onCell, hworks.confined.fst_typed_eq_wrongType_iff]
  simp only [kind?_view_eq_some_iff h]
  constructor
  · rintro ⟨other, hne, hlive, hholds⟩
    exact ⟨hlive, other, hne, hholds⟩
  · rintro ⟨hlive, other, hne, hholds⟩
    exact ⟨other, hne, hlive, hholds⟩

theorem perform_of_vacant (hworks : op.Works kind key act) (h : store.view now key = .vacant) :
    (op.perform now store).1 = op.onNothing ∧
      (op.perform now store).2.keyspace.cell key = (act .vacant).2 := by
  have htyped : Cell.vacant.typed kind act = act .vacant := Cell.typed_of_absent rfl kind act
  rw [hworks.perform, fst_onCell, cell_onCell, if_pos rfl, h, htyped]
  exact ⟨hworks.answer, rfl⟩

theorem created (hworks : op.Works kind key act) (hwrites : op.writes = true) (other : Kind) :
    (act .vacant).2.holds other = true ↔ other = kind := by
  refine ⟨hworks.within_vacant other, ?_⟩
  rintro rfl
  exact hworks.holds.trans hwrites

theorem within_of_ok (hworks : op.Works kind key act) (h : (store.view now key).Exclusive)
    {value : α} (hok : (op.perform now store).1 = .ok value) :
    ((op.perform now store).2.keyspace.cell key).Within kind := by
  rw [hworks.perform, fst_onCell] at hok
  rw [hworks.perform, cell_onCell, if_pos rfl]
  exact hworks.confined.within_typed h hok

end Operation.Works

-- An operation on values of one kind is refused for its type exactly if the key is live with a
-- value of another kind. If the key is not live then the operation answers as it does for nothing
-- at all: it leaves nothing under the key, or what it writes, which is of its own kind and has no
-- deadline. When it has succeeded the key holds nothing of another kind.
theorem type_checks_exact (h : store.Attainable) (op : Operation α) (hkind : op.kind? = some kind)
    (hkey : op.named = [key]) (now : Nat) :
    let result := op.perform now store
    let after := result.2.keyspace
    (result.1 = .error .wrongType ↔
      store.isLive now key = true ∧
        ∃ other, other ≠ kind ∧ store.keyspace.data.holds other key = true) ∧
    (store.isLive now key = false →
      result.1 = op.onNothing ∧
      (op.writes = false → after.cell key = .vacant) ∧
      (op.writes = true →
        (∀ other, after.data.holds other key = true ↔ other = kind) ∧
        after.deadlines.get? key = none)) ∧
    ∀ value, result.1 = .ok value → ∀ other, after.data.holds other key = true → other = kind := by
  intro result after
  obtain ⟨act, hworks⟩ := Operation.exists_works hkind hkey
  have hcell := h.consistent key
  refine ⟨hworks.fst_eq_wrongType_iff hcell.exclusive, fun hgone => ?_,
    fun value hok other hholds => ?_⟩
  · obtain ⟨hanswer, hafter⟩ := hworks.perform_of_vacant (h.view_eq_vacant hgone)
    refine ⟨hanswer, fun hreads => hafter.trans (hworks.eq_vacant hreads), fun hwrites => ⟨?_, ?_⟩⟩
    · intro other
      rw [holds_eq_cell, hafter]
      exact hworks.created hwrites other
    · exact (congrArg Cell.deadline hafter).trans hworks.deadline
  · rw [holds_eq_cell] at hholds
    exact hworks.within_of_ok (hcell.evict now).exclusive hok other hholds

-- The list with a deadline is no string. Once it is due there is nothing to pop, and the key takes
-- a field.
theorem queueRun_type_checks :
    let later := Clock.seconds 20
    let set := (Operation.setField [113] [102] [118]).perform later queueRun
    let popped := (Operation.pop .head [113]).perform later queueRun
    let pushed := (Operation.push .tail [113] [[99]]).perform 8 queueRun
    Attainable queueRun ∧ queueRun.isLive 8 [113] = true ∧ queueRun.isLive later [113] = false ∧
    ((Operation.get [113]).perform 8 queueRun).1 = .error .wrongType ∧
    pushed.1 = .ok 3 ∧
    (∀ other, pushed.2.keyspace.data.holds other [113] = true → other = .list) ∧
    popped.1 = .ok none ∧ popped.2.keyspace.cell [113] = .vacant ∧
    set.1 = .ok true ∧ (∀ other, set.2.keyspace.data.holds other [113] = true ↔ other = .hash) ∧
    set.2.keyspace.deadlines.get? [113] = none := by
  intro later set popped pushed
  have hstore : Attainable queueRun := reachable_queueRun.attainable
  have hlive : queueRun.isLive 8 [113] = true := by decide +kernel
  have hgone : queueRun.isLive later [113] = false := by decide +kernel
  have hpushed : pushed.1 = .ok 3 := rfl
  obtain ⟨hwrong, -, -⟩ :=
    type_checks_exact hstore (.get [113]) rfl rfl 8
  obtain ⟨-, -, hkept⟩ :=
    type_checks_exact hstore (.push .tail [113] [[99]]) rfl rfl 8
  obtain ⟨-, hnothing, -⟩ := type_checks_exact hstore (.pop .head [113]) rfl rfl later
  obtain ⟨-, hcreated, -⟩ :=
    type_checks_exact hstore (.setField [113] [102] [118]) rfl rfl later
  obtain ⟨hpopped, hleft, -⟩ := hnothing hgone
  obtain ⟨hset, -, hwritten⟩ := hcreated hgone
  obtain ⟨hkind, hdeadline⟩ := hwritten rfl
  exact ⟨hstore, hlive, hgone, hwrong.mpr ⟨hlive, .list, by decide, by decide +kernel⟩, hpushed,
    hkept 3 hpushed, hpopped, hleft rfl, hset, hkind, hdeadline⟩

end KeyValue.Store
