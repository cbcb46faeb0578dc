import KeyValue.Proofs.Command.Effect

namespace KeyValue

namespace Store

-- Two stores are alike at an instant if they differ only in what is due by then. Nobody can
-- tell such stores apart, because what is due is gone before anything looks at it.
def Alike (now : Nat) (a b : Store) : Prop := a.keyspace.purge now = b.keyspace.purge now

theorem alike_iff_cell {now : Nat} {a b : Store} :
    Alike now a b ↔ ∀ key, (a.keyspace.cell key).evict now = (b.keyspace.cell key).evict now := by
  constructor
  · intro h key
    rw [← Keyspace.cell_purge, ← Keyspace.cell_purge, h]
  · intro h
    refine Keyspace.ext_cell fun key => ?_
    rw [Keyspace.cell_purge, Keyspace.cell_purge, h]

namespace Alike

variable {now later : Nat} {a b c : Store}

theorem refl (now : Nat) (store : Store) : Alike now store store := Eq.refl _

theorem symm (h : Alike now a b) : Alike now b a := Eq.symm h

theorem trans (hab : Alike now a b) (hbc : Alike now b c) : Alike now a c := Eq.trans hab hbc

-- Time only takes away differences.
theorem mono (h : Alike now a b) (hle : now ≤ later) : Alike later a b := by
  refine alike_iff_cell.mpr fun key => ?_
  rw [← Cell.evict_evict _ hle, alike_iff_cell.mp h key, Cell.evict_evict _ hle]

end Alike

theorem purge_alike (now : Nat) (store : Store) : Alike now (store.purge now).2 store := by
  refine alike_iff_cell.mpr fun key => ?_
  rw [purge, Keyspace.cell_purge, Cell.evict_evict _ (Nat.le_refl now)]

theorem snapshot_eq_of_alike {now : Nat} {a b : Store} (h : Alike now a b) :
    (a.snapshot now).1 = (b.snapshot now).1 :=
  congrArg Keyspace.data h

end Store

namespace Effect

open Store (Alike)

variable {now : Nat} {a b : Store}

-- What an effect does to alike stores cannot be told apart either.
theorem perform_alike (effect : Effect) (h : Alike now a b) :
    (effect.perform now a).1 = (effect.perform now b).1 ∧
      Alike now (effect.perform now a).2 (effect.perform now b).2 := by
  have hcell := Store.alike_iff_cell.mp h
  cases effect with
  | silent reply => exact ⟨rfl, h⟩
  | clear => exact ⟨rfl, rfl⟩
  | listKeys pattern =>
      have hkeys : (a.keys now pattern).1 = (b.keys now pattern).1 :=
        congrArg (fun keyspace : Keyspace =>
          Bytes.sort (keyspace.data.keys.filter (Glob.accepts pattern))) h
      exact ⟨congrArg Reply.ofBytesList hkeys,
        (Store.purge_alike now a).trans (h.trans (Store.purge_alike now b).symm)⟩
  | onCell key act =>
      refine ⟨congrArg (fun cell => (act cell).1) (hcell key),
        Store.alike_iff_cell.mpr fun other => ?_⟩
      simp only [perform, Store.onCell, Keyspace.cell_put_apply, hcell key]
      split
      · rfl
      · exact hcell other
  | onCells first second hne act =>
      simp only [perform, Store.onCells, hcell first, hcell second]
      refine ⟨trivial, Store.alike_iff_cell.mpr fun other => ?_⟩
      simp only [Keyspace.cell_put_apply]
      split
      · rfl
      · split
        · rfl
        · exact hcell other

-- The effect evicts what is due, if anything, and changes nothing besides.
def Idle : Effect → Prop
  | .silent _ => True
  | .clear => False
  | .listKeys _ => True
  | .onCell _ act => ∀ cell : Cell, (act cell).2 = cell
  | .onCells _ _ _ _ => False

theorem Idle.perform_alike {effect : Effect} (h : effect.Idle) (now : Nat) (store : Store) :
    Alike now (effect.perform now store).2 store := by
  cases effect with
  | silent reply => exact .refl now store
  | clear => cases h
  | listKeys pattern => exact Store.purge_alike now store
  | onCell key act =>
      refine Store.alike_iff_cell.mpr fun other => ?_
      simp only [perform, Store.onCell, Keyspace.cell_put_apply, h _]
      split
      · rename_i hother
        rw [Cell.evict_evict _ (Nat.le_refl now), hother]
      · rfl
  | onCells first second hne act => cases h

end Effect

theorem Store.execute_alike {now : Nat} {a b : Store} (h : Alike now a b) (tokens : List Bytes) :
    (a.execute now tokens).1 = (b.execute now tokens).1 ∧
      Alike now (a.execute now tokens).2 (b.execute now tokens).2 := by
  rw [execute_eq_perform, execute_eq_perform]
  exact (Command.effectOf now tokens).perform_alike h

end KeyValue
