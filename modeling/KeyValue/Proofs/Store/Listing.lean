import KeyValue.Proofs.Store.TypeCheck
import Mathlib.Data.List.Nodup

namespace KeyValue

namespace Namespaces

variable {data : Namespaces}

theorem mem_keys_iff {key : Bytes} :
    key ∈ data.keys ↔ ∃ kind, data.holds kind key = true := by
  simp only [keys, List.mem_append, ByteMap.mem_keys_iff_contains]
  constructor
  · rintro ((hstring | hlist) | hhash)
    · exact ⟨.string, hstring⟩
    · exact ⟨.list, hlist⟩
    · exact ⟨.hash, hhash⟩
  · rintro ⟨kind, hholds⟩
    cases kind with
    | string => exact .inl (.inl hholds)
    | list => exact .inl (.inr hholds)
    | hash => exact .inr hholds

theorem mem_keys_iff_kind? {key : Bytes} : key ∈ data.keys ↔ data.kind? key ≠ none := by
  have hkind : data.kind? key = (data.slots key).kind? := rfl
  rw [mem_keys_iff, hkind, Ne, Slots.kind?_eq_none_iff_holds]
  simp [holds_eq_slots]

-- A key in two of the maps would be listed twice.
theorem Exclusive.nodup_keys (h : data.Exclusive) : data.keys.Nodup := by
  have disjoint {key : Bytes} {a b : Kind} (hne : a ≠ b) (ha : data.holds a key = true) :
      data.holds b key ≠ true := by
    intro hb
    rw [holds_eq_slots] at ha hb
    exact hne (h key a b ha hb)
  refine List.nodup_append'.mpr ⟨List.nodup_append'.mpr
    ⟨data.strings.nodup_keys, data.lists.nodup_keys, ?_⟩, data.hashes.nodup_keys, ?_⟩
  · intro key hstring hlist
    rw [ByteMap.mem_keys_iff_contains] at hstring hlist
    exact disjoint (a := .string) (b := .list) (by decide) hstring hlist
  · intro key hother hhash
    rw [ByteMap.mem_keys_iff_contains] at hhash
    rcases List.mem_append.mp hother with hstring | hlist
    · rw [ByteMap.mem_keys_iff_contains] at hstring
      exact disjoint (a := .string) (b := .hash) (by decide) hstring hhash
    · rw [ByteMap.mem_keys_iff_contains] at hlist
      exact disjoint (a := .list) (b := .hash) (by decide) hlist hhash

end Namespaces

namespace Keyspace

variable {keyspace : Keyspace} {now : Nat} {key : Bytes}

theorem lt_of_get?_purge {deadline : Nat}
    (h : (keyspace.purge now).deadlines.get? key = some deadline) : now < deadline := by
  have hdue : ((keyspace.purge now).cell key).isDue now = false := by
    rw [cell_purge, Cell.isDue_evict]
  have hcell : ((keyspace.purge now).cell key).deadline = some deadline := h
  simp only [Cell.isDue, hcell, decide_eq_false_iff_not] at hdue
  omega

theorem cell_purge_of_due (h : keyspace.isDue now key = true) :
    (keyspace.purge now).cell key = .vacant := by
  rw [cell_purge, Cell.evict, ← isDue_eq_cell, if_pos h]

theorem cell_purge_of_not_due (h : keyspace.isDue now key = false) :
    (keyspace.purge now).cell key = keyspace.cell key := by
  rw [cell_purge, Cell.evict, ← isDue_eq_cell, h]
  rfl

end Keyspace

namespace Store

variable {store : Store} {now : Nat} {key : Bytes}

theorem Attainable.exclusive (h : store.Attainable) : store.keyspace.data.Exclusive :=
  fun key => (h.consistent key).exclusive

-- What is left by a purge is what is live.
theorem mem_keys_purge_iff : key ∈ (store.keyspace.purge now).data.keys ↔
    store.isLive now key = true := by
  rw [Namespaces.mem_keys_iff_kind?, isLive_eq_view, Option.isSome_iff_ne_none, view,
    ← Keyspace.cell_purge]
  rfl

theorem mem_keys {pattern : Bytes} : key ∈ (store.keys now pattern).1 ↔
    store.isLive now key = true ∧ Glob.accepts pattern key = true := by
  have hlisted : (store.keys now pattern).1 =
      Bytes.sort ((store.keyspace.purge now).data.keys.filter (Glob.accepts pattern)) := rfl
  rw [hlisted, (Bytes.sort_perm _).mem_iff, List.mem_filter, mem_keys_purge_iff]

theorem Attainable.nodup_keys (h : store.Attainable) (now : Nat) (pattern : Bytes) :
    (store.keys now pattern).1.Nodup := by
  have hpurged : (store.keyspace.purge now).data.Exclusive :=
    (h.call now .purge trivial).exclusive
  exact (Bytes.sort_perm _).nodup_iff.mpr (hpurged.nodup_keys.filter _)

-- Every live key that matches is listed once, and nothing else is. Whatever was due is gone then
-- from everywhere, the live keys are as they were, and each of the listed keys is found to have a
-- kind.
theorem keys_exact (h : store.Attainable) (now : Nat) (pattern : Bytes) :
    let listed := (store.keys now pattern).1
    let after := (store.keys now pattern).2
    (∀ key, listed.count key =
      if store.isLive now key = true ∧ Glob.accepts pattern key = true then 1 else 0) ∧
    (∀ key deadline, after.keyspace.deadlines.get? key = some deadline → now < deadline) ∧
    (∀ key, store.keyspace.isDue now key = true → after.keyspace.cell key = .vacant) ∧
    (∀ key, store.isLive now key = true →
      after.keyspace.cell key = store.keyspace.cell key) ∧
    ∀ key ∈ listed, (after.kind? now key).1 ≠ none := by
  intro listed after
  have hafter : after.keyspace = store.keyspace.purge now := rfl
  refine ⟨fun key => ?_, fun key deadline hdeadline => Keyspace.lt_of_get?_purge hdeadline,
    fun key hdue => Keyspace.cell_purge_of_due hdue, fun key hlive => ?_, fun key hkey => ?_⟩
  · rw [(h.nodup_keys now pattern).count]
    simp only [mem_keys]
  · exact Keyspace.cell_purge_of_not_due (isLive_iff_cell.mp hlive).2
  · obtain ⟨hlive, -⟩ := mem_keys.mp hkey
    rw [kind?_eq_onCell, fst_onCell, view, hafter, Keyspace.cell_purge,
      Cell.evict_evict _ (Nat.le_refl now)]
    rw [isLive_eq_view] at hlive
    exact Option.isSome_iff_ne_none.mp hlive

-- A string, a list and a hash, and a list that is due after ten seconds.
def mixedCalls : List (Nat × Call) := [
  (1, .operation (.set [97] [120])),
  (2, .operation (.push .tail [98] [[121]])),
  (3, .operation (.push .tail [99] [[122]])),
  (4, .operation (.setField [100] [102] [118])),
  (5, .operation (.expire [99] 10))]

theorem attainable_mixedCalls : Attainable (performAll mixedCalls .empty) :=
  Attainable.empty.performAll (by simp [mixedCalls, Call.KeepsApart])

-- The pattern accepts every key of one byte, and one of them is due at the time.
theorem mixedCalls_keys_exact :
    let store := performAll mixedCalls .empty
    let now := Clock.seconds 20
    let listed := (store.keys now [Glob.questionMark]).1
    let after := (store.keys now [Glob.questionMark]).2
    store.Attainable ∧ listed.count [97] = 1 ∧ listed.count [99] = 0 ∧
      after.keyspace.cell [99] = .vacant ∧
      after.keyspace.cell [97] = store.keyspace.cell [97] ∧
      ∀ key ∈ listed, (after.kind? now key).1 ≠ none := by
  intro store now listed after
  obtain ⟨hcount, -, hdue, hlive, hkinds⟩ :=
    keys_exact attainable_mixedCalls now [Glob.questionMark]
  have haccepts : Glob.accepts [Glob.questionMark] [97] = true := by
    simp [Glob.accepts, Glob.scan, Glob.past?, Glob.star, Glob.questionMark]
  have hkept : store.isLive now [97] = true := by decide +kernel
  have hgone : store.isLive now [99] ≠ true := by decide +kernel
  exact ⟨attainable_mixedCalls, (hcount [97]).trans (if_pos ⟨hkept, haccepts⟩),
    (hcount [99]).trans (if_neg fun h => hgone h.1), hdue [99] (by decide +kernel),
    hlive [97] hkept, hkinds⟩

end Store

end KeyValue
