import KeyValue.Proofs.Store.Listing

namespace KeyValue

-- Two lists without repetition are as long as each other if they have the same elements.
theorem countP_eq_length_of_nodup {α : Type} {as bs : List α} {p : α → Bool} (ha : as.Nodup)
    (hb : bs.Nodup) (h : ∀ a, a ∈ as ∧ p a = true ↔ a ∈ bs) : as.countP p = bs.length := by
  have hperm : (as.filter p).Perm bs := by
    refine (List.perm_ext_iff_of_nodup (ha.filter p) hb).mpr fun a => ?_
    rw [List.mem_filter, h]
  rw [List.countP_eq_length_filter, hperm.length_eq]

namespace Keyspace

variable {keyspace : Keyspace} {now : Nat} {key : Bytes}

theorem mem_keys_of_isDue (h : keyspace.isDue now key = true) : key ∈ keyspace.deadlines.keys := by
  rw [isDue_eq_cell] at h
  exact ByteMap.mem_keys_of_mem_filter (mem_dueKeys_iff.mpr h)

end Keyspace

namespace Store

variable {α : Type} {store : Store} {now : Nat} {key : Bytes}

-- How many of the keys that are looked at have a deadline that is over.
def dueAmong (now : Nat) (looked : Bytes → Bool) (store : Store) : Nat :=
  store.keyspace.deadlines.entries.countP fun entry => entry.2 ≤ now && looked entry.1

namespace Call

-- Whether a call looks for something under a key. A deadline that does not exist is refused
-- without a look at the key.
def looksAt (now : Nat) (store : Store) (key : Bytes) : Call → Bool
  | .operation op =>
      match (op.perform now store).1 with
      | .error .invalidExpire => false
      | _ => op.named.contains key
  | .kind other | .delete other => key = other
  | .keys _ | .purge | .snapshot => true
  | .flushAll | .stats | .restore _ => false

theorem looksAt_operation {op : Operation α}
    (h : (op.perform now store).1 ≠ .error .invalidExpire) (key : Bytes) :
    (Call.operation op).looksAt now store key = op.named.contains key := by
  cases hresult : (op.perform now store).1 with
  | ok value => simp only [looksAt, hresult]
  | error cause =>
      cases cause with
      | invalidExpire => exact absurd hresult h
      | _ => simp only [looksAt, hresult]

-- The calls that give a key a deadline, if they succeed. It may be over at once.
def Dates (now : Nat) (store : Store) (key : Bytes) : Call → Prop
  | .operation (.expire other _) => other = key
  | .operation (.rename old new) => old ≠ new ∧ new = key ∧ store.deadlineOf now old ≠ none
  | _ => False

-- The call finds the key due, and counts it.
structure Evicts (now : Nat) (store : Store) (key : Bytes) (call : Call) : Prop where
  looks : call.looksAt now store key = true
  due : store.keyspace.isDue now key = true

end Call

theorem dueAmong_eq (now : Nat) (looked : Bytes → Bool) (store : Store) :
    store.dueAmong now looked =
      store.keyspace.deadlines.keys.countP fun key =>
        store.keyspace.isDue now key && looked key := by
  rw [dueAmong, ByteMap.keys, List.countP_map]
  refine List.countP_congr fun entry hentry => ?_
  have hdeadline : store.keyspace.deadlines.get? entry.1 = some entry.2 :=
    (ByteMap.get?_eq_some_iff ..).mpr hentry
  simp only [Function.comp_apply, Keyspace.isDue, hdeadline]

theorem dueAmong_named {looked : Bytes → Bool} {named : List Bytes} (hnamed : named.Nodup)
    (h : ∀ key, looked key = true ↔ key ∈ named) :
    store.dueAmong now looked = named.countP (store.keyspace.isDue now) := by
  rw [dueAmong_eq]
  refine (countP_eq_length_of_nodup (ByteMap.nodup_keys _) (hnamed.filter _) fun key => ?_).trans
    List.countP_eq_length_filter.symm
  rw [Bool.and_eq_true, h key, List.mem_filter]
  constructor
  · rintro ⟨_, hdue, hmem⟩
    exact ⟨hmem, hdue⟩
  · rintro ⟨hmem, hdue⟩
    exact ⟨Keyspace.mem_keys_of_isDue hdue, hdue, hmem⟩

theorem dueAmong_all (now : Nat) (store : Store) :
    store.dueAmong now (fun _ => true) = (store.keyspace.dueKeys now).length := by
  rw [dueAmong_eq]
  refine countP_eq_length_of_nodup (ByteMap.nodup_keys _) (ByteMap.nodup_keys _) fun key => ?_
  rw [Bool.and_true, Keyspace.mem_dueKeys_iff, ← Keyspace.isDue_eq_cell, and_iff_right_iff_imp]
  exact Keyspace.mem_keys_of_isDue

theorem dueAmong_none (now : Nat) (store : Store) : store.dueAmong now (fun _ => false) = 0 := by
  simp [dueAmong]

theorem evicted_onCell {looked : Bytes → Bool} (h : ∀ other, looked other = true ↔ other = key)
    (now : Nat) (act : Cell → α × Cell) (store : Store) :
    (store.onCell now key act).2.evicted = store.evicted + store.dueAmong now looked := by
  have hnamed (other : Bytes) : looked other = true ↔ other ∈ [key] :=
    (h other).trans List.mem_singleton.symm
  rw [dueAmong_named (List.nodup_singleton key) hnamed, List.countP_singleton]
  rfl

theorem evicted_rename (now : Nat) (old new : Bytes) (store : Store) :
    (store.rename now old new).2.evicted =
      store.evicted + store.dueAmong now [old, new].contains := by
  by_cases hne : old = new
  · -- The same name twice is one name.
    subst hne
    rw [rename_self_eq_onCell]
    exact evicted_onCell (by simp) now _ store
  · have hnodup : [old, new].Nodup := by simp [hne]
    have hsum : [old, new].countP (store.keyspace.isDue now) =
        (if store.keyspace.isDue now old then 1 else 0) +
          if store.keyspace.isDue now new then 1 else 0 := by
      rw [List.countP_cons, List.countP_singleton, Nat.add_comm]
    rw [rename_eq_onCells hne, dueAmong_named hnodup fun _ => List.contains_iff_mem, hsum,
      ← Nat.add_assoc]
    rfl

theorem evicted_operation {op : Operation α}
    (h : (op.perform now store).1 ≠ .error .invalidExpire) :
    (op.perform now store).2.evicted = store.evicted + store.dueAmong now op.named.contains := by
  rcases op.works_cases with hany | ⟨kind, key, act, hworks⟩
  · cases op with
    | expire key seconds =>
        simp only [Operation.perform] at h ⊢
        cases hdeadline : deadline? now seconds with
        | none =>
            simp only [expire, hdeadline] at h
            exact absurd rfl h
        | some deadline =>
            rw [expire_eq_onCell now key store hdeadline]
            exact evicted_onCell (by simp [Operation.named]) now _ store
    | rename old new => exact evicted_rename now old new store
    | _ => cases hany
  · rw [hworks.perform, hworks.named]
    exact evicted_onCell (by simp) now _ store

theorem evicted_perform (now : Nat) (call : Call) (store : Store) :
    (call.perform now store).evicted =
      store.evicted + store.dueAmong now fun key => call.looksAt now store key := by
  cases call with
  | operation op =>
      by_cases hrefused : (op.perform now store).1 = .error .invalidExpire
      · have hsame : (op.perform now store).2 = store := by
          rcases Operation.perform_of_error hrefused with ⟨_, hsame⟩ | ⟨hne, _⟩
          · exact hsame
          · exact absurd rfl hne
        simp only [Call.perform, Call.looksAt, hrefused, hsame, dueAmong_none, Nat.add_zero]
      · simp only [Call.looksAt_operation hrefused]
        exact evicted_operation hrefused
  | kind other =>
      rw [Call.perform, kind?_eq_onCell]
      exact evicted_onCell (fun _ => decide_eq_true_iff) now _ store
  | delete other =>
      rw [Call.perform, delete_eq_onCell]
      exact evicted_onCell (fun _ => decide_eq_true_iff) now _ store
  | keys pattern => exact congrArg (store.evicted + ·) (dueAmong_all now store).symm
  | purge => exact congrArg (store.evicted + ·) (dueAmong_all now store).symm
  | snapshot => exact congrArg (store.evicted + ·) (dueAmong_all now store).symm
  | flushAll => exact congrArg (store.evicted + ·) (dueAmong_none now store).symm
  | stats => exact congrArg (store.evicted + ·) (dueAmong_none now store).symm
  | restore data => exact congrArg (store.evicted + ·) (dueAmong_none now store).symm

theorem evicted_performAll (calls : List (Nat × Call)) (store : Store) :
    store.evicted ≤ (performAll calls store).evicted := by
  refine performAll_invariant (fun after => store.evicted ≤ after.evicted)
    (fun call _ before hbefore => ?_) (Nat.le_refl _)
  rw [evicted_perform]
  exact Nat.le_add_right_of_le hbefore

end Store

namespace Keyspace

variable {keyspace : Keyspace}

theorem keys_live (keyspace : Keyspace) (now : Nat) :
    (keyspace.live now).keys = keyspace.data.keys.filter fun key => !keyspace.isDue now key := by
  have hkeys {α : Type} (map : ByteMap α) (keep : Bytes → Bool) :
      (map.filter fun key _ => keep key).keys = map.keys.filter keep := List.filter_map.symm
  simp only [live, Namespaces.keys, hkeys, List.filter_append]

theorem deadlines_purge (keyspace : Keyspace) (now : Nat) :
    (keyspace.purge now).deadlines =
      keyspace.deadlines.filter fun _ deadline => now < deadline := by
  refine ByteMap.ext_get? fun key => ?_
  have hcell : (keyspace.purge now).deadlines.get? key =
      ((keyspace.cell key).evict now).deadline :=
    congrArg Cell.deadline (cell_purge keyspace now key)
  rw [hcell, ByteMap.get?_filter]
  unfold Cell.evict
  cases h : keyspace.deadlines.get? key with
  | none => simp [Cell.isDue, Keyspace.cell, h]
  | some deadline =>
      by_cases hle : deadline ≤ now
      · simp [Cell.isDue, Cell.vacant, Keyspace.cell, Option.filter, h, hle]
      · simp [Cell.isDue, Keyspace.cell, Option.filter, h, hle]

theorem size_deadlines_purge (keyspace : Keyspace) (now : Nat) :
    (keyspace.purge now).deadlines.size + (keyspace.dueKeys now).length =
      keyspace.deadlines.size := by
  have hdue : (keyspace.dueKeys now).length =
      (keyspace.deadlines.filter fun _ deadline => decide (deadline ≤ now)).size := by
    rw [dueKeys, ByteMap.keys, List.length_map, ByteMap.size]
  have hsplit := List.length_eq_countP_add_countP (l := keyspace.deadlines.entries)
    fun entry => decide (entry.2 ≤ now)
  rw [deadlines_purge, hdue, ByteMap.size_filter, ByteMap.size_filter, ByteMap.size, hsplit,
    Nat.add_comm]
  simp

-- Each key that is due is a key, and is no key twice.
theorem size_data_purge (hexclusive : keyspace.data.Exclusive)
    (htidy : ∀ key, (keyspace.cell key).Tidy) (now : Nat) :
    (keyspace.purge now).data.size + (keyspace.dueKeys now).length = keyspace.data.size := by
  have hdue : keyspace.data.keys.countP (keyspace.isDue now) = (keyspace.dueKeys now).length := by
    refine countP_eq_length_of_nodup hexclusive.nodup_keys (ByteMap.nodup_keys _) fun key => ?_
    rw [mem_dueKeys_iff, ← isDue_eq_cell, and_iff_right_iff_imp]
    intro hdue
    refine Namespaces.mem_keys_iff_kind?.mpr fun hkind => ?_
    have hnone : (keyspace.cell key).deadline = none := htidy key hkind
    simp [isDue_eq_cell, Cell.isDue, hnone] at hdue
  have hsplit := List.length_eq_countP_add_countP (keyspace.isDue now) (l := keyspace.data.keys)
  rw [data_purge, ← Namespaces.length_keys, ← Namespaces.length_keys, keys_live, ← hdue, hsplit,
    ← List.countP_eq_length_filter, Nat.add_comm]
  simp

end Keyspace

namespace Store

variable {store : Store} {now : Nat} {key : Bytes} {call : Call}

-- The key has no deadline, and no key has one without a value, which a value to come could find.
structure Dateless (key : Bytes) (store : Store) : Prop where
  tidy : ∀ key, (store.keyspace.cell key).Tidy
  deadline : (store.keyspace.cell key).deadline = none

theorem dateless_rename (hview : store.view now key = .vacant)
    (htidy : ∀ key, (store.keyspace.cell key).Tidy) {old new : Bytes} (hmem : key ∈ [old, new]) :
    ((store.rename now old new).2.keyspace.cell key).deadline = none ∨
      (Call.operation (.rename old new)).Succeeds now store ∧
        (Call.operation (.rename old new)).Dates now store key := by
  by_cases hne : old = new
  · subst hne
    have hkey : key = old := by simpa using hmem
    subst hkey
    rw [rename_self_eq_onCell, cell_onCell, if_pos rfl, hview]
    exact .inl rfl
  · by_cases hnew : key = new
    · subst hnew
      cases hkind : (store.view now old).kind? with
      | none =>
          rw [rename_eq_onCells hne, cell_onCells, if_pos rfl, hview]
          simp only [Cell.rename, hkind]
          exact .inl rfl
      | some kind =>
          by_cases hdeadline : (store.view now old).deadline = none
          · rw [rename_eq_onCells hne, cell_onCells, if_pos rfl]
            simp only [Cell.rename, hkind, Cell.deadline_keepOnly]
            exact .inl hdeadline
          · rw [← deadlineOf_eq_view (htidy old)] at hdeadline
            refine .inr ⟨⟨(), ?_⟩, hne, rfl, hdeadline⟩
            rw [Operation.perform, rename_eq_onCells hne, fst_onCells]
            simp only [Cell.rename, hkind]
    · -- The key that is due was to be renamed, and there is nothing left to rename.
      have hold : key = old := by simpa [hnew] using hmem
      subst hold
      rw [rename_eq_onCells hne, cell_onCells, if_neg hnew, if_pos rfl, hview]
      exact .inl rfl

theorem dateless_operation {α : Type} {op : Operation α} (hview : store.view now key = .vacant)
    (htidy : ∀ key, (store.keyspace.cell key).Tidy)
    (hanswer : (op.perform now store).1 ≠ .error .invalidExpire) (hmem : key ∈ op.named) :
    ((op.perform now store).2.keyspace.cell key).deadline = none ∨
      (Call.operation op).Succeeds now store ∧ (Call.operation op).Dates now store key := by
  rcases op.works_cases with hany | ⟨kind, other, act, hworks⟩
  · cases op with
    | expire other seconds =>
        have hkey : key = other := List.mem_singleton.mp hmem
        subst hkey
        simp only [Operation.perform] at hanswer ⊢
        cases hdeadline : deadline? now seconds with
        | none =>
            simp only [expire, hdeadline] at hanswer
            exact absurd rfl hanswer
        | some deadline =>
            rw [expire_eq_onCell now key store hdeadline, cell_onCell, if_pos rfl, hview]
            exact .inl rfl
    | rename old new => exact dateless_rename hview htidy hmem
    | _ => cases hany
  · rw [hworks.named] at hmem
    have hkey : key = other := List.mem_singleton.mp hmem
    subst hkey
    rw [hworks.perform, cell_onCell, if_pos rfl, hview, Cell.typed_of_absent rfl]
    exact .inl hworks.deadline

-- Whoever finds a key due leaves it without a deadline, or with the one of the key that was renamed
-- to it.
theorem Call.Evicts.dateless (h : call.Evicts now store key)
    (htidy : ∀ key, (store.keyspace.cell key).Tidy) :
    (call.perform now store).Dateless key ∨ call.Succeeds now store ∧ call.Dates now store key := by
  suffices hdeadline : ((call.perform now store).keyspace.cell key).deadline = none ∨
      call.Succeeds now store ∧ call.Dates now store key by
    exact hdeadline.imp_left fun hnone => ⟨tidy_perform htidy, hnone⟩
  have hview : store.view now key = .vacant := if_pos h.due
  have hpurged : ((store.keyspace.purge now).cell key).deadline = none :=
    congrArg Cell.deadline (Keyspace.cell_purge_of_due h.due)
  have hlooks := h.looks
  cases call with
  | operation op =>
      by_cases hrefused : (op.perform now store).1 = .error .invalidExpire
      · simp only [looksAt, hrefused] at hlooks
        cases hlooks
      · rw [looksAt_operation hrefused, List.contains_iff_mem] at hlooks
        exact dateless_operation hview htidy hrefused hlooks
  | kind other =>
      have hkey : key = other := of_decide_eq_true hlooks
      subst hkey
      rw [perform, kind?_eq_onCell, cell_onCell, if_pos rfl, hview]
      exact .inl rfl
  | delete other =>
      have hkey : key = other := of_decide_eq_true hlooks
      subst hkey
      rw [perform, delete_eq_onCell, cell_onCell, if_pos rfl]
      exact .inl rfl
  | keys pattern => exact .inl hpurged
  | purge => exact .inl hpurged
  | snapshot => exact .inl hpurged
  | flushAll => cases hlooks
  | stats => cases hlooks
  | restore data => cases hlooks

-- Without a deadline there is none until a call gives one.

theorem Dateless.perform (h : store.Dateless key) :
    (call.perform now store).Dateless key ∨ call.Succeeds now store ∧ call.Dates now store key := by
  suffices hdeadline : ((call.perform now store).keyspace.cell key).deadline = none ∨
      call.Succeeds now store ∧ call.Dates now store key by
    exact hdeadline.imp_left fun hnone => ⟨tidy_perform h.tidy, hnone⟩
  have hview : (store.view now key).deadline = none := Cell.deadline_evict_of_none h.deadline now
  by_cases hok : call.Succeeds now store
  · have houtcome := Call.outcome hok key
    generalize (call.perform now store).keyspace.cell key = cell at houtcome ⊢
    cases houtcome with
    | unseen _ => exact .inl h.deadline
    | changed _ hchange =>
        cases hchange with
        | kept => exact .inl hview
        | gone => exact .inl rfl
        | stored _ _ _ => exact .inl hview
    | set value => exact .inl rfl
    | expired _ _ => exact .inr ⟨hok, rfl⟩
    | @renamedTo old kind hne _ =>
        by_cases hgiven : store.deadlineOf now old = none
        · rw [deadlineOf_eq_view (h.tidy old)] at hgiven
          exact .inl ((Cell.deadline_keepOnly kind _).trans hgiven)
        · exact .inr ⟨hok, hne, rfl, hgiven⟩
    | renamedFrom _ _ => exact .inl (Cell.deadline_without _ _)
    | restored data => exact .inl rfl
  · rcases Call.cell_of_failure hok key with hcell | hcell
    · exact .inl (hcell ▸ h.deadline)
    · exact .inl (hcell ▸ hview)

theorem Dateless.performAll (h : store.Dateless key) (calls : List (Nat × Call)) :
    (performAll calls store).Dateless key ∨
      ∃ before call after, calls = before ++ call :: after ∧
        call.2.Succeeds call.1 (performAll before store) ∧
        call.2.Dates call.1 (performAll before store) key :=
  kept_or_exists_call (Dateless key)
    (fun now store call => call.Succeeds now store ∧ call.Dates now store key)
    (fun _ _ _ h => h.perform) h calls

theorem Dateless.not_due (h : store.Dateless key) (now : Nat) :
    store.keyspace.isDue now key = false := by
  rw [Keyspace.isDue_eq_cell, Cell.isDue, h.deadline]

-- Between two evictions a key has been given a deadline. The first of the two may do so itself.
theorem evicted_twice {first second : Nat × Call} {middle : List (Nat × Call)}
    (htidy : ∀ key, (store.keyspace.cell key).Tidy) (hfirst : first.2.Evicts first.1 store key)
    (hsecond : second.2.Evicts second.1 (performAll (first :: middle) store) key) :
    ∃ earlier call later, first :: middle = earlier ++ call :: later ∧
      call.2.Succeeds call.1 (performAll earlier store) ∧
      call.2.Dates call.1 (performAll earlier store) key := by
  rcases hfirst.dateless htidy with hnone | hdated
  · rcases hnone.performAll middle with hend | ⟨earlier, call, later, hsplit, hdated⟩
    · cases (hend.not_due second.1).symm.trans hsecond.due
    · exact ⟨first :: earlier, call, later, congrArg (first :: ·) hsplit, hdated⟩
  · exact ⟨[], first, middle, rfl, hdated⟩

-- Each call counts the keys that it finds due among those that it looks at, and the count never
-- goes back. A purge tells how many these were, and takes as many keys and as many deadlines away.
-- If a key is evicted twice then a call in between has given it a new deadline.
theorem evictions_exact (h : store.Attainable) :
    (∀ now (call : Call), (call.perform now store).evicted =
      store.evicted + store.dueAmong now fun key => call.looksAt now store key) ∧
    (∀ calls, store.evicted ≤ (performAll calls store).evicted) ∧
    (∀ now, let purged := store.purge now
      purged.1 = store.dueAmong now (fun _ => true) ∧
      purged.2.stats.keys + purged.1 = store.stats.keys ∧
      purged.2.stats.expiring + purged.1 = store.stats.expiring) ∧
    ∀ (before : List (Nat × Call)) first middle (second : Nat × Call) key,
      first.2.Evicts first.1 (performAll before store) key →
      second.2.Evicts second.1 (performAll (before ++ first :: middle) store) key →
      ∃ earlier call later, first :: middle = earlier ++ call :: later ∧
        call.2.Succeeds call.1 (performAll (before ++ earlier) store) ∧
        call.2.Dates call.1 (performAll (before ++ earlier) store) key := by
  have htidy (key : Bytes) : (store.keyspace.cell key).Tidy := (h.consistent key).tidy
  refine ⟨fun now call => evicted_perform now call store,
    fun calls => evicted_performAll calls store,
    fun now => ⟨(dueAmong_all now store).symm, ?_, ?_⟩, ?_⟩
  · exact Keyspace.size_data_purge h.exclusive htidy now
  · exact store.keyspace.size_deadlines_purge now
  · intro before first middle second key hfirst hsecond
    simp only [performAll_append] at hsecond ⊢
    exact evicted_twice (tidy_performAll htidy before) hfirst hsecond

-- The list is due, and then a string with its key is due as well.
theorem mixedCalls_evictions :
    let store := performAll mixedCalls .empty
    let now := Clock.seconds 20
    let first : Nat × Call := (now, .kind [99])
    let middle : List (Nat × Call) := [(Clock.seconds 21, .operation (.set [99] [120])),
      (Clock.seconds 22, .operation (.expire [99] 5))]
    let second : Nat × Call := (Clock.seconds 30, .operation (.rename [97] [99]))
    store.Attainable ∧
    ((Call.operation (.rename [99] [99])).perform now store).evicted = 1 ∧
    ((Call.operation (.get [97])).perform now store).evicted = 0 ∧
    (store.purge now).1 = 1 ∧ (store.purge now).2.stats.keys + 1 = store.stats.keys ∧
    first.2.Evicts first.1 store [99] ∧
    second.2.Evicts second.1 (performAll (first :: middle) store) [99] ∧
    ∃ earlier call later, first :: middle = earlier ++ call :: later ∧
      call.2.Succeeds call.1 (performAll earlier store) ∧
      call.2.Dates call.1 (performAll earlier store) [99] := by
  intro store now first middle second
  obtain ⟨hcount, -, hpurge, htwice⟩ := evictions_exact attainable_mixedCalls
  have hone : (store.purge now).1 = 1 := (hpurge now).1.trans (by decide +kernel)
  have hkeys := (hpurge now).2.1
  rw [show (performAll mixedCalls empty).purge now = store.purge now from rfl, hone] at hkeys
  have hfirst : first.2.Evicts first.1 store [99] := ⟨by decide +kernel, by decide +kernel⟩
  have hsecond : second.2.Evicts second.1 (performAll (first :: middle) store) [99] :=
    ⟨by decide +kernel, by decide +kernel⟩
  exact ⟨attainable_mixedCalls,
    (hcount now (.operation (.rename [99] [99]))).trans (by decide +kernel),
    (hcount now (.operation (.get [97]))).trans (by decide +kernel), hone, hkeys, hfirst, hsecond,
    htwice [] first middle second [99] hfirst hsecond⟩

end Store

end KeyValue
