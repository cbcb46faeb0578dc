import KeyValue.Proofs.Snapshot.RoundTrip
import KeyValue.Proofs.Store.Call
import KeyValue.Proofs.Store.Reachable

namespace KeyValue

theorem ByteMap.size_pos_iff {α : Type} {map : ByteMap α} : 0 < map.size ↔ map ≠ .empty := by
  rw [Ne, ← isEmpty_iff, Bool.not_eq_true, isEmpty, size, List.isEmpty_eq_false_iff,
    List.length_pos_iff]

-- No list and no hash is empty.
def Namespaces.NonemptyValues (data : Namespaces) : Prop :=
  ∀ key, data.lists.get? key ≠ some [] ∧ data.hashes.get? key ≠ some .empty

theorem Namespaces.WellFormed.nonemptyValues {data : Namespaces} (h : data.WellFormed) :
    data.NonemptyValues :=
  fun key => ⟨h.lists_nonempty key, h.hashes_nonempty key⟩

namespace Cell

variable {cell : Cell}

theorem list_of_kind? (h : cell.kind? = some .list) : cell.list = some cell.items := by
  obtain ⟨items, hitems⟩ := Option.isSome_iff_exists.mp (Slots.holds_of_kind? h)
  rw [Cell.items, hitems]
  rfl

theorem hash_of_kind? (h : cell.kind? = some .hash) : cell.hash = some cell.fields := by
  obtain ⟨fields, hfields⟩ := Option.isSome_iff_exists.mp (Slots.holds_of_kind? h)
  rw [Cell.fields, hfields]
  rfl

theorem hash_evict_ne (h : cell.hash ≠ some .empty) (now : Nat) :
    (cell.evict now).hash ≠ some .empty :=
  evict_induction (fun cell => cell.hash ≠ some .empty) (by rintro ⟨⟩) h now

-- A push without values changes nothing that is there already.
theorem push_nil_of_kind? (h : cell.kind? ≠ none) (side : Store.Side) :
    (cell.typed .list (Cell.push side [])).2 = cell := by
  unfold typed
  cases hkind : cell.kind? with
  | none => exact absurd hkind h
  | some kind =>
      by_cases hlist : kind = .list
      · subst hlist
        have hitems : side.push [] cell.items = cell.items := by
          cases side with
          | head => rfl
          | tail => exact List.append_nil _
        simp only [if_true, push, hitems, ← list_of_kind? hkind]
      · simp only [hlist, if_false]

-- Where there is nothing it makes an empty list.
theorem push_nil_of_absent (h : cell.kind? = none) (side : Store.Side) :
    (cell.typed .list (Cell.push side [])).2.list = some [] := by
  have hitems : cell.items = [] := by
    rw [items, Slots.kind?_eq_none_iff.mp h]
    rfl
  simp only [typed, h, push, hitems]
  cases side <;> rfl

theorem fst_typedRead_eq_ok_iff {α : Type} {kind : Kind} {read : Cell → α} {value : α} :
    (cell.typedRead kind read).1 = .ok value ↔
      (cell.kind? = none ∨ cell.kind? = some kind) ∧ read cell = value := by
  unfold typedRead typed
  cases cell.kind? with
  | none => simp
  | some other => by_cases hkind : other = kind <;> simp [hkind]

-- A key whose value is not empty has a value of a kind just if one of that kind has a size.
theorem kind?_eq_some_iff_size {kind : Kind} {size : Cell → Nat}
    (hnone : cell.kind? = none → size cell = 0) (hsome : cell.kind? = some kind → 1 ≤ size cell) :
    cell.kind? = some kind ↔ ∃ count, 1 ≤ count ∧ (cell.typedRead kind size).1 = .ok count := by
  constructor
  · intro hkind
    exact ⟨size cell, hsome hkind, fst_typedRead_eq_ok_iff.mpr ⟨.inr hkind, rfl⟩⟩
  · rintro ⟨count, hcount, hread⟩
    obtain ⟨habsent | hkind, rfl⟩ := fst_typedRead_eq_ok_iff.mp hread
    · rw [hnone habsent] at hcount
      cases hcount
    · exact hkind

theorem kind?_eq_list_iff (h : cell.list ≠ some []) :
    cell.kind? = some .list ↔
      ∃ count, 1 ≤ count ∧
        (cell.typedRead .list fun cell => cell.items.length).1 = .ok count := by
  refine kind?_eq_some_iff_size (fun hkind => ?_) fun hkind => ?_
  · rw [items, Slots.kind?_eq_none_iff.mp hkind]
    rfl
  · refine List.length_pos_iff.mpr fun hnil => h ?_
    rw [list_of_kind? hkind, hnil]

theorem kind?_eq_hash_iff (h : cell.hash ≠ some .empty) :
    cell.kind? = some .hash ↔
      ∃ count, 1 ≤ count ∧
        (cell.typedRead .hash fun cell => cell.fields.size).1 = .ok count := by
  refine kind?_eq_some_iff_size (fun hkind => ?_) fun hkind => ?_
  · rw [fields, Slots.kind?_eq_none_iff.mp hkind]
    rfl
  · refine ByteMap.size_pos_iff.mpr fun hempty => h ?_
    rw [hash_of_kind? hkind, hempty]

end Cell

namespace Store

open Snapshot (decode encode)

-- The command that asks for an operation.
def Operation.command {α : Type} : Operation α → Command
  | .expire key seconds => .expire key seconds
  | .rename old new => .rename old new
  | .set key value => .set key value
  | .get key => .get key
  | .push side key values => .push side key values
  | .pop side key => .pop side key
  | .listLength key => .listLength key
  | .listItems key => .listItems key
  | .listIndex key index => .listIndex key index
  | .listSet key index value => .listSet key index value
  | .listRemove key count value => .listRemove key count value
  | .setField key field value => .setField key field value
  | .setFields key pairs => .setFields key pairs
  | .getField key field => .getField key field
  | .hasField key field => .hasField key field
  | .deleteField key field => .deleteField key field
  | .hashPairs key => .hashPairs key
  | .hashFields key => .hashFields key
  | .hashValues key => .hashValues key
  | .hashSize key => .hashSize key

theorem Operation.snd_perform_eq_run {α : Type} (op : Operation α) (now : Nat) (store : Store) :
    (op.perform now store).2 = (op.command.run now store).2 := by
  cases op <;> rfl

namespace Call

-- Data that is restored was read from a snapshot.
def LoadsSnapshot : Call → Prop
  | .restore data => ∃ contents, data = (decode contents).data
  | _ => True

-- A push without values, onto a key that holds nothing.
def MakesEmptyList (now : Nat) (store : Store) : Call → Prop
  | .operation (.push _ key values) => values = [] ∧ (store.kind? now key).1 = none
  | _ => False

end Call

-- No call of the run makes an empty list.
def Careful (store : Store) : List (Nat × Call) → Prop
  | [] => True
  | (now, call) :: rest =>
      ¬call.MakesEmptyList now store ∧ Careful (call.perform now store) rest

variable {store : Store} {now : Nat} {key : Bytes}

theorem kind?_eq_view (now : Nat) (key : Bytes) (store : Store) :
    (store.kind? now key).1 = (store.view now key).kind? := by
  rw [kind?_eq_onCell, fst_onCell]

theorem view_wellFormed (h : store.keyspace.WellFormed) (now : Nat) (key : Bytes) :
    (store.view now key).WellFormed :=
  (Keyspace.wellFormed_iff_cell.mp h key).evict now

theorem onCell_wellFormed {α : Type} {act : Cell → α × Cell} (h : store.keyspace.WellFormed)
    (hact : (act (store.view now key)).2.WellFormed) :
    (store.onCell now key act).2.keyspace.WellFormed :=
  h.put hact key

theorem push_wellFormed {side : Side} {values : List Bytes} (h : store.keyspace.WellFormed)
    (hcareful : ¬(values = [] ∧ (store.kind? now key).1 = none)) :
    (store.push side now key values).2.keyspace.WellFormed := by
  have hview := view_wellFormed h now key
  rw [push_eq_onCell]
  refine onCell_wellFormed h ?_
  by_cases hvalues : values = []
  · subst hvalues
    rw [Cell.push_nil_of_kind?]
    · exact hview
    · rw [kind?_eq_view] at hcareful
      exact fun hkind => hcareful ⟨rfl, hkind⟩
  · exact hview.typed fun cell hcell hadmits => hcell.push hadmits side hvalues

theorem perform_operation_wellFormed {α : Type} {op : Operation α}
    (h : store.keyspace.WellFormed)
    (hcareful : ¬(Call.operation op).MakesEmptyList now store) :
    (op.perform now store).2.keyspace.WellFormed := by
  have complete (hcommand : op.command.Complete) :
      (op.perform now store).2.keyspace.WellFormed := by
    rw [op.snd_perform_eq_run, Command.run_eq_perform]
    exact (Command.effect_sound hcommand now).perform now h
  cases op with
  | push side key values => exact push_wellFormed h hcareful
  | _ => exact complete trivial

theorem perform_call_wellFormed {call : Call} (h : store.keyspace.WellFormed)
    (hload : call.LoadsSnapshot) (hcareful : ¬call.MakesEmptyList now store) :
    (call.perform now store).keyspace.WellFormed := by
  cases call with
  | operation op => exact perform_operation_wellFormed h hcareful
  | kind key =>
      rw [Call.perform, kind?_eq_onCell]
      exact onCell_wellFormed h (view_wellFormed h now key)
  | delete key =>
      rw [Call.perform, delete_eq_onCell]
      exact onCell_wellFormed h Cell.wellFormed_vacant
  | flushAll => exact Keyspace.wellFormed_empty
  | keys pattern => exact h.purge now
  | purge => exact h.purge now
  | snapshot => exact h.purge now
  | stats => exact h
  | restore data =>
      obtain ⟨contents, rfl⟩ := hload
      exact restore_wellFormed (Snapshot.decode_wellFormed contents) store

theorem Careful.wellFormed {calls : List (Nat × Call)} (h : store.Careful calls)
    (hstore : store.keyspace.WellFormed) (hload : ∀ call ∈ calls, call.2.LoadsSnapshot) :
    (performAll calls store).keyspace.WellFormed := by
  induction calls generalizing store with
  | nil => exact hstore
  | cons first rest ih =>
      obtain ⟨hfirst, hrest⟩ := h
      obtain ⟨hhere, hlater⟩ := List.forall_mem_cons.mp hload
      exact ih hrest (perform_call_wellFormed hstore hhere hfirst) hlater

theorem Careful.of_append {before after : List (Nat × Call)}
    (h : store.Careful (before ++ after)) : store.Careful before := by
  induction before generalizing store with
  | nil => trivial
  | cons first rest ih => exact ⟨h.1, ih h.2⟩

theorem not_nonempty_of_makesEmptyList {call : Call} (h : call.MakesEmptyList now store) :
    ¬(call.perform now store).keyspace.data.NonemptyValues := by
  unfold Call.MakesEmptyList at h
  split at h
  · rename_i side key values
    obtain ⟨rfl, hkind⟩ := h
    rw [kind?_eq_view] at hkind
    intro hnonempty
    refine (hnonempty key).1 ?_
    have hcell := cell_onCell now key key (Cell.typed .list (Cell.push side [])) store
    rw [if_pos rfl, ← push_eq_onCell] at hcell
    exact (congrArg (fun cell : Cell => cell.list) hcell).trans
      (Cell.push_nil_of_absent hkind side)
  · exact h.elim

-- No call makes an empty hash.
theorem hash_ne_empty_perform {call : Call}
    (h : ∀ key, (store.keyspace.cell key).hash ≠ some .empty) (hload : call.LoadsSnapshot)
    (key : Bytes) : ((call.perform now store).keyspace.cell key).hash ≠ some .empty := by
  have hview (key : Bytes) : (store.view now key).hash ≠ some .empty :=
    Cell.hash_evict_ne (h key) now
  by_cases hok : call.Succeeds now store
  · have houtcome := Call.outcome hok key
    generalize (call.perform now store).keyspace.cell key = cell at houtcome
    cases houtcome with
    | unseen _ => exact h key
    | changed _ hchange =>
        cases hchange with
        | kept => exact hview key
        | gone => rintro ⟨⟩
        | stored _ _ hhash => exact mt hhash (hview key)
    | set value => exact hview key
    | expired _ _ => exact hview key
    | @renamedTo old kind _ _ =>
        cases kind with
        | string => rintro ⟨⟩
        | list => rintro ⟨⟩
        | hash => exact hview old
    | @renamedFrom new kind _ _ =>
        cases kind with
        | string => exact hview key
        | list => exact hview key
        | hash => rintro ⟨⟩
    | restored data =>
        obtain ⟨contents, rfl⟩ := hload
        exact (Snapshot.decode_wellFormed contents).hashes_nonempty key
  · rcases Call.cell_of_failure hok key with hcell | hcell
    · exact hcell ▸ h key
    · exact hcell ▸ hview key

theorem hash_ne_empty_performAll {calls : List (Nat × Call)}
    (h : ∀ key, (store.keyspace.cell key).hash ≠ some .empty)
    (hload : ∀ call ∈ calls, call.2.LoadsSnapshot) (key : Bytes) :
    ((performAll calls store).keyspace.cell key).hash ≠ some .empty :=
  performAll_invariant (fun store => ∀ key, (store.keyspace.cell key).hash ≠ some .empty)
    (fun call hcall _ h => hash_ne_empty_perform h (hload call hcall)) h key

-- There is no other way to make an empty list.
theorem careful_iff_nonempty {calls : List (Nat × Call)} (hstore : store.keyspace.WellFormed)
    (hload : ∀ call ∈ calls, call.2.LoadsSnapshot) :
    store.Careful calls ↔ ∀ before after, calls = before ++ after →
      (performAll before store).keyspace.data.NonemptyValues := by
  constructor
  · rintro h before after rfl
    exact (h.of_append.wellFormed hstore fun call hcall =>
      hload call (List.mem_append_left after hcall)).data.nonemptyValues
  · intro h
    induction calls generalizing store with
    | nil => trivial
    | cons first rest ih =>
        obtain ⟨now, call⟩ := first
        obtain ⟨hhere, hlater⟩ := List.forall_mem_cons.mp hload
        have hcareful : ¬call.MakesEmptyList now store := fun hmakes =>
          not_nonempty_of_makesEmptyList hmakes (h [(now, call)] rest rfl)
        refine ⟨hcareful, ih (perform_call_wellFormed hstore hhere hcareful) hlater ?_⟩
        rintro before after rfl
        exact h ((now, call) :: before) after rfl

-- In a run that starts with an empty store and restores only what snapshots say, a key holds a
-- hash just if the hash has a size. No list or hash is ever empty just if there is no push
-- without values onto a key that holds nothing. Then a key holds a list just if the list has a
-- length, and every snapshot comes back from its encoding.
theorem careful_run_nonempty {calls : List (Nat × Call)}
    (hload : ∀ call ∈ calls, call.2.LoadsSnapshot) :
    (∀ now key, ((performAll calls empty).kind? now key).1 = some .hash ↔
      ∃ count, 1 ≤ count ∧ ((performAll calls empty).hashSize now key).1 = .ok count) ∧
    (empty.Careful calls ↔ ∀ before after, calls = before ++ after →
      (performAll before empty).keyspace.data.NonemptyValues) ∧
    (empty.Careful calls → ∀ now,
      (∀ key, ((performAll calls empty).kind? now key).1 = some .list ↔
        ∃ count, 1 ≤ count ∧ ((performAll calls empty).listLength now key).1 = .ok count) ∧
      (decode (encode ((performAll calls empty).snapshot now).1)).data =
        ((performAll calls empty).snapshot now).1) := by
  refine ⟨fun now key => ?_, careful_iff_nonempty Keyspace.wellFormed_empty hload, ?_⟩
  · have hhash (key : Bytes) : ((performAll calls empty).keyspace.cell key).hash ≠ some .empty :=
      hash_ne_empty_performAll (fun key => by rintro ⟨⟩) hload key
    rw [kind?_eq_view, hashSize_eq_onCell, fst_onCell]
    exact Cell.kind?_eq_hash_iff (Cell.hash_evict_ne (hhash key) now)
  · intro hcareful now
    have hstore := hcareful.wellFormed Keyspace.wellFormed_empty hload
    refine ⟨fun key => ?_, ?_⟩
    · rw [kind?_eq_view, listLength_eq_onCell, fst_onCell]
      exact Cell.kind?_eq_list_iff
        (Slots.wellFormed_iff.mp (view_wellFormed hstore now key).slots).2.1
    · exact (Snapshot.data_decode_encode_eq_iff _).mpr (hstore.purge now).data

-- A push without values finds the list of a snapshot, and a hash gets no fields, then one, and
-- goes with it.
def carefulRun : List (Nat × Call) := [
  (0, .restore (decode (Bytes.ofText "Lq a\n")).data),
  (1, .operation (.push .head [113] [])),
  (2, .operation (.setFields [104] [])),
  (3, .operation (.setField [104] [102] [118])),
  (4, .operation (.deleteField [104] [102])),
  (5, .operation (.push .tail [112] [[98], [99]])),
  (6, .operation (.rename [112] [113]))]

theorem carefulRun_nonempty :
    (∀ call ∈ carefulRun, call.2.LoadsSnapshot) ∧ empty.Careful carefulRun ∧
    (performAll carefulRun empty).keyspace.data.NonemptyValues ∧
    ((performAll carefulRun empty).kind? 7 [113]).1 = some .list ∧
    (∃ count, 1 ≤ count ∧ ((performAll carefulRun empty).listLength 7 [113]).1 = .ok count) ∧
    (decode (encode ((performAll carefulRun empty).snapshot 7).1)).data =
      ((performAll carefulRun empty).snapshot 7).1 := by
  have hload : ∀ call ∈ carefulRun, call.2.LoadsSnapshot := by
    simp only [carefulRun, List.forall_mem_cons]
    exact ⟨⟨_, rfl⟩, trivial, trivial, trivial, trivial, trivial, trivial, by rintro _ ⟨⟩⟩
  have hlist : ((performAll (carefulRun.take 1) empty).kind? 1 [113]).1 = some .list := by
    decide +kernel
  have hcareful : empty.Careful carefulRun := by
    simp only [carefulRun, Careful]
    exact ⟨id, fun h => Option.some_ne_none _ (hlist.symm.trans h.2), id, id, id,
      by rintro ⟨⟨⟩, _⟩, id, trivial⟩
  obtain ⟨_, hiff, hall⟩ := careful_run_nonempty hload
  obtain ⟨hlists, hsnapshot⟩ := hall hcareful 7
  have hkind : ((performAll carefulRun empty).kind? 7 [113]).1 = some .list := by decide +kernel
  exact ⟨hload, hcareful, hiff.mp hcareful carefulRun [] (List.append_nil _).symm, hkind,
    (hlists [113]).mp hkind, hsnapshot⟩

-- A push without values makes a list without elements, which a snapshot cannot bring back.
def emptyPushStore : Store := (Call.operation (.push .tail [113] [])).perform 0 empty

theorem emptyPushStore_has_empty_list :
    (emptyPushStore.kind? 0 [113]).1 = some .list ∧
      (emptyPushStore.listLength 0 [113]).1 = .ok 0 ∧
      (decode (encode (emptyPushStore.snapshot 0).1)).data ≠ (emptyPushStore.snapshot 0).1 :=
  ⟨by decide +kernel, rfl, by decide +kernel⟩

end Store

end KeyValue
