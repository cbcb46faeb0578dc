import KeyValue.Proofs.Command.Names
import KeyValue.Proofs.Store.Housekeeping
import KeyValue.Proofs.Store.Kinds
import Mathlib.Data.List.Dedup

namespace KeyValue

-- However often a key occurs, it counts once.
theorem ByteMap.size_insertAll {α : Type} (map : ByteMap α) (pairs : List (Bytes × α)) :
    (map.insertAll pairs).size = (map.keys ++ pairs.map Prod.fst).dedup.length := by
  have hperm : (map.insertAll pairs).keys.Perm (map.keys ++ pairs.map Prod.fst).dedup := by
    refine (List.perm_ext_iff_of_nodup (nodup_keys _) (List.nodup_dedup _)).mpr fun key => ?_
    rw [mem_keys_insertAll, List.mem_dedup, List.mem_append]
  rw [← hperm.length_eq, keys, List.length_map, size]

namespace Command

theorem pairs?_flatMap (pairs : List (Bytes × Bytes)) :
    pairs? (pairs.flatMap fun pair => [pair.1, pair.2]) = some pairs := by
  induction pairs with
  | nil => rfl
  | cons pair rest ih =>
      simp only [List.flatMap_cons, List.cons_append, List.nil_append, pairs?, ih, Option.map_some]

theorem ofArguments_hmset (key : Bytes) {pairs : List (Bytes × Bytes)} (h : pairs ≠ []) :
    ofArguments .hmset (key :: pairs.flatMap fun pair => [pair.1, pair.2]) =
      .ok (.setFields key pairs) := by
  have hpairs := pairs?_flatMap pairs
  cases pairs with
  | nil => exact absurd rfl h
  | cons pair rest =>
      simp only [List.flatMap_cons, List.cons_append, List.nil_append] at hpairs ⊢
      simp only [ofArguments, hpairs]

end Command

namespace Cell

variable {cell : Cell}

def withFields (fields : ByteMap Bytes) (cell : Cell) : Cell := { cell with hash := some fields }

-- Whether a string or a list is there does not depend on the hash.
theorem Admits.withFields (h : cell.Admits .hash) (fields : ByteMap Bytes) :
    (cell.withFields fields).kind? = some .hash := by
  obtain ⟨⟨string, list, hash⟩, deadline⟩ := cell
  cases string with
  | some value => cases h .string rfl
  | none =>
      cases list with
      | some items => cases h .list rfl
      | none => rfl

end Cell

namespace Store

variable {α : Type} {store : Store} {now : Nat} {key : Bytes} {tokens : List Bytes}
  {fields : ByteMap Bytes}

theorem execute_of_command {command : Command} (h : Command.parse tokens = .ok command) :
    store.execute now tokens = command.run now store := by
  simp only [execute, h]

-- Whoever finds a value and leaves it has not changed anything.
theorem onCell_of_kept {act : Cell → α × Cell} {answer : α}
    (hkind : (store.view now key).kind? ≠ none)
    (h : act (store.view now key) = (answer, store.view now key)) :
    store.onCell now key act = (answer, store) := by
  have hlive : store.isLive now key = true := by
    rw [isLive_eq_view]
    exact Option.isSome_iff_ne_none.mpr hkind
  have hdue := (isLive_iff_cell.mp hlive).2
  rw [view, Cell.evict_of_not_due hdue] at h
  simp only [onCell, Cell.evict_of_not_due hdue, h, hdue, Keyspace.put_cell]
  rfl

-- Gives the key a hash with these fields, after the key was evicted if it was due.
def withFields (now : Nat) (key : Bytes) (fields : ByteMap Bytes) (store : Store) : Store :=
  (store.onCell now key fun cell => ((), cell.withFields fields)).2

theorem view_withFields (now : Nat) (key : Bytes) (fields : ByteMap Bytes) (store : Store) :
    (store.withFields now key fields).view now key = (store.view now key).withFields fields := by
  have hdue : ((store.view now key).withFields fields).isDue now = false :=
    Cell.isDue_evict now (store.keyspace.cell key)
  rw [view, withFields, cell_onCell, if_pos rfl, Cell.evict_of_not_due hdue]

theorem fields_view_withFields (now : Nat) (key : Bytes) (fields : ByteMap Bytes)
    (store : Store) : ((store.withFields now key fields).view now key).fields = fields := by
  rw [view_withFields]
  rfl

theorem admits_withFields (h : (store.view now key).Admits .hash) (fields : ByteMap Bytes) :
    ((store.withFields now key fields).view now key).Admits .hash := by
  intro other hother
  rw [view_withFields, h.withFields fields] at hother
  exact (Option.some.inj hother).symm

-- The key is not due a second time, so only the first of the two may evict it.
theorem withFields_withFields (now : Nat) (key : Bytes) (before fields : ByteMap Bytes)
    (store : Store) :
    (store.withFields now key before).withFields now key fields =
      store.withFields now key fields := by
  have hdue : (((store.keyspace.cell key).evict now).withFields before).isDue now = false :=
    Cell.isDue_evict now (store.keyspace.cell key)
  simp only [withFields, onCell, Keyspace.put_put, Keyspace.cell_put_self, hdue,
    Cell.evict_of_not_due hdue]
  rfl

theorem onCell_eq_withFields {act : Cell → α × Cell} {answer : α}
    (h : act (store.view now key) = (answer, (store.view now key).withFields fields)) :
    store.onCell now key act = (answer, store.withFields now key fields) := by
  rw [view] at h
  simp only [onCell, withFields, h]

theorem setField_of_admits (h : (store.view now key).Admits .hash) (field value : Bytes) :
    store.setField now key field value =
      (.ok !(store.view now key).fields.contains field,
        store.withFields now key ((store.view now key).fields.insert field value)) := by
  rw [setField_eq_onCell]
  exact onCell_eq_withFields (Cell.typed_of_admits h (Cell.setField field value))

theorem setFields_of_admits (h : (store.view now key).Admits .hash)
    {pairs : List (Bytes × Bytes)} (hpairs : pairs ≠ []) :
    store.setFields now key pairs =
      (.ok (), store.withFields now key ((store.view now key).fields.insertAll pairs)) := by
  rw [setFields_eq_onCell]
  refine onCell_eq_withFields ((Cell.typed_of_admits h (Cell.setFields pairs)).trans ?_)
  cases pairs with
  | nil => exact absurd rfl hpairs
  | cons pair rest => rfl

theorem onCell_of_wrongType {kind other : Kind} (hother : (store.view now key).kind? = some other)
    (hne : other ≠ kind) (act : Cell → Except StoreError α × Cell) :
    store.onCell now key (Cell.typed kind act) = (.error .wrongType, store) := by
  refine onCell_of_kept ?_ ?_
  · rw [hother]
    exact Option.some_ne_none other
  · simp only [Cell.typed, hother, if_neg hne]

theorem fst_read_of_admits {kind : Kind} (h : (store.view now key).Admits kind)
    (read : Cell → α) :
    (store.onCell now key (Cell.typedRead kind read)).1 = .ok (read (store.view now key)) := by
  rw [fst_onCell, Cell.typedRead, Cell.typed_of_admits h]

-- A read is answered from the cell of its key.
theorem fst_execute_of_read {kind : Kind} {command : Command} {render : α → Reply}
    {result : Except StoreError α × Store} {read : Cell → α}
    (hparse : Command.parse tokens = .ok command)
    (hrun : command.run now store = Command.answer (.ofOutcome render) result)
    (hresult : result = store.onCell now key (Cell.typedRead kind read))
    (h : (store.view now key).Admits kind) :
    (store.execute now tokens).1 = render (read (store.view now key)) := by
  rw [execute_of_command hparse, hrun, Command.answer, hresult, fst_read_of_admits h]
  rfl

-- Requests that are answered alike, and that change nothing.
theorem serve_of_unchanged {calls : List (Nat × List Bytes)} {reply : Reply}
    (h : ∀ call ∈ calls, store.execute call.1 call.2 = (reply, store)) :
    store.serve calls = (List.replicate calls.length reply, store) := by
  induction calls with
  | nil => rfl
  | cons call rest ih =>
      obtain ⟨hcall, hrest⟩ := List.forall_mem_cons.mp h
      simp only [serve, hcall, ih hrest, List.length_cons, List.replicate_succ]

section Requests

variable {spelling : Verb → Bytes} (hspelling : ∀ verb : Verb, verb.IsCalled (spelling verb))

include hspelling

theorem execute_hset (now : Nat) (key field value : Bytes) (store : Store) :
    store.execute now [spelling .hset, key, field, value] =
      Command.answer (.ofOutcome fun _ => .integer 1) (store.setField now key field value) := by
  have hparse : Command.parse [spelling .hset, key, field, value] =
      .ok (.setField key field value) := Command.parse_of_isCalled (hspelling .hset) _
  exact execute_of_command hparse

theorem execute_hmset (now : Nat) (key : Bytes) {pairs : List (Bytes × Bytes)} (h : pairs ≠ [])
    (store : Store) :
    store.execute now (spelling .hmset :: key :: pairs.flatMap fun pair => [pair.1, pair.2]) =
      Command.answer (.ofOutcome fun _ => .ok) (store.setFields now key pairs) := by
  have hparse : Command.parse
      (spelling .hmset :: key :: pairs.flatMap fun pair => [pair.1, pair.2]) =
        .ok (.setFields key pairs) :=
    (Command.parse_of_isCalled (hspelling .hmset) _).trans (Command.ofArguments_hmset key h)
  exact execute_of_command hparse

theorem fst_execute_hkeys (h : (store.view now key).Admits .hash) :
    (store.execute now [spelling .hkeys, key]).1 =
      .ofBytesList (store.view now key).fields.keys :=
  fst_execute_of_read (Command.parse_of_isCalled (hspelling .hkeys) _) rfl
    (hashFields_eq_onCell now key store) h

theorem fst_execute_hlen (h : (store.view now key).Admits .hash) :
    (store.execute now [spelling .hlen, key]).1 =
      .ofLength (store.view now key).fields.size :=
  fst_execute_of_read (Command.parse_of_isCalled (hspelling .hlen) _) rfl
    (hashSize_eq_onCell now key store) h

theorem fst_execute_hget (h : (store.view now key).Admits .hash) (field : Bytes) :
    (store.execute now [spelling .hget, key, field]).1 =
      .ofOption ((store.view now key).fields.get? field) :=
  fst_execute_of_read (Command.parse_of_isCalled (hspelling .hget) _) rfl
    (getField_eq_onCell now key store field) h

-- Once the key has a hash, each of the requests adds its field to what is there.
theorem serve_hset (h : (store.view now key).Admits .hash) (pairs : List (Bytes × Bytes))
    (fields : ByteMap Bytes) :
    (store.withFields now key fields).serve
        (pairs.map fun pair => (now, [spelling .hset, key, pair.1, pair.2])) =
      (List.replicate pairs.length (.integer 1),
        store.withFields now key (fields.insertAll pairs)) := by
  induction pairs generalizing fields with
  | nil => rfl
  | cons pair rest ih =>
      have hfirst : (store.withFields now key fields).execute now
          [spelling .hset, key, pair.1, pair.2] =
            (.integer 1, store.withFields now key (fields.insert pair.1 pair.2)) := by
        rw [execute_hset hspelling, setField_of_admits (admits_withFields h fields),
          fields_view_withFields, withFields_withFields]
        rfl
      simp only [List.map_cons, serve, hfirst, ih, List.length_cons, List.replicate_succ,
        ByteMap.insertAll_cons]

theorem serve_hset_of_admits (h : (store.view now key).Admits .hash)
    {pairs : List (Bytes × Bytes)} (hpairs : pairs ≠ []) :
    store.serve (pairs.map fun pair => (now, [spelling .hset, key, pair.1, pair.2])) =
      (List.replicate pairs.length (.integer 1),
        store.withFields now key ((store.view now key).fields.insertAll pairs)) := by
  cases pairs with
  | nil => exact absurd rfl hpairs
  | cons pair rest =>
      have hfirst : store.execute now [spelling .hset, key, pair.1, pair.2] =
          (.integer 1, store.withFields now key
            ((store.view now key).fields.insert pair.1 pair.2)) := by
        rw [execute_hset hspelling, setField_of_admits h]
        rfl
      simp only [List.map_cons, serve, hfirst, serve_hset hspelling h, List.length_cons,
        List.replicate_succ, ByteMap.insertAll_cons]

theorem serve_hset_of_wrongType {other : Kind} (hother : (store.view now key).kind? = some other)
    (hne : other ≠ .hash) (pairs : List (Bytes × Bytes)) :
    store.serve (pairs.map fun pair => (now, [spelling .hset, key, pair.1, pair.2])) =
      (List.replicate pairs.length (.error StoreError.wrongType.message), store) := by
  have hlength : (pairs.map fun pair => (now, [spelling .hset, key, pair.1, pair.2])).length =
      pairs.length := List.length_map _
  rw [← hlength]
  refine serve_of_unchanged fun call hcall => ?_
  obtain ⟨pair, -, rfl⟩ := List.mem_map.mp hcall
  rw [execute_hset hspelling, setField_eq_onCell, onCell_of_wrongType hother hne]
  rfl

theorem execute_hmset_of_admits (h : (store.view now key).Admits .hash)
    {pairs : List (Bytes × Bytes)} (hpairs : pairs ≠ []) :
    store.execute now (spelling .hmset :: key :: pairs.flatMap fun pair => [pair.1, pair.2]) =
      (.ok, store.withFields now key ((store.view now key).fields.insertAll pairs)) := by
  rw [execute_hmset hspelling now key hpairs, setFields_of_admits h hpairs]
  rfl

theorem execute_hmset_of_wrongType {other : Kind} (hother : (store.view now key).kind? = some other)
    (hne : other ≠ .hash) {pairs : List (Bytes × Bytes)} (hpairs : pairs ≠ []) :
    store.execute now (spelling .hmset :: key :: pairs.flatMap fun pair => [pair.1, pair.2]) =
      (.error StoreError.wrongType.message, store) := by
  rw [execute_hmset hspelling now key hpairs, setFields_eq_onCell,
    onCell_of_wrongType hother hne]
  rfl

end Requests

-- Fields that are set by one request are set as they are by a request for each, in the same order.
-- All of these succeed unless the key has a value of another kind, and then all of them fail and
-- nothing is changed. If they succeed, the hash has as many fields as there are different ones
-- among those it had and those that were set. Each of the latter has the value that came last.
theorem field_writes_agree (store : Store) (now : Nat) (key : Bytes)
    {pairs : List (Bytes × Bytes)} (hpairs : pairs ≠ []) {spelling : Verb → Bytes}
    (hspelling : ∀ verb : Verb, verb.IsCalled (spelling verb)) :
    let together := store.execute now
      (spelling .hmset :: key :: pairs.flatMap fun pair => [pair.1, pair.2])
    let each := store.serve (pairs.map fun pair => (now, [spelling .hset, key, pair.1, pair.2]))
    let refusal := Reply.error StoreError.wrongType.message
    each.2 = together.2 ∧
    (together.1 = .ok ↔ ∀ reply ∈ each.1, reply = .integer 1) ∧
    (together.1 = .ok ↔ ∀ kind, (store.kind? now key).1 = some kind → kind = .hash) ∧
    (together.1 ≠ .ok → together = (refusal, store) ∧
      each = (List.replicate pairs.length refusal, store)) ∧
    (together.1 = .ok →
      (∃ fields, (store.execute now [spelling .hkeys, key]).1 = .ofBytesList fields ∧
        (together.2.execute now [spelling .hlen, key]).1 =
          .ofLength (fields ++ pairs.map Prod.fst).dedup.length) ∧
      (∀ before field value after, pairs = before ++ (field, value) :: after →
        field ∉ after.map Prod.fst →
        (together.2.execute now [spelling .hget, key, field]).1 = .bulk value) ∧
      ∀ field, field ∉ pairs.map Prod.fst →
        (together.2.execute now [spelling .hget, key, field]).1 =
          (store.execute now [spelling .hget, key, field]).1) := by
  intro together each refusal
  have hall (reply other : Reply) :
      (∀ given ∈ List.replicate pairs.length reply, given = other) ↔ reply = other := by
    simp [List.mem_replicate, hpairs]
  simp only [kind?_eq_view]
  by_cases hadmits : (store.view now key).Admits .hash
  · have htogether : together =
        (.ok, store.withFields now key ((store.view now key).fields.insertAll pairs)) :=
      execute_hmset_of_admits hspelling hadmits hpairs
    have heach : each = (List.replicate pairs.length (.integer 1),
        store.withFields now key ((store.view now key).fields.insertAll pairs)) :=
      serve_hset_of_admits hspelling hadmits hpairs
    have hafter := admits_withFields hadmits ((store.view now key).fields.insertAll pairs)
    rw [htogether, heach]
    refine ⟨rfl, iff_of_true rfl ((hall _ _).mpr rfl), iff_of_true rfl hadmits,
      fun hnot => absurd rfl hnot, fun _ => ⟨⟨_, fst_execute_hkeys hspelling hadmits, ?_⟩,
        fun before field value after hsplit hlast => ?_, fun field hfield => ?_⟩⟩
    · rw [fst_execute_hlen hspelling hafter, fields_view_withFields, ByteMap.size_insertAll]
    · rw [fst_execute_hget hspelling hafter, fields_view_withFields, hsplit,
        ByteMap.get?_insertAll_last hlast]
      rfl
    · rw [fst_execute_hget hspelling hafter, fields_view_withFields,
        ByteMap.get?_insertAll_of_not_mem hfield, fst_execute_hget hspelling hadmits]
  · obtain ⟨other, hother⟩ := not_forall.mp hadmits
    obtain ⟨hkind, hne⟩ := Classical.not_imp.mp hother
    have htogether : together = (refusal, store) :=
      execute_hmset_of_wrongType hspelling hkind hne hpairs
    have heach : each = (List.replicate pairs.length refusal, store) :=
      serve_hset_of_wrongType hspelling hkind hne pairs
    have hok : Reply.error StoreError.wrongType.message ≠ .ok := by rintro ⟨⟩
    have hone : Reply.error StoreError.wrongType.message ≠ .integer 1 := by rintro ⟨⟩
    rw [htogether, heach]
    exact ⟨rfl, iff_of_false hok fun hones => hone ((hall _ _).mp hones),
      iff_of_false hok hadmits, fun _ => ⟨rfl, rfl⟩, fun h => absurd h hok⟩

-- The key has a string until that is due, and then takes the fields.
theorem sessionStore_field_writes :
    let pairs : List (Bytes × Bytes) := [([97], [49]), ([98], [50]), ([97], [51])]
    let spelling := fun verb : Verb => Bytes.ofText verb.lowerName
    let together := fun now => sessionStore.execute now
      (spelling .hmset :: [115] :: pairs.flatMap fun pair => [pair.1, pair.2])
    let each := fun now => sessionStore.serve
      (pairs.map fun pair => (now, [spelling .hset, [115], pair.1, pair.2]))
    let later := Clock.seconds 20
    pairs ≠ [] ∧ (∀ verb : Verb, verb.IsCalled (spelling verb)) ∧
    (together 1).1 ≠ .ok ∧ each 1 = (List.replicate 3 (together 1).1, sessionStore) ∧
    (together later).1 = .ok ∧ (each later).2 = (together later).2 ∧
    ((together later).2.execute later [spelling .hget, [115], [97]]).1 = .bulk [51] := by
  intro pairs spelling together each later
  have hpairs : pairs ≠ [] := by decide
  have hspelling : ∀ verb : Verb, verb.IsCalled (spelling verb) := Verb.isCalled_lowerName
  obtain ⟨-, -, hrefused, hnothing, -⟩ :=
    field_writes_agree sessionStore 1 [115] hpairs hspelling
  obtain ⟨hsame, -, htaken, -, hread⟩ :=
    field_writes_agree sessionStore later [115] hpairs hspelling
  have hnot : (together 1).1 ≠ .ok := fun hok => by
    cases hrefused.mp hok .string (by decide +kernel)
  have hok : (together later).1 = .ok := htaken.mpr fun kind hkind => by
    have hnone : (sessionStore.kind? later [115]).1 = none := by decide +kernel
    cases hnone.symm.trans hkind
  obtain ⟨htogether, heach⟩ := hnothing hnot
  refine ⟨hpairs, hspelling, hnot, ?_, hok, hsame, ?_⟩
  · rw [show together 1 = _ from htogether]
    exact heach
  · exact (hread hok).2.1 [([97], [49]), ([98], [50])] [97] [51] [] rfl List.not_mem_nil

end Store

end KeyValue
