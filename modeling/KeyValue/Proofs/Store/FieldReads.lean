import KeyValue.Proofs.Store.FieldWrites
import KeyValue.Proofs.Store.Nonempty

namespace KeyValue

namespace ByteMap

variable {α : Type}

theorem mem_map_fst_entries {map : ByteMap α} {key : Bytes} :
    key ∈ map.entries.map Prod.fst ↔ map.contains key = true :=
  mem_keys_iff_contains

-- To erase a key is to leave out its entry.
theorem entries_erase (map : ByteMap α) (key : Bytes) :
    (map.erase key).entries = map.entries.filter fun entry => entry.1 ≠ key := by
  rw [erase, filter]
  refine List.filter_congr fun entry _ => ?_
  by_cases h : entry.1 = key <;> simp [h]

theorem entries_eq_nil_iff {map : ByteMap α} : map.entries = [] ↔ map = .empty := by
  rw [← isEmpty_iff, isEmpty, List.isEmpty_iff]

end ByteMap

namespace Cell

variable {cell : Cell}

@[simp] theorem fields_vacant : vacant.fields = .empty := rfl

theorem keepHash_empty (cell : Cell) : cell.keepHash .empty = vacant := rfl

theorem keepHash_of_ne {fields : ByteMap Bytes} (h : fields ≠ .empty) :
    cell.keepHash fields = cell.withFields fields := by
  rw [keepHash, if_neg (mt ByteMap.isEmpty_iff.mp h), withFields]

@[simp] theorem fields_keepHash (cell : Cell) (fields : ByteMap Bytes) :
    (cell.keepHash fields).fields = fields := by
  by_cases h : fields = .empty
  · rw [h, keepHash_empty, fields_vacant]
  · rw [keepHash_of_ne h]
    rfl

theorem isDue_keepHash {now : Nat} (h : cell.isDue now = false) (fields : ByteMap Bytes) :
    (cell.keepHash fields).isDue now = false := by
  by_cases hfields : fields = .empty
  · rw [hfields, keepHash_empty, isDue_vacant]
  · rw [keepHash_of_ne hfields]
    exact h

-- What is kept is a hash, and nothing is kept of a hash without fields.
theorem kind?_keepHash (h : cell.Admits .hash) (fields : ByteMap Bytes) :
    (cell.keepHash fields).kind? = if fields = .empty then none else some .hash := by
  by_cases hfields : fields = .empty
  · rw [hfields, keepHash_empty, if_pos rfl]
    rfl
  · rw [keepHash_of_ne hfields, if_neg hfields, h.withFields]

-- Without values of another kind there is nothing at all or a hash.
theorem WellFormed.vacant_or_hash (h : cell.WellFormed) (hadmits : cell.Admits .hash) :
    cell = vacant ∨ cell.kind? = some .hash := by
  cases hkind : cell.kind? with
  | none => exact .inl (h.eq_vacant hkind)
  | some kind => exact .inr (congrArg some (hadmits kind hkind))

theorem WellFormed.kind?_eq_hash_iff_fields (h : cell.WellFormed) (hadmits : cell.Admits .hash) :
    cell.kind? = some .hash ↔ cell.fields ≠ .empty := by
  constructor
  · intro hkind hempty
    refine (Slots.wellFormed_iff.mp h.slots).2.2 ?_
    rw [hash_of_kind? hkind, hempty]
  · intro hfields
    refine (h.vacant_or_hash hadmits).resolve_left fun hvacant => hfields ?_
    rw [hvacant, fields_vacant]

-- A key without a hash has no fields either, and nothing of it is left.
theorem WellFormed.deleteField_eq (h : cell.WellFormed) (hadmits : cell.Admits .hash)
    (field : Bytes) :
    cell.deleteField field =
      (.ok (cell.fields.contains field), cell.keepHash (cell.fields.erase field)) := by
  rcases h.vacant_or_hash hadmits with rfl | hkind
  · rfl
  · rw [Cell.deleteField, hash_of_kind? hkind]

end Cell

theorem Command.kindReply_eq_hash_iff {kind : Option Kind} :
    kindReply kind = .simple "hash" ↔ kind = some .hash := by
  cases kind with
  | none => simp [kindReply]
  | some kind => cases kind <;> simp [kindReply, Kind.name]

namespace Store

variable {store : Store} {now : Nat} {key : Bytes}

-- Leaves the key a hash with these fields, or nothing if there are none.
def keepFields (now : Nat) (key : Bytes) (fields : ByteMap Bytes) (store : Store) : Store :=
  (store.onCell now key fun cell => ((), cell.keepHash fields)).2

theorem cell_keepFields (now : Nat) (key : Bytes) (fields : ByteMap Bytes) (store : Store) :
    (store.keepFields now key fields).keyspace.cell key =
      (store.view now key).keepHash fields := by
  rw [keepFields, cell_onCell, if_pos rfl]

theorem view_keepFields (now : Nat) (key : Bytes) (fields : ByteMap Bytes) (store : Store) :
    (store.keepFields now key fields).view now key = (store.view now key).keepHash fields := by
  have hdue : (store.view now key).isDue now = false := Cell.isDue_evict now _
  rw [view, cell_keepFields, Cell.evict_of_not_due (Cell.isDue_keepHash hdue fields)]

theorem admits_keepFields (h : (store.view now key).Admits .hash) (fields : ByteMap Bytes) :
    ((store.keepFields now key fields).view now key).Admits .hash := by
  intro other hother
  rw [view_keepFields, Cell.kind?_keepHash h] at hother
  split at hother
  · cases hother
  · exact (Option.some.inj hother).symm

theorem gone_keepFields_iff (h : (store.view now key).Admits .hash) (fields : ByteMap Bytes) :
    (store.keepFields now key fields).keyspace.kind? key = none ∧
        (store.keepFields now key fields).keyspace.deadlines.get? key = none ↔
      fields = .empty := by
  have hcell := cell_keepFields now key fields store
  have hdeadline := congrArg Cell.deadline hcell
  rw [Keyspace.kind?_eq_cell, hcell, Cell.kind?_keepHash h]
  constructor
  · rintro ⟨hkind, -⟩
    by_contra hfields
    rw [if_neg hfields] at hkind
    cases hkind
  · rintro rfl
    exact ⟨if_pos rfl, hdeadline⟩

-- A key with fields was not due, so its deadline is the one that it had.
theorem kept_keepFields (h : (store.view now key).Admits .hash) {fields : ByteMap Bytes}
    (hbefore : (store.view now key).fields ≠ .empty) (hafter : fields ≠ .empty) :
    (store.keepFields now key fields).keyspace.kind? key = some .hash ∧
      (store.keepFields now key fields).keyspace.deadlines.get? key =
        store.keyspace.deadlines.get? key := by
  have hcell := cell_keepFields now key fields store
  have hview : store.view now key = store.keyspace.cell key := by
    refine (Cell.evict_cases _ now).resolve_left fun hgone => hbefore ?_
    rw [view, hgone, Cell.fields_vacant]
  refine ⟨?_, ?_⟩
  · rw [Keyspace.kind?_eq_cell, hcell, Cell.kind?_keepHash h, if_neg hafter]
  · rw [Cell.keepHash_of_ne hafter, hview] at hcell
    exact congrArg Cell.deadline hcell

theorem deleteField_of_admits (hstore : store.keyspace.WellFormed)
    (h : (store.view now key).Admits .hash) (field : Bytes) :
    store.deleteField now key field =
      (.ok ((store.view now key).fields.contains field),
        store.keepFields now key ((store.view now key).fields.erase field)) := by
  have hdelete : (store.view now key).typed .hash (Cell.deleteField field) =
      (.ok ((store.view now key).fields.contains field),
        (store.view now key).keepHash ((store.view now key).fields.erase field)) :=
    (Cell.typed_of_admits h _).trans ((view_wellFormed hstore now key).deleteField_eq h field)
  rw [view] at hdelete ⊢
  rw [deleteField_eq_onCell]
  simp only [onCell, keepFields, hdelete]

section Requests

variable {spelling : Verb → Bytes} (hspelling : ∀ verb : Verb, verb.IsCalled (spelling verb))

include hspelling

theorem fst_execute_hgetall (h : (store.view now key).Admits .hash) :
    (store.execute now [spelling .hgetall, key]).1 =
      .ofBytesList ((store.view now key).fields.entries.flatMap fun pair => [pair.1, pair.2]) :=
  (fst_execute_of_read (Command.parse_of_isCalled (hspelling .hgetall) _) rfl
    (hashPairs_eq_onCell now key store) h).trans rfl

theorem fst_execute_hvals (h : (store.view now key).Admits .hash) :
    (store.execute now [spelling .hvals, key]).1 =
      .ofBytesList (Bytes.sort (store.view now key).fields.values) :=
  fst_execute_of_read (Command.parse_of_isCalled (hspelling .hvals) _) rfl
    (hashValues_eq_onCell now key store) h

theorem fst_execute_hexists (h : (store.view now key).Admits .hash) (field : Bytes) :
    (store.execute now [spelling .hexists, key, field]).1 =
      .ofBool ((store.view now key).fields.contains field) :=
  fst_execute_of_read (Command.parse_of_isCalled (hspelling .hexists) _) rfl
    (hasField_eq_onCell now key store field) h

theorem fst_execute_type (now : Nat) (key : Bytes) (store : Store) :
    (store.execute now [spelling .type, key]).1 =
      Command.kindReply (store.view now key).kind? := by
  rw [execute_of_command (Command.parse_of_isCalled (hspelling .type) _), ← kind?_eq_view]
  rfl

theorem execute_hdel (hstore : store.keyspace.WellFormed)
    (h : (store.view now key).Admits .hash) (field : Bytes) :
    store.execute now [spelling .hdel, key, field] =
      (.ofBool ((store.view now key).fields.contains field),
        store.keepFields now key ((store.view now key).fields.erase field)) := by
  rw [execute_of_command (Command.parse_of_isCalled (hspelling .hdel) _), Command.run,
    Command.answer, deleteField_of_admits hstore h]
  rfl

end Requests

-- All that can be asked about a hash is about the same pairs, no two of them with the same field.
-- A key that is absent or due has none, and is not said to be a hash. A field that is deleted
-- takes its own pair with it and no other. The key goes with the last one, and so does its
-- deadline, which is kept otherwise.
theorem field_reads_agree {before : Nat} {store : Store} (hstore : Reachable before store)
    (now : Nat) (key : Bytes)
    (hkind : ∀ kind, (store.kind? now key).1 = some kind → kind = .hash)
    {spelling : Verb → Bytes} (hspelling : ∀ verb : Verb, verb.IsCalled (spelling verb)) :
    let ask := fun (verb : Verb) (more : List Bytes) (store : Store) =>
      (store.execute now (spelling verb :: key :: more)).1
    ∃ pairs : List (Bytes × Bytes),
      ask .hgetall [] store = .ofBytesList (pairs.flatMap fun pair => [pair.1, pair.2]) ∧
      (pairs.map Prod.fst).Nodup ∧
      (∀ field value, (field, value) ∈ pairs ↔ ask .hget [field] store = .bulk value) ∧
      (∀ field, ask .hexists [field] store = .ofBool (field ∈ pairs.map Prod.fst) ∧
        ask .hdel [field] store = .ofBool (field ∈ pairs.map Prod.fst)) ∧
      (∃ fields, ask .hkeys [] store = .ofBytesList fields ∧
        fields.Perm (pairs.map Prod.fst)) ∧
      (∃ values, ask .hvals [] store = .ofBytesList values ∧
        values.Perm (pairs.map Prod.snd)) ∧
      ask .hlen [] store = .ofLength pairs.length ∧
      (1 ≤ pairs.length ↔ ask .type [] store = .simple "hash") ∧
      ∀ field,
        let after := (store.execute now [spelling .hdel, key, field]).2
        let rest := pairs.filter fun pair => pair.1 ≠ field
        ask .hgetall [] after = .ofBytesList (rest.flatMap fun pair => [pair.1, pair.2]) ∧
        (after.keyspace.kind? key = none ∧ after.keyspace.deadlines.get? key = none ↔
          rest = []) ∧
        (rest ≠ [] → after.keyspace.kind? key = some .hash ∧
          after.keyspace.deadlines.get? key = store.keyspace.deadlines.get? key) := by
  intro ask
  have hvalid := hstore.wellFormed
  have hadmits : (store.view now key).Admits .hash := fun kind hview =>
    hkind kind ((kind?_eq_view now key store).trans hview)
  have hmem (field : Bytes) :
      ((store.view now key).fields.contains field : Bool) =
        decide (field ∈ (store.view now key).fields.entries.map Prod.fst) := by
    rw [Bool.eq_iff_iff, decide_eq_true_iff, ByteMap.mem_map_fst_entries]
  refine ⟨(store.view now key).fields.entries, fst_execute_hgetall hspelling hadmits,
    ByteMap.nodup_keys _, fun field value => ?_, fun field => ⟨?_, ?_⟩,
    ⟨_, fst_execute_hkeys hspelling hadmits, List.Perm.refl _⟩,
    ⟨_, fst_execute_hvals hspelling hadmits, Bytes.sort_perm _⟩,
    fst_execute_hlen hspelling hadmits, ?_, fun field => ?_⟩
  · rw [← ByteMap.get?_eq_some_iff]
    simp only [ask, fst_execute_hget hspelling hadmits]
    cases (store.view now key).fields.get? field <;> simp [Reply.ofOption]
  · simp only [ask, fst_execute_hexists hspelling hadmits, hmem]
  · simp only [ask, execute_hdel hspelling hvalid hadmits, hmem]
  · simp only [ask, fst_execute_type hspelling, Command.kindReply_eq_hash_iff]
    rw [(view_wellFormed hvalid now key).kind?_eq_hash_iff_fields hadmits, ← ByteMap.size_pos_iff]
    rfl
  · intro after rest
    have hafter : after =
        store.keepFields now key ((store.view now key).fields.erase field) :=
      congrArg Prod.snd (execute_hdel hspelling hvalid hadmits field)
    have hrest : rest = ((store.view now key).fields.erase field).entries :=
      (ByteMap.entries_erase _ field).symm
    rw [hafter, hrest, Ne, ByteMap.entries_eq_nil_iff]
    refine ⟨?_, gone_keepFields_iff hadmits _,
      fun hne => kept_keepFields hadmits (fun hempty => hne ?_) hne⟩
    · simp only [ask, fst_execute_hgetall hspelling (admits_keepFields hadmits _),
        view_keepFields, Cell.fields_keepHash]
    · rw [hempty]
      rfl

-- A hash with two fields and a deadline.
def profileRun : Store :=
  (Event.request [Bytes.ofText "EXPIRE", [104], [53]]).perform 4
    ((Event.request [Bytes.ofText "hmset", [104], [102], [49], [103], [49]]).perform 2 .empty)

theorem reachable_profileRun : Reachable 4 profileRun :=
  ((Reachable.start 0).step (show 0 ≤ 2 by decide) _).step (show 2 ≤ 4 by decide) _

-- The hash loses one of its fields and keeps its deadline. Once it is due it reads like a key that
-- never was, and is gone as soon as a field is to be deleted.
theorem profileRun_field_reads :
    let spelling := fun verb : Verb => Bytes.ofText verb.lowerName
    let ask := fun (now : Nat) (verb : Verb) (more : List Bytes) =>
      (profileRun.execute now (spelling verb :: [104] :: more)).1
    let after := fun now => (profileRun.execute now [spelling .hdel, [104], [102]]).2
    let later := Clock.seconds 6
    Reachable 4 profileRun ∧ (∀ verb : Verb, verb.IsCalled (spelling verb)) ∧
    (∀ now ∈ [5, later], ∀ kind, (profileRun.kind? now [104]).1 = some kind → kind = .hash) ∧
    (∃ pairs : List (Bytes × Bytes), ([103], [49]) ∈ pairs ∧
      ask 5 .hgetall [] = .ofBytesList (pairs.flatMap fun pair => [pair.1, pair.2]) ∧
      ask 5 .hlen [] = .ofLength pairs.length) ∧
    (after 5).keyspace.deadlines.get? [104] = profileRun.keyspace.deadlines.get? [104] ∧
    ask later .hgetall [] = .ofBytesList [] ∧ (after later).keyspace.kind? [104] = none := by
  intro spelling ask after later
  have hspelling : ∀ verb : Verb, verb.IsCalled (spelling verb) := Verb.isCalled_lowerName
  have hearly : (profileRun.kind? 5 [104]).1 = some .hash := by decide +kernel
  have hlate : (profileRun.kind? later [104]).1 = none := by decide +kernel
  have hearlyKind : ∀ kind, (profileRun.kind? 5 [104]).1 = some kind → kind = .hash :=
    fun kind hkind => Option.some.inj (hkind.symm.trans hearly)
  have hlateKind : ∀ kind, (profileRun.kind? later [104]).1 = some kind → kind = .hash :=
    fun kind hkind => by cases hlate.symm.trans hkind
  obtain ⟨pairs, hall, -, hget, -, -, -, hlen, -, hafter⟩ :=
    field_reads_agree reachable_profileRun 5 [104] hearlyKind hspelling
  obtain ⟨remnant, hnothing, -, -, -, -, -, -, htype, hgone⟩ :=
    field_reads_agree reachable_profileRun later [104] hlateKind hspelling
  have hread : ask 5 .hget [[103]] = .bulk [49] := by
    rw [kind?_eq_view] at hearly
    have hview : (profileRun.view 5 [104]).fields.get? [103] = some [49] := by decide +kernel
    refine (fst_execute_hget hspelling (fun kind hkind => ?_) [103]).trans (congrArg _ hview)
    exact Option.some.inj (hkind.symm.trans hearly)
  have hremnant : remnant = [] := by
    refine List.length_eq_zero_iff.mp (Nat.lt_one_iff.mp (Nat.not_le.mp (mt htype.mp ?_)))
    beta_reduce
    rw [fst_execute_type hspelling, ← kind?_eq_view, hlate, Command.kindReply_eq_hash_iff]
    rintro ⟨⟩
  have hkept : (after 5).keyspace.kind? [104] = some .hash := by decide +kernel
  refine ⟨reachable_profileRun, hspelling, ?_, ⟨pairs, (hget _ _).mpr hread, hall, hlen⟩, ?_, ?_,
    ?_⟩
  · simp only [List.forall_mem_cons]
    exact ⟨hearlyKind, hlateKind, by rintro _ ⟨⟩⟩
  · refine ((hafter [102]).2.2 fun hrest => ?_).2
    cases hkept.symm.trans ((hafter [102]).2.1.mpr hrest).1
  · rw [hremnant] at hnothing
    exact hnothing
  · exact ((hgone [102]).2.1.mpr (by rw [hremnant]; rfl)).1

end Store

end KeyValue
