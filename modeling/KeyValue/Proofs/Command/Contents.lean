import KeyValue.Proofs.Command.Effect

namespace KeyValue

namespace Cell

-- A byte string that stands somewhere in the values under one key.
inductive Holds (cell : Cell) (data : Bytes) : Prop where
  | string (h : cell.string = some data)
  | item (h : data ∈ cell.items)
  | field {value : Bytes} (h : cell.fields.get? data = some value)
  | value {field : Bytes} (h : cell.fields.get? field = some data)

theorem not_holds_vacant (data : Bytes) : ¬vacant.Holds data := by
  intro h
  cases h with
  | string h => cases h
  | item h => cases h
  | field h => cases h
  | value h => cases h

theorem Holds.of_evict {now : Nat} {cell : Cell} {data : Bytes} (h : (cell.evict now).Holds data) :
    cell.Holds data := by
  unfold evict at h
  split at h
  · exact absurd h (not_holds_vacant data)
  · exact h

theorem eq_of_typedRead_eq_ok {α : Type} {kind : Kind} {read : Cell → α} {cell : Cell} {value : α}
    (h : (cell.typedRead kind read).1 = .ok value) : value = read cell := by
  unfold typedRead typed at h
  split at h
  · split at h
    · exact (Except.ok.inj h).symm
    · cases h
  · exact (Except.ok.inj h).symm

theorem holds_of_pop {side : Store.Side} {cell : Cell} {data : Bytes}
    (h : (cell.typed .list (pop side)).1 = .ok (some data)) : cell.Holds data := by
  have hpop : (pop side cell).1 = .ok (some data) := by
    unfold typed at h
    split at h
    · split at h
      · exact h
      · cases h
    · exact h
  unfold pop at hpop
  split at hpop
  · cases hpop
  · rename_i items hitems
    have hmem : data ∈ items := by
      cases side with
      | head => exact List.mem_of_head? (Except.ok.inj hpop)
      | tail => exact List.mem_of_getLast? (Except.ok.inj hpop)
    exact .item (by rw [Cell.items, hitems]; exact hmem)

end Cell

namespace Store

-- A byte string that stands somewhere in a store, be it as a key.
inductive Holds (store : Store) (data : Bytes) : Prop where
  | key (h : data ∈ store.keyspace.data.keys)
  | cell {key : Bytes} (h : (store.keyspace.cell key).Holds data)

end Store

namespace Reply

-- Data that a reply consists of, its texts apart.
def Carries (data : Bytes) : Reply → Prop
  | .bulk other => data = other
  | .array items => .bulk data ∈ items
  | _ => False

variable {data : Bytes}

theorem carries_ofOption {answer : Option Bytes} :
    (ofOption answer).Carries data ↔ answer = some data := by
  cases answer <;> simp [ofOption, Carries, eq_comm]

theorem carries_ofBytesList {items : List Bytes} :
    (ofBytesList items).Carries data ↔ data ∈ items := by
  simp [ofBytesList, Carries]

-- What holds of no error holds of the reply to an operation only if that has succeeded.
theorem exists_of_ofOutcome {α : Type} {render : α → Reply} {outcome : Except StoreError α}
    (P : Reply → Prop) (herror : ∀ text, ¬P (.error text)) (h : P (ofOutcome render outcome)) :
    ∃ value, outcome = .ok value ∧ P (render value) := by
  cases outcome with
  | error cause => exact absurd h (herror cause.message)
  | ok value => exact ⟨value, rfl, h⟩

end Reply

namespace Command

variable {α : Type} {now : Nat} {store : Store} {key data : Bytes}

theorem not_carries_ofOutcome {render : α → Reply} (hrender : ∀ value, ¬(render value).Carries data)
    (outcome : Except StoreError α) : ¬(Reply.ofOutcome render outcome).Carries data := by
  intro h
  obtain ⟨value, -, hvalue⟩ := Reply.exists_of_ofOutcome (Reply.Carries data) (fun _ => id) h
  exact hrender value hvalue

-- A command that reads the cell of a key tells nothing that is not there.
theorem holds_of_read {kind : Kind} {read : Cell → α} {render : α → Reply} {command : Command}
    (heffect : command.effect now =
      .onCell key (Cell.replying (.ofOutcome render) (Cell.typedRead kind read)))
    (hread : ∀ cell, (render (read cell)).Carries data → cell.Holds data)
    (h : (command.run now store).1.Carries data) : store.Holds data := by
  rw [run_eq_perform, heffect] at h
  obtain ⟨value, hvalue, hcarries⟩ :=
    Reply.exists_of_ofOutcome (Reply.Carries data) (fun _ => id) h
  rw [Cell.eq_of_typedRead_eq_ok hvalue] at hcarries
  exact .cell (hread _ hcarries).of_evict

theorem holds_of_mem_keys {pattern : Bytes} (h : data ∈ (store.keys now pattern).1) :
    store.Holds data := by
  have hpurged : data ∈ (store.keyspace.purge now).data.keys :=
    (List.mem_filter.mp ((Bytes.sort_perm _).mem_iff.mp h)).1
  rw [Keyspace.data_purge, Namespaces.keys, List.mem_append, List.mem_append] at hpurged
  refine .key ?_
  rw [Namespaces.keys, List.mem_append, List.mem_append]
  exact hpurged.imp (Or.imp ByteMap.mem_keys_of_mem_filter ByteMap.mem_keys_of_mem_filter)
    ByteMap.mem_keys_of_mem_filter

theorem carries_echoReply {message : Bytes} (h : (echoReply message).Carries data) :
    message = data := by
  unfold echoReply at h
  split at h
  · split at h
    · exact h.symm
    · cases h
  · exact h.symm

-- What a reply carries was stored before, unless it was to be echoed.
theorem run_carries {command : Command} (h : (command.run now store).1.Carries data) :
    store.Holds data ∨ command = .echo data := by
  cases command with
  | ping | flushAll => cases h
  | echo message => exact .inr (by rw [carries_echoReply h])
  | keys pattern => exact .inl (holds_of_mem_keys (Reply.carries_ofBytesList.mp h))
  | type key =>
      revert h
      simp only [run, answer, kindReply]
      split <;> rintro ⟨⟩
  | delete key => cases h
  | expire | rename | set | push | listLength | listRemove | listSet | setField | setFields
  | hasField | deleteField | hashSize =>
      exact absurd h (not_carries_ofOutcome (fun _ => id) _)
  | get key =>
      exact .inl (holds_of_read rfl (fun cell h => .string (Reply.carries_ofOption.mp h)) h)
  | pop side key =>
      rw [run_eq_perform] at h
      obtain ⟨value, hvalue, hcarries⟩ :=
        Reply.exists_of_ofOutcome (Reply.Carries data) (fun _ => id) h
      rw [Reply.carries_ofOption.mp hcarries] at hvalue
      exact .inl (.cell (Cell.holds_of_pop hvalue).of_evict)
  | listItems key =>
      exact .inl (holds_of_read rfl (fun cell h => .item (Reply.carries_ofBytesList.mp h)) h)
  | listIndex key index =>
      refine .inl (holds_of_read rfl (fun cell h => ?_) h)
      obtain ⟨position, -, hitem⟩ := Option.bind_eq_some_iff.mp (Reply.carries_ofOption.mp h)
      exact .item (List.mem_of_getElem? hitem)
  | getField key field =>
      exact .inl (holds_of_read rfl (fun cell h => .value (Reply.carries_ofOption.mp h)) h)
  | hashPairs key =>
      refine .inl (holds_of_read rfl (fun cell h => ?_) h)
      obtain ⟨⟨field, value⟩, hentry, hmem⟩ :=
        List.mem_flatMap.mp (Reply.carries_ofBytesList.mp h)
      have hfield : cell.fields.get? field = some value :=
        (ByteMap.get?_eq_some_iff _ _ _).mpr hentry
      simp only [List.mem_cons, List.not_mem_nil, or_false] at hmem
      rcases hmem with rfl | rfl
      · exact .field hfield
      · exact .value hfield
  | hashFields key =>
      refine .inl (holds_of_read rfl (fun cell h => ?_) h)
      obtain ⟨value, hvalue⟩ := ByteMap.mem_keys_iff.mp (Reply.carries_ofBytesList.mp h)
      exact .field hvalue
  | hashValues key =>
      refine .inl (holds_of_read rfl (fun cell h => ?_) h)
      have hvalues := (Bytes.sort_perm _).mem_iff.mp (Reply.carries_ofBytesList.mp h)
      obtain ⟨⟨field, value⟩, hentry, rfl⟩ := List.mem_map.mp hvalues
      exact .value ((ByteMap.get?_eq_some_iff _ _ _).mpr hentry)

-- The texts that do not come from a request.
def words : List String := ["OK", "PONG", "none", "string", "list", "hash"]

theorem run_text {command : Command} {text : String}
    (h : (command.run now store).1 = .simple text) :
    text ∈ words ∨ command = .echo (Bytes.ofText text) := by
  cases command with
  | ping | flushAll =>
      cases h
      exact .inl (by decide)
  | echo message =>
      simp only [run, echoReply] at h
      split at h
      · rename_i htext
        split at h
        · cases h
        · cases h
          rw [Bytes.ofText_of_toText? htext]
          exact .inr rfl
      · cases h
  | type key =>
      simp only [run, answer, kindReply] at h
      split at h
      · rename_i kind _
        cases h
        cases kind <;> exact .inl (by decide)
      · cases h
        exact .inl (by decide)
  | expire | rename | set | listSet | setFields =>
      obtain ⟨_, -, h⟩ := Reply.exists_of_ofOutcome (· = .simple text) (fun _ h => by cases h) h
      cases h
      exact .inl (by decide)
  | keys | delete => cases h
  | push | listLength | listItems | listRemove | setField | hasField | deleteField | hashPairs
  | hashFields | hashValues | hashSize =>
      obtain ⟨_, -, h⟩ := Reply.exists_of_ofOutcome (· = .simple text) (fun _ h => by cases h) h
      cases h
  | get | pop | listIndex | getField =>
      obtain ⟨value, -, h⟩ := Reply.exists_of_ofOutcome (· = .simple text) (fun _ h => by cases h) h
      cases value <;> cases h

theorem mem_of_ofArguments_eq_echo {verb : Verb} {arguments : List Bytes}
    (h : ofArguments verb arguments = .ok (.echo data)) : data ∈ arguments := by
  revert h
  unfold ofArguments
  split
  case h_2 =>
    rintro ⟨⟩
    exact List.mem_cons_self
  -- These four wait for an integer.
  case h_9 | h_19 | h_20 | h_21 =>
    intro h
    obtain ⟨_, h⟩ := exists_of_map_eq_ok h
    cases h
  case h_30 => split <;> rintro ⟨⟩
  all_goals rintro ⟨⟩

theorem mem_of_parse_eq_echo {tokens : List Bytes} (h : parse tokens = .ok (.echo data)) :
    data ∈ tokens := by
  cases tokens with
  | nil => cases h
  | cons name arguments =>
      simp only [parse] at h
      split at h
      · exact List.mem_cons_of_mem name (mem_of_ofArguments_eq_echo h)
      · cases h

end Command

namespace Store

variable {now : Nat} {store : Store} {tokens : List Bytes}

theorem execute_carries {data : Bytes} (h : (store.execute now tokens).1.Carries data) :
    store.Holds data ∨ data ∈ tokens := by
  unfold execute at h
  split at h
  · rename_i command hparse
    refine (Command.run_carries h).imp_right fun hecho => ?_
    exact Command.mem_of_parse_eq_echo (hecho ▸ hparse)
  · cases h

theorem execute_text {text : String} (h : (store.execute now tokens).1 = .simple text) :
    text ∈ Command.words ∨ Bytes.ofText text ∈ tokens := by
  unfold execute at h
  split at h
  · rename_i command hparse
    refine (Command.run_text h).imp_right fun hecho => ?_
    exact Command.mem_of_parse_eq_echo (hecho ▸ hparse)
  · cases h

end Store

end KeyValue
