import KeyValue.Proofs.Command.Failure
import KeyValue.Proofs.Command.Names

namespace KeyValue

variable {verb : Verb} {name other : Bytes} {arguments : List Bytes}

namespace Verb

theorem ofName?_eq_some_iff {text : String} : ofName? text = some verb ↔ verb.name = text := by
  constructor
  · intro h
    have hname := List.find?_some (p := fun verb : Verb => verb.name == text) h
    exact eq_of_beq hname
  · rintro rfl
    exact verb.ofName?_name

-- What is done with the arguments of a command that was called by its name.
def serve (verb : Verb) (now : Nat) (arguments : List Bytes) (store : Store) : Reply × Store :=
  match Command.ofArguments verb arguments with
  | .ok command => command.run now store
  | .error refusal => (.error refusal.message, store)

-- Only ASCII bytes are read as the letters of a name.
theorem isCalled_of_lossy (h : Text.lossy (name.map Bytes.upper) = verb.name.toList) :
    verb.IsCalled name := by
  obtain ⟨hascii, hname⟩ := verb.ofText_name
  have hupper : ∀ byte ∈ name.map Bytes.upper, byte < 128 := by
    refine Text.lossy_ascii_iff.mp fun char hchar => ?_
    rw [h, ← hname] at hchar
    obtain ⟨byte, hbyte, rfl⟩ := List.mem_map.mp hchar
    rw [Bytes.toNat_toChar (hascii byte hbyte)]
    exact UInt8.lt_iff_toNat_lt.mp (hascii byte hbyte)
  rw [Text.lossy_of_ascii hupper, ← hname] at h
  exact Bytes.map_toChar_inj hupper hascii h

end Verb

namespace Command

-- The letters of a name are put in upper case before or after it is read, with the same result.
theorem verb?_cons (name : Bytes) (arguments : List Bytes) :
    verb? (name :: arguments) =
      Verb.ofName? (String.ofList (Text.lossy (name.map Bytes.upper))) := by
  rw [verb?, Text.lossy_map_upper]

theorem verb?_eq_some_iff : verb? (name :: arguments) = some verb ↔ verb.IsCalled name := by
  refine ⟨fun h => Verb.isCalled_of_lossy ?_, fun h => verb?_of_isCalled h arguments⟩
  rw [verb?_cons, Verb.ofName?_eq_some_iff] at h
  rw [h, String.toList_ofList]

theorem verb?_eq_none_iff :
    verb? (name :: arguments) = none ↔ ∀ verb : Verb, ¬verb.IsCalled name := by
  rw [Option.eq_none_iff_forall_ne_some]
  exact forall_congr' fun verb => not_congr verb?_eq_some_iff

theorem parse_eq_match (name : Bytes) (arguments : List Bytes) :
    parse (name :: arguments) =
      match verb? (name :: arguments) with
      | some verb => ofArguments verb arguments
      | none => .error (.unknown (String.ofList (Text.lossy (name.map Bytes.upper)))) := by
  rw [verb?_cons, Text.lossy_map_upper]
  rfl

-- A command that is known may refuse its arguments, but not its name.
theorem refusal_of_ofArguments {refusal : Refusal}
    (h : ofArguments verb arguments = .error refusal) :
    (∃ verb, refusal = .wrongArity verb) ∨ refusal = .notAnInteger := by
  have hinteger {argument : Bytes} {make : Int64 → Command}
      (h : (integer argument).map make = .error refusal) : refusal = .notAnInteger := by
    unfold integer at h
    split at h <;> cases h
    rfl
  revert h
  unfold ofArguments
  split
  -- An argument that should be an integer, arguments that should be pairs, and too few of them.
  case h_9 | h_19 | h_20 | h_21 => exact fun h => .inr (hinteger h)
  case h_30 =>
    split
    · rintro ⟨⟩
    · rintro ⟨⟩
      exact .inl ⟨.hmset, rfl⟩
  case h_31 =>
    rintro ⟨⟩
    exact .inl ⟨_, rfl⟩
  all_goals rintro ⟨⟩

end Command

namespace Store

theorem execute_cons (now : Nat) (store : Store) (name : Bytes) (arguments : List Bytes) :
    store.execute now (name :: arguments) =
      match Command.verb? (name :: arguments) with
      | some verb => verb.serve now arguments store
      | none => (.error (Refusal.unknown
          (String.ofList (Text.lossy (name.map Bytes.upper)))).message, store) := by
  rw [execute, Command.parse_eq_match]
  cases Command.verb? (name :: arguments) with
  | some verb => rfl
  | none => rfl

-- No reply of a command that was recognized says that the command is unknown.
theorem serve_ne_unknown (now : Nat) (store : Store) (shown : String)
    (hverb : Command.verb? (name :: arguments) = some verb) :
    (store.execute now (name :: arguments)).1 ≠ .error (Refusal.unknown shown).message := by
  intro h
  rcases refused_or_failed h with ⟨refusal, hparse, htext⟩ | ⟨_, _, cause, htext, -⟩
  · have hletter := (Refusal.unknown shown).message_letter
    rw [htext, refusal.message_letter] at hletter
    rw [Command.parse_eq_match, hverb] at hparse
    rcases Command.refusal_of_ofArguments hparse with ⟨_, rfl⟩ | rfl
    · cases hletter
    · cases hletter
  · exact (Refusal.unknown shown).message_ne_message cause htext

-- A request calls the command whose name its first token is, in whatever letter case, and no
-- other bytes come to be taken for that name. All other requests are refused for their names,
-- which no command does, and change nothing. Letter case makes no difference to any of this.
theorem recognition_exact (now : Nat) (store : Store) (arguments : List Bytes) :
    (∀ name : Bytes,
      (∀ verb : Verb, Command.verb? (name :: arguments) = some verb ↔ verb.IsCalled name) ∧
      (∀ verb : Verb, verb.IsCalled name →
        store.execute now (name :: arguments) = verb.serve now arguments store) ∧
      ((∀ verb : Verb, ¬verb.IsCalled name) →
        store.execute now (name :: arguments) = (.error (Refusal.unknown
          (String.ofList (Text.lossy (name.map Bytes.upper)))).message, store)) ∧
      ((∃ shown, (store.execute now (name :: arguments)).1 =
          .error (Refusal.unknown shown).message) ↔ ∀ verb : Verb, ¬verb.IsCalled name)) ∧
    (∀ name other : Bytes, name.map Bytes.upper = other.map Bytes.upper →
      store.execute now (name :: arguments) = store.execute now (other :: arguments)) ∧
    store.execute now [] = (.error Refusal.empty.message, store) := by
  have hunknown (name : Bytes) (hnone : ∀ verb : Verb, ¬verb.IsCalled name) :
      store.execute now (name :: arguments) = (.error (Refusal.unknown
        (String.ofList (Text.lossy (name.map Bytes.upper)))).message, store) := by
    rw [execute_cons, Command.verb?_eq_none_iff.mpr hnone]
  refine ⟨fun name => ⟨fun verb => Command.verb?_eq_some_iff, fun verb hname => ?_,
    hunknown name, ?_, ?_⟩, fun name other hcase => ?_, execute_of_refusal rfl⟩
  · rw [execute_cons, Command.verb?_eq_some_iff.mpr hname]
  · rintro ⟨shown, hreply⟩
    cases hverb : Command.verb? (name :: arguments) with
    | none => exact Command.verb?_eq_none_iff.mp hverb
    | some verb => exact absurd hreply (serve_ne_unknown now store shown hverb)
  · intro hnone
    exact ⟨_, congrArg Prod.fst (hunknown name hnone)⟩
  · rw [execute_cons, execute_cons, Command.verb?_cons, Command.verb?_cons, hcase]

-- The first letter of the second name is no ASCII letter, though it is an S in upper case. The
-- last two names begin with a byte that begins no character.
theorem leaseStore_recognition :
    let long := Bytes.ofText "\u017fet"
    let broken : List Bytes := [[255, 112], [255, 80]]
    Verb.IsCalled .hlen (Bytes.ofText "hLeN") ∧
    leaseStore.execute 5 [Bytes.ofText "hLeN", [107]] = Verb.serve .hlen 5 [[107]] leaseStore ∧
    (∀ verb : Verb, ¬verb.IsCalled long) ∧
    leaseStore.execute 5 [long, [107]] =
      (.error "ERR unknown command '\u017fET'", leaseStore) ∧
    (broken[0]).map Bytes.upper = (broken[1]).map Bytes.upper ∧
    leaseStore.execute 5 [broken[0], [107]] = leaseStore.execute 5 [broken[1], [107]] := by
  intro long broken
  have hcalled : Verb.IsCalled .hlen (Bytes.ofText "hLeN") := by decide +kernel
  have hnone : ∀ verb : Verb, ¬verb.IsCalled long := by
    intro verb
    cases verb <;> decide +kernel
  have hmessage : (Refusal.unknown (String.ofList (Text.lossy (long.map Bytes.upper)))).message =
      "ERR unknown command '\u017fET'" := by decide +kernel
  have hcase : (broken[0]).map Bytes.upper = (broken[1]).map Bytes.upper := by decide +kernel
  obtain ⟨hnames, hcases, -⟩ := recognition_exact 5 leaseStore [[107]]
  obtain ⟨-, hserved, -, -⟩ := hnames (Bytes.ofText "hLeN")
  obtain ⟨-, -, hunknown, -⟩ := hnames long
  exact ⟨hcalled, hserved .hlen hcalled, hnone, hmessage ▸ hunknown hnone, hcase,
    hcases _ _ hcase⟩

end Store

end KeyValue
