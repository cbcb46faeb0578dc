import KeyValue.Proofs.Store.Operation

namespace KeyValue

namespace Command

-- The keys that a command is told to work on.
def named : Command → List Bytes
  | .ping | .echo _ | .flushAll | .keys _ => []
  | .type key | .delete key | .expire key _ | .set key _ | .get key
  | .push _ key _ | .pop _ key | .listLength key | .listItems key | .listRemove key _ _
  | .listIndex key _ | .listSet key _ _
  | .setField key _ _ | .setFields key _ | .getField key _ | .hasField key _ | .deleteField key _
  | .hashPairs key | .hashFields key | .hashValues key | .hashSize key => [key]
  | .rename old new => [old, new]

-- A request that is refused works on none.
def namedBy (tokens : List Bytes) : List Bytes :=
  match parse tokens with
  | .ok command => command.named
  | .error _ => []

end Command

namespace Reply

-- What a request that does not fail is answered with.
inductive Success : Reply → Prop where
  | line {text : String} (hreturn : '\r' ∉ text.toList) (hfeed : '\n' ∉ text.toList) :
      Success (.simple text)
  | integer (value : Int64) : Success (.integer value)
  | ofOption (data : Option Bytes) : Success (.ofOption data)
  | ofBytesList (items : List Bytes) : Success (.ofBytesList items)

theorem Success.ok : Success .ok := .line (by decide +kernel) (by decide +kernel)

theorem Success.isError_eq_false {reply : Reply} (h : reply.Success) : reply.isError = false := by
  cases h with
  | line => rfl
  | integer value => rfl
  | ofOption data => cases data <;> rfl
  | ofBytesList items => rfl

theorem exists_of_ofOutcome_eq_error {α : Type} {render : α → Reply} {text : String}
    {outcome : Except StoreError α} (hrender : ∀ value, (render value).Success)
    (h : ofOutcome render outcome = .error text) :
    ∃ cause, outcome = .error cause ∧ text = cause.message := by
  cases outcome with
  | error cause => exact ⟨cause, rfl, (Reply.error.inj h).symm⟩
  | ok value =>
      have herror := (hrender value).isError_eq_false
      rw [show render value = .error text from h] at herror
      cases herror

end Reply

namespace Command

open Store (Operation)

theorem echoReply_success (message : Bytes) : (echoReply message).Success := by
  unfold echoReply
  split
  · split
    · exact .ofOption (some message)
    · rename_i hline
      obtain ⟨hreturn, hfeed⟩ := not_or.mp hline
      exact .line hreturn hfeed
  · exact .ofOption (some message)

theorem kindReply_success (kind : Option Kind) : (kindReply kind).Success := by
  rcases kind with _ | _ | _ | _ <;> exact .line (by decide +kernel) (by decide +kernel)

-- A command cannot fail, or its reply tells how an operation on the same keys ended.
theorem cannot_fail_or_operation (command : Command) :
    (∀ now store, (command.run now store).1.Success) ∨
      ∃ (α : Type) (op : Operation α) (render : α → Reply),
        op.named = command.named ∧ (∀ value, (render value).Success) ∧
          ∀ now store,
            command.run now store = answer (.ofOutcome render) (op.perform now store) := by
  cases command with
  | ping => exact .inl fun _ _ => .line (by decide +kernel) (by decide +kernel)
  | echo message => exact .inl fun _ _ => echoReply_success message
  | flushAll => exact .inl fun _ _ => .ok
  | keys pattern => exact .inl fun _ _ => .ofBytesList _
  | type key => exact .inl fun _ _ => kindReply_success _
  | delete key => exact .inl fun _ _ => .integer _
  | expire key seconds =>
      exact .inr ⟨_, .expire key seconds, _, rfl, fun _ => .ok, fun _ _ => rfl⟩
  | rename old new => exact .inr ⟨_, .rename old new, _, rfl, fun _ => .ok, fun _ _ => rfl⟩
  | set key value => exact .inr ⟨_, .set key value, _, rfl, fun _ => .ok, fun _ _ => rfl⟩
  | get key => exact .inr ⟨_, .get key, _, rfl, .ofOption, fun _ _ => rfl⟩
  | push side key values =>
      exact .inr ⟨_, .push side key values, _, rfl, fun _ => .integer _, fun _ _ => rfl⟩
  | pop side key =>
      exact .inr ⟨_, .pop side key, _, rfl, .ofOption, fun _ _ => rfl⟩
  | listLength key => exact .inr ⟨_, .listLength key, _, rfl, fun _ => .integer _, fun _ _ => rfl⟩
  | listItems key => exact .inr ⟨_, .listItems key, _, rfl, .ofBytesList, fun _ _ => rfl⟩
  | listRemove key count value =>
      exact .inr ⟨_, .listRemove key count value, _, rfl, fun _ => .integer _, fun _ _ => rfl⟩
  | listIndex key index =>
      exact .inr ⟨_, .listIndex key index, _, rfl, .ofOption, fun _ _ => rfl⟩
  | listSet key index value =>
      exact .inr ⟨_, .listSet key index value, _, rfl, fun _ => .ok, fun _ _ => rfl⟩
  | setField key field value =>
      exact .inr ⟨_, .setField key field value, _, rfl, fun _ => .integer _, fun _ _ => rfl⟩
  | setFields key pairs =>
      exact .inr ⟨_, .setFields key pairs, _, rfl, fun _ => .ok, fun _ _ => rfl⟩
  | getField key field =>
      exact .inr ⟨_, .getField key field, _, rfl, .ofOption, fun _ _ => rfl⟩
  | hasField key field =>
      exact .inr ⟨_, .hasField key field, _, rfl, fun _ => .integer _, fun _ _ => rfl⟩
  | deleteField key field =>
      exact .inr ⟨_, .deleteField key field, _, rfl, fun _ => .integer _, fun _ _ => rfl⟩
  | hashPairs key => exact .inr ⟨_, .hashPairs key, _, rfl, fun _ => .ofBytesList _, fun _ _ => rfl⟩
  | hashFields key => exact .inr ⟨_, .hashFields key, _, rfl, .ofBytesList, fun _ _ => rfl⟩
  | hashValues key => exact .inr ⟨_, .hashValues key, _, rfl, .ofBytesList, fun _ _ => rfl⟩
  | hashSize key => exact .inr ⟨_, .hashSize key, _, rfl, fun _ => .integer _, fun _ _ => rfl⟩

end Command

end KeyValue
