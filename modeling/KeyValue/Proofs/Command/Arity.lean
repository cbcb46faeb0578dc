import KeyValue.Proofs.Command.Failure
import KeyValue.Proofs.Command.Names
import KeyValue.Proofs.Request.Truncation

namespace KeyValue

-- How many arguments a command needs. KEYS also works without its pattern, and the others
-- that are left out take any number of values or pairs.
def Verb.arity? : Verb → Option Nat
  | .ping | .flushAll => some 0
  | .echo | .type | .del | .unlink | .get | .lpop | .rpop | .llen | .lget
  | .hgetall | .hkeys | .hvals | .hlen => some 1
  | .expire | .rename | .set | .lindex | .hget | .hexists | .hdel => some 2
  | .lrem | .lset | .hset => some 3
  | .keys | .lpush | .rpush | .hmset => none

namespace Command

theorem integer_map_ne_wrongArity (argument : Bytes) (make : Int64 → Command) (verb : Verb) :
    (integer argument).map make ≠ .error (.wrongArity verb) := by
  unfold integer
  split <;> rintro ⟨⟩

-- A command is refused for the number of its arguments exactly if there are too few of them.
theorem ofArguments_eq_wrongArity_iff {verb : Verb} {arity : Nat} (h : verb.arity? = some arity)
    (arguments : List Bytes) :
    ofArguments verb arguments = .error (.wrongArity verb) ↔ arguments.length < arity := by
  cases verb with
  | keys | lpush | rpush | hmset => cases h
  | _ =>
      cases h
      rcases arguments with _ | ⟨first, _ | ⟨second, _ | ⟨third, rest⟩⟩⟩ <;>
        simp [ofArguments, integer_map_ne_wrongArity]

end Command

namespace Store

open Request (decode encode)

variable {verb : Verb} {name bytes : Bytes} {arguments : List Bytes} {arity : Nat}

-- A request that is cut off anywhere is refused and changes nothing, if its command needs all
-- of its arguments: the tokens that have arrived whole are too few, or there are none.
theorem truncated_request_refused (hname : verb.IsCalled name) (harity : verb.arity? = some arity)
    (hcount : arguments.length = arity) (harrived : bytes <+: encode (name :: arguments))
    (hcut : bytes ≠ encode (name :: arguments)) (now : Nat) (store : Store) :
    ∃ refusal : Refusal, (refusal = .empty ∨ refusal = .wrongArity verb) ∧
      store.execute now (decode bytes) = (.error refusal.message, store) := by
  obtain ⟨hread, hfewer⟩ := Request.decode_of_prefix harrived hcut (List.cons_ne_nil name arguments)
  cases htokens : decode bytes with
  | nil => exact ⟨.empty, .inl rfl, execute_of_refusal rfl⟩
  | cons first rest =>
      rw [htokens] at hread hfewer
      obtain ⟨rfl, -⟩ := List.cons_prefix_cons.mp hread
      have hrest : rest.length < arity := by
        simp only [List.length_cons] at hfewer
        omega
      have hverb := Command.verb?_of_isCalled hname rest
      have hparse : Command.parse (first :: rest) = .error (.wrongArity verb) := by
        simp only [Command.verb?] at hverb
        simp only [Command.parse, hverb]
        exact (Command.ofArguments_eq_wrongArity_iff harity rest).mpr hrest
      exact ⟨.wrongArity verb, .inr rfl, execute_of_refusal hparse⟩

-- The cut is in the line end after the second argument, whose data looks like frames.
theorem truncated_hset_refused :
    let arguments : List Bytes := [[107], Bytes.ofText "\r\n$1\r\n", [118]]
    let request := encode (Bytes.ofText "hSeT" :: arguments)
    Verb.IsCalled .hset (Bytes.ofText "hSeT") ∧ Verb.arity? .hset = some arguments.length ∧
      request.take 32 <+: request ∧ request.take 32 ≠ request ∧
      decode (request.take 32) = [Bytes.ofText "hSeT", [107]] ∧
      ∃ refusal : Refusal, (refusal = .empty ∨ refusal = .wrongArity .hset) ∧
        leaseStore.execute 5 (decode (request.take 32)) = (.error refusal.message, leaseStore) := by
  intro arguments request
  have hname : Verb.IsCalled .hset (Bytes.ofText "hSeT") := by decide +kernel
  have hcut : request.take 32 ≠ request := by decide +kernel
  exact ⟨hname, rfl, List.take_prefix 32 request, hcut, by decide +kernel,
    truncated_request_refused hname rfl rfl (List.take_prefix 32 request) hcut 5 leaseStore⟩

end Store

end KeyValue
