import KeyValue.Proofs.Command.Operation

namespace KeyValue

-- What is wrong is told by the fifth character of the message.
def Refusal.letter : Refusal → Char
  | .empty => 'e'
  | .unknown _ => 'u'
  | .wrongArity _ => 'w'
  | .notAnInteger => 'v'

theorem Refusal.message_letter (refusal : Refusal) :
    refusal.message.toList[4]? = some refusal.letter := by
  have append {start rest : String} {char : Char} (h : start.toList[4]? = some char) :
      (start ++ rest).toList[4]? = some char := by
    have hlen : 4 < start.toList.length := (List.getElem?_eq_some_iff.mp h).choose
    rw [String.toList_append, List.getElem?_append_left hlen, h]
  have hunknown : "ERR unknown command '".toList[4]? = some 'u' := by decide +kernel
  have harity : "ERR wrong number of arguments for '".toList[4]? = some 'w' := by decide +kernel
  cases refusal with
  | empty => decide +kernel
  | unknown name => exact append (append hunknown)
  | wrongArity verb => exact append (append harity)
  | notAnInteger => decide +kernel

-- What is wrong with a request is never said in the words of what went wrong in the store.
theorem Refusal.message_ne_message (refusal : Refusal) (cause : StoreError) :
    refusal.message ≠ cause.message := by
  have hcause : cause.message.toList[4]? ∉ [some 'e', some 'u', some 'w', some 'v'] := by
    cases cause <;> decide +kernel
  intro h
  rw [← h, refusal.message_letter] at hcause
  cases refusal <;> simp [letter] at hcause

namespace Store

open Command (namedBy)

variable {now : Nat} {store : Store} {tokens : List Bytes} {text : String}

theorem execute_of_refusal {refusal : Refusal} (h : Command.parse tokens = .error refusal) :
    store.execute now tokens = (.error refusal.message, store) := by
  simp only [execute, h]

-- A request that comes to nothing was refused, or an operation on the keys it names failed.
theorem refused_or_failed (h : (store.execute now tokens).1 = .error text) :
    (∃ refusal : Refusal, Command.parse tokens = .error refusal ∧ text = refusal.message) ∨
      ∃ (α : Type) (op : Operation α) (cause : StoreError), text = cause.message ∧
        op.named = namedBy tokens ∧ (op.perform now store).1 = .error cause ∧
          (store.execute now tokens).2 = (op.perform now store).2 := by
  cases hparse : Command.parse tokens with
  | error refusal =>
      rw [execute_of_refusal hparse] at h
      exact .inl ⟨refusal, rfl, (Reply.error.inj h).symm⟩
  | ok command =>
      have hrun : store.execute now tokens = command.run now store := by
        simp only [execute, hparse]
      rw [hrun] at h ⊢
      rcases command.cannot_fail_or_operation with hnever | ⟨α, op, render, hnamed, hrender, hop⟩
      · have hfalse := (hnever now store).isError_eq_false
        rw [h] at hfalse
        cases hfalse
      · rw [hop] at h ⊢
        obtain ⟨cause, hcause, htext⟩ := Reply.exists_of_ofOutcome_eq_error hrender h
        have hkeys : op.named = namedBy tokens := by simp only [namedBy, hparse, hnamed]
        exact .inr ⟨α, op, cause, htext, hkeys, hcause, rfl⟩

-- An operation that fails takes away those of its keys that are due, or nothing at all if it
-- asks for a deadline that does not exist. A request whose reply is an error changes no more
-- than that, and nothing if the request itself was at fault.
theorem failure_drops_only_due (now : Nat) (store : Store) :
    (∀ (α : Type) (op : Operation α) (cause : StoreError),
      (op.perform now store).1 = .error cause →
        (cause = .invalidExpire → (op.perform now store).2 = store) ∧
        (cause ≠ .invalidExpire →
          (op.perform now store).2.keyspace = store.keyspace.dropDue now op.named)) ∧
    ∀ (tokens : List Bytes) (text : String), (store.execute now tokens).1 = .error text →
      ((∃ refusal : Refusal, text = refusal.message) ∨ text = StoreError.invalidExpire.message →
        (store.execute now tokens).2 = store) ∧
      (text ≠ StoreError.invalidExpire.message →
        (store.execute now tokens).2.keyspace =
          store.keyspace.dropDue now (namedBy tokens)) := by
  refine ⟨fun α op cause h => ?_, fun tokens text h => ?_⟩
  · rcases Operation.perform_of_error h with ⟨hcause, hsame⟩ | ⟨hcause, hdrop⟩
    · exact ⟨fun _ => hsame, fun hne => absurd hcause hne⟩
    · exact ⟨fun heq => absurd heq hcause, fun _ => hdrop⟩
  · rcases refused_or_failed h with
      ⟨refusal, hparse, htext⟩ | ⟨α, op, cause, htext, hnamed, hfail, hafter⟩
    · have hsame : (store.execute now tokens).2 = store := by rw [execute_of_refusal hparse]
      have hnone : namedBy tokens = [] := by simp only [namedBy, hparse]
      refine ⟨fun _ => hsame, fun _ => ?_⟩
      rw [hsame, hnone, Keyspace.dropDue_nil]
    · rw [hafter, ← hnamed]
      rcases Operation.perform_of_error hfail with ⟨hcause, hsame⟩ | ⟨hcause, hdrop⟩
      · subst hcause
        exact ⟨fun _ => hsame, fun hne => absurd htext hne⟩
      · refine ⟨?_, fun _ => hdrop⟩
        rintro (⟨refusal, hrefusal⟩ | hexpire)
        · exact absurd (hrefusal.symm.trans htext) (refusal.message_ne_message cause)
        · refine absurd ?_ hcause
          rw [htext] at hexpire
          revert hexpire
          cases cause <;> decide +kernel

-- A list that is due after a second, and a string that is never due.
def leaseStore : Store :=
  (((empty.push .tail 0 [113] [[97]]).2.expire 0 [113] 1).2.set 0 [107] [118]).2

-- There is nothing left to rename, and the list goes. A request that is no command finds it
-- due and leaves it there.
theorem leaseStore_failures :
    let later := Clock.seconds 2
    let lset := [Bytes.ofText "LSET", [113], Bytes.ofText "zero", [118]]
    ((Operation.rename [113] [107]).perform later leaseStore).1 = .error .noSuchKey ∧
    ((Operation.rename [113] [107]).perform later leaseStore).2.keyspace =
      leaseStore.keyspace.dropDue later [[113], [107]] ∧
    leaseStore.keyspace.isDue later [113] = true ∧
    (leaseStore.execute later lset).1 = .error Refusal.notAnInteger.message ∧
    (leaseStore.execute later lset).2 = leaseStore := by
  intro later lset
  have hrename : ((Operation.rename [113] [107]).perform later leaseStore).1 =
      .error .noSuchKey := rfl
  have hlset : (leaseStore.execute later lset).1 = .error Refusal.notAnInteger.message :=
    congrArg Prod.fst (execute_of_refusal rfl)
  obtain ⟨operations, requests⟩ := failure_drops_only_due later leaseStore
  exact ⟨hrename, (operations _ _ _ hrename).2 (by decide), by decide +kernel, hlset,
    (requests _ _ hlset).1 (.inl ⟨_, rfl⟩)⟩

end Store

end KeyValue
