import KeyValue.Proofs.Store.Alike

namespace KeyValue

-- Commands with these names only look at what is stored.
def Verb.readsOnly : Verb → Bool
  | .ping | .echo | .keys | .type | .get | .llen | .lget | .lindex
  | .hget | .hexists | .hgetall | .hkeys | .hvals | .hlen => true
  | _ => false

namespace Command

def ReadsOnly : Command → Prop
  | .ping | .echo _ | .keys _ | .type _ | .get _
  | .listLength _ | .listItems _ | .listIndex _ _
  | .getField _ _ | .hasField _ _ | .hashPairs _ | .hashFields _ | .hashValues _
  | .hashSize _ => True
  | _ => False

-- The verb that a request calls, whatever follows it.
def verb? : List Bytes → Option Verb
  | [] => none
  | name :: _ => Verb.ofName? (String.ofList ((Text.lossy name).map Char.toUpper))

theorem effect_idle {command : Command} (h : command.ReadsOnly) (now : Nat) :
    (command.effect now).Idle := by
  cases command with
  | ping | echo | keys => trivial
  | type key => exact fun cell => rfl
  | get | listLength | listItems | listIndex | getField | hasField | hashPairs | hashFields
  | hashValues | hashSize => exact fun cell => Cell.snd_typedRead _ _ cell
  | flushAll | delete | expire | rename | set | push | pop | listRemove | listSet | setField
  | setFields | deleteField => cases h

theorem readsOnly_of_ofArguments {verb : Verb} {arguments : List Bytes}
    (h : verb.readsOnly = true) :
    ∀ command, ofArguments verb arguments = .ok command → command.ReadsOnly := by
  revert h
  unfold ofArguments
  split
  all_goals simp only [Verb.readsOnly, Bool.false_eq_true, false_imp_iff, Except.ok.injEq,
    reduceCtorEq, forall_eq', ReadsOnly, implies_true]
  -- Only an index may fail to be understood.
  case h_20 =>
    intro _ command hcommand
    obtain ⟨index, rfl⟩ := exists_of_map_eq_ok hcommand
    trivial

theorem effectOf_idle {tokens : List Bytes} {verb : Verb} (hverb : verb? tokens = some verb)
    (h : verb.readsOnly = true) (now : Nat) : (effectOf now tokens).Idle := by
  unfold effectOf
  split
  · rename_i command hcommand
    refine effect_idle ?_ now
    cases tokens with
    | nil => cases hverb
    | cons name arguments =>
        simp only [verb?] at hverb
        simp only [parse, hverb] at hcommand
        exact readsOnly_of_ofArguments h command hcommand
  · trivial

end Command

end KeyValue
