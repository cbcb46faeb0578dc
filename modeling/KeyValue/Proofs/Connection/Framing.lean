import KeyValue.Proofs.Connection.Account
import KeyValue.Proofs.Request.RoundTrip
import KeyValue.Proofs.Request.Words
import Mathlib.Data.List.Forall2

namespace KeyValue.Connection

-- The same replies, the same end and the same store, whatever has been counted.
structure Transcript.Agree (first second : Transcript) : Prop where
  replies : first.replies = second.replies
  outcome : first.outcome = second.outcome
  store : first.store = second.store

-- Reads at the same instant that a conversation cannot tell apart, except by their lengths.
inductive Alike : Arrival → Arrival → Prop where
  | same (arrival : Arrival) : Alike arrival arrival
  | request (time : Nat) {data other : Bytes} (hdata : data ≠ []) (hother : other ≠ [])
      (h : Request.decode data = Request.decode other) : Alike ⟨time, .ok data⟩ ⟨time, .ok other⟩

instance : Std.Refl Alike := ⟨.same⟩

section

variable {failure : Option WriteFailure} {arrivals others : List Arrival}

-- Requests with the same tokens are executed to the same effect and answered alike.
theorem converse_agree_cons {data other : Bytes} (hdata : data ≠ []) (hother : other ≠ [])
    (h : Request.decode data = Request.decode other)
    (hrest : ∀ sent store counters counted,
      (converse sent failure store counters arrivals).Agree
        (converse sent failure store counted others))
    (time sent : Nat) (store : Store) (counters counted : Counters) :
    (converse sent failure store counters (⟨time, .ok data⟩ :: arrivals)).Agree
      (converse sent failure store counted (⟨time, .ok other⟩ :: others)) := by
  obtain ⟨first, data, rfl⟩ := List.exists_cons_of_ne_nil hdata
  obtain ⟨second, other, rfl⟩ := List.exists_cons_of_ne_nil hother
  cases hblocking : failure.filter (·.after ≤ sent) with
  | some blocking =>
      rw [converse_cons_of_failure _ _ _ _ _ _ hblocking,
        converse_cons_of_failure _ _ _ _ _ _ hblocking, h]
      exact ⟨rfl, rfl, rfl⟩
  | none =>
      rw [converse_cons _ _ _ _ _ _ hblocking, converse_cons _ _ _ _ _ _ hblocking, h]
      obtain ⟨hreplies, houtcome, hstore⟩ := hrest (sent + 1)
        (store.execute time (Request.decode (second :: other))).2 _ _
      exact ⟨congrArg (_ :: ·) hreplies, houtcome, hstore⟩

theorem converse_agree (h : List.Forall₂ Alike arrivals others) (sent : Nat) (store : Store)
    (counters counted : Counters) :
    (converse sent failure store counters arrivals).Agree
      (converse sent failure store counted others) := by
  induction h generalizing sent store counters counted with
  | nil => exact ⟨rfl, rfl, rfl⟩
  | @cons arrival _ _ _ hfirst _ ih =>
      cases hfirst with
      | same =>
          obtain ⟨time, result⟩ := arrival
          rcases result with cause | ⟨⟩ | ⟨first, data⟩
          · exact ⟨rfl, rfl, rfl⟩
          · exact ⟨rfl, rfl, rfl⟩
          · have hne : first :: data ≠ [] := List.cons_ne_nil first data
            exact converse_agree_cons hne hne rfl ih time sent store counters counted
      | request time hdata hother h =>
          exact converse_agree_cons hdata hother h ih time sent store counters counted

end

-- Words between blanks and an array of bulk strings are two framings of the same request. In
-- whatever conversation it stands, the client and the store cannot tell which was sent. The
-- array is one that can be in memory: its size is an unsigned 64-bit number.
theorem framings_agree {tokens : List Bytes} {line : Bytes} (hline : Request.Spaced tokens line)
    (htokens : tokens ≠ []) (hhead : line.head? ≠ some Sigil.array)
    (hsize : (Request.encode tokens).length < UInt64.size) :
    Request.decode line = tokens ∧ Request.decode (Request.encode tokens) = tokens ∧
    (∀ time store, Store.execute time (Request.decode line) store =
      Store.execute time (Request.decode (Request.encode tokens)) store) ∧
    ∀ failure store counters time before after,
      (serve failure store counters (before ++ ⟨time, .ok line⟩ :: after)).Agree
        (serve failure store counters
          (before ++ ⟨time, .ok (Request.encode tokens)⟩ :: after)) := by
  have hwords : Request.decode line = tokens := by
    rw [Request.decode, if_neg hhead]
    exact hline.ofWords_eq
  have harray : Request.decode (Request.encode tokens) = tokens := by
    have hdecode := Request.decode_encode_append hsize []
    rwa [List.append_nil] at hdecode
  have hsame : Request.decode line = Request.decode (Request.encode tokens) :=
    hwords.trans harray.symm
  refine ⟨hwords, harray, fun time store => by rw [hsame], ?_⟩
  intro failure store counters time before after
  have hnonempty : line ≠ [] := by
    rintro rfl
    exact htokens hline.ofWords_eq.symm
  have hframe : Request.encode tokens ≠ [] := by simp [Request.encode, Wire.line]
  have halike : List.Forall₂ Alike (before ++ ⟨time, .ok line⟩ :: after)
      (before ++ ⟨time, .ok (Request.encode tokens)⟩ :: after) :=
    List.rel_append (List.forall₂_refl before)
      (.cons (.request time hnonempty hframe hsame) (List.forall₂_refl after))
  have hagree :
      (converse 0 failure store counters.opened (before ++ ⟨time, .ok line⟩ :: after)).Agree
        (converse 0 failure store counters.opened
          (before ++ ⟨time, .ok (Request.encode tokens)⟩ :: after)) :=
    converse_agree halike 0 store counters.opened counters.opened
  exact ⟨hagree.replies, hagree.outcome, hagree.store⟩

-- A key and a value that hold a sigil, a digit, a quote of either kind, a vertical tab and a
-- byte that is no text, with blanks of every kind around them.
theorem framings_agree_set :
    let tokens : List Bytes := [[115, 101, 116], [36, 51, 11, 34], [255, 39]]
    let line : Bytes := [9, 32, 115, 101, 116, 13, 10, 36, 51, 11, 34, 12, 255, 39, 10]
    let array := Request.encode tokens
    Request.Spaced tokens line ∧ tokens ≠ [] ∧ line.head? ≠ some Sigil.array ∧
      array.length < UInt64.size ∧ Request.decode line = tokens ∧ Request.decode array = tokens ∧
      (serve none .empty .zero [⟨5, .ok line⟩, ⟨6, .ok line⟩]).Agree
        (serve none .empty .zero [⟨5, .ok line⟩, ⟨6, .ok array⟩]) := by
  intro tokens line array
  have hwords : Request.ofWords line = tokens := by decide
  have hline : Request.Spaced tokens line := hwords ▸ Request.spaced_ofWords line
  have htokens : tokens ≠ [] := by decide
  have hhead : line.head? ≠ some Sigil.array := by decide
  have hsize : array.length < UInt64.size := by decide +kernel
  obtain ⟨hdecode, harray, -, hserve⟩ := framings_agree hline htokens hhead hsize
  exact ⟨hline, htokens, hhead, hsize, hdecode, harray,
    hserve none .empty .zero 6 [⟨5, .ok line⟩] []⟩

end KeyValue.Connection
