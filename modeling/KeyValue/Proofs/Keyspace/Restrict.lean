import KeyValue.Proofs.Keyspace.Cell

namespace KeyValue.Keyspace

-- Only the keys that are to be kept, in every namespace and among the deadlines.
def restrict (keyspace : Keyspace) (keep : Bytes → Bool) : Keyspace where
  data := {
    strings := keyspace.data.strings.filter fun key _ => keep key
    lists := keyspace.data.lists.filter fun key _ => keep key
    hashes := keyspace.data.hashes.filter fun key _ => keep key }
  deadlines := keyspace.deadlines.filter fun key _ => keep key

-- Without those of the given keys that are due.
def dropDue (now : Nat) (keys : List Bytes) (keyspace : Keyspace) : Keyspace :=
  keyspace.restrict fun key => !(keys.contains key && keyspace.isDue now key)

variable (keyspace : Keyspace)

theorem cell_restrict (keep : Bytes → Bool) (key : Bytes) :
    (keyspace.restrict keep).cell key = if keep key then keyspace.cell key else .vacant := by
  have hfilter {α : Type} (map : ByteMap α) :
      (map.filter fun key _ => keep key).get? key = if keep key then map.get? key else none := by
    rw [ByteMap.get?_filter]
    cases keep key <;> cases map.get? key <;> rfl
  simp only [cell, restrict, Namespaces.slots, hfilter]
  cases keep key <;> rfl

theorem restrict_eq_restrict_iff {a b : Keyspace} {keep : Bytes → Bool} :
    a.restrict keep = b.restrict keep ↔ ∀ key, keep key = true → a.cell key = b.cell key := by
  constructor
  · intro h key hkeep
    have hcell := congrArg (·.cell key) h
    simpa only [cell_restrict, hkeep, if_true] using hcell
  · intro h
    refine ext_cell fun key => ?_
    rw [cell_restrict, cell_restrict]
    split
    · exact h key ‹_›
    · rfl

theorem cell_dropDue (now : Nat) (keys : List Bytes) (key : Bytes) :
    (keyspace.dropDue now keys).cell key =
      if key ∈ keys then (keyspace.cell key).evict now else keyspace.cell key := by
  rw [dropDue, cell_restrict, isDue_eq_cell]
  unfold Cell.evict
  by_cases hkey : key ∈ keys
  · cases h : (keyspace.cell key).isDue now <;> simp [hkey]
  · simp [hkey]

@[simp] theorem dropDue_nil (now : Nat) : keyspace.dropDue now [] = keyspace :=
  ext_cell fun key => by rw [cell_dropDue]; rfl

-- One key after the other or all at once: the result is the same.
theorem dropDue_cons (now : Nat) (first : Bytes) (rest : List Bytes) :
    keyspace.dropDue now (first :: rest) = (keyspace.evict now first).dropDue now rest := by
  refine ext_cell fun key => ?_
  simp only [cell_dropDue, evict_eq_put, cell_put_apply, List.mem_cons]
  by_cases hfirst : key = first
  · subst hfirst
    simp
  · simp [hfirst]

theorem dropDue_singleton (now : Nat) (key : Bytes) :
    keyspace.dropDue now [key] = keyspace.evict now key := by
  rw [dropDue_cons, dropDue_nil]

end KeyValue.Keyspace
