import KeyValue.ByteMap

namespace KeyValue.ByteMap

variable {α : Type}

attribute [simp] get?_empty get?_insert get?_erase

-- Makes the look-up of one key what it is told to be.
def assign (map : ByteMap α) (key : Bytes) : Option α → ByteMap α
  | some value => map.insert key value
  | none => map.erase key

@[simp] theorem get?_assign (map : ByteMap α) (key other : Bytes) (value : Option α) :
    (map.assign key value).get? other = if other = key then value else map.get? other := by
  cases value <;> simp [assign]

theorem mem_keys_iff {map : ByteMap α} {key : Bytes} :
    key ∈ map.keys ↔ ∃ value, map.get? key = some value := by
  simp [keys, get?_eq_some_iff]

theorem mem_keys_iff_contains {map : ByteMap α} {key : Bytes} :
    key ∈ map.keys ↔ map.contains key = true := by
  rw [mem_keys_iff, contains, Option.isSome_iff_exists]

theorem nodup_keys (map : ByteMap α) : map.keys.Nodup := by
  refine List.pairwise_map.mpr (map.ascending.imp fun hlt hsame => ?_)
  rw [hsame] at hlt
  exact Std.lt_irrefl hlt

theorem mem_keys_of_mem_filter {map : ByteMap α} {keep : Bytes → α → Bool} {key : Bytes}
    (h : key ∈ (map.filter keep).keys) : key ∈ map.keys := by
  obtain ⟨entry, hentry, hkey⟩ := List.mem_map.mp h
  exact List.mem_map.mpr ⟨entry, (List.mem_filter.mp hentry).1, hkey⟩

theorem isEmpty_iff {map : ByteMap α} : map.isEmpty = true ↔ map = .empty := by
  constructor
  · intro h
    have hentries : map.entries = [] := by simpa [isEmpty] using h
    obtain ⟨entries, ascending⟩ := map
    subst hentries
    rfl
  · rintro rfl
    rfl

theorem insert_ne_empty (map : ByteMap α) (key : Bytes) (value : α) :
    map.insert key value ≠ .empty := by
  intro h
  have hget := congrArg (·.get? key) h
  simp at hget

theorem insertAll_ne_empty {map : ByteMap α} (h : map ≠ .empty) (pairs : List (Bytes × α)) :
    map.insertAll pairs ≠ .empty := by
  induction pairs generalizing map with
  | nil => exact h
  | cons pair rest ih => exact ih (insert_ne_empty map pair.1 pair.2)

theorem lookup_append (key : Bytes) (front back : List (Bytes × α)) :
    lookup key (front ++ back) = (lookup key front).or (lookup key back) := by
  induction front with
  | nil => rfl
  | cons head rest ih =>
      obtain ⟨other, value⟩ := head
      by_cases h : key = other <;> simp [lookup, h, ih]

-- No key occurs twice, so it does not matter from which end one looks.
theorem lookup_reverse (key : Bytes) {entries : List (Bytes × α)}
    (h : entries.Pairwise fun a b => a.1 < b.1) :
    lookup key entries.reverse = lookup key entries := by
  induction entries with
  | nil => rfl
  | cons head rest ih =>
      obtain ⟨other, value⟩ := head
      obtain ⟨hhead, hrest⟩ := List.pairwise_cons.mp h
      rw [List.reverse_cons, lookup_append, ih hrest]
      by_cases hkey : key = other
      · subst hkey
        simp [lookup, lookup_eq_none_of_lt hhead]
      · simp [lookup, hkey]

theorem insertAll_cons (map : ByteMap α) (pair : Bytes × α) (rest : List (Bytes × α)) :
    map.insertAll (pair :: rest) = (map.insert pair.1 pair.2).insertAll rest := rfl

-- The last of several pairs with the same key counts, and counts more than the map.
theorem get?_insertAll (map : ByteMap α) (pairs : List (Bytes × α)) (key : Bytes) :
    (map.insertAll pairs).get? key = (lookup key pairs.reverse).or (map.get? key) := by
  induction pairs generalizing map with
  | nil => rfl
  | cons pair rest ih =>
      rw [insertAll_cons, ih, get?_insert, List.reverse_cons, lookup_append]
      by_cases h : key = pair.1 <;> simp [lookup, h]

theorem mem_keys_insert {map : ByteMap α} {key other : Bytes} {value : α} :
    other ∈ (map.insert key value).keys ↔ other = key ∨ other ∈ map.keys := by
  simp only [mem_keys_iff, get?_insert]
  by_cases h : other = key <;> simp [h]

theorem mem_keys_insertAll {map : ByteMap α} {pairs : List (Bytes × α)} {key : Bytes} :
    key ∈ (map.insertAll pairs).keys ↔ key ∈ map.keys ∨ key ∈ pairs.map Prod.fst := by
  induction pairs generalizing map with
  | nil => simp [insertAll]
  | cons pair rest ih =>
      rw [insertAll_cons, ih, mem_keys_insert, List.map_cons, List.mem_cons, or_assoc, or_left_comm]

theorem get?_insertAll_of_not_mem {map : ByteMap α} {pairs : List (Bytes × α)} {key : Bytes}
    (h : key ∉ pairs.map Prod.fst) :
    (map.insertAll pairs).get? key = map.get? key := by
  induction pairs generalizing map with
  | nil => rfl
  | cons pair rest ih =>
      obtain ⟨hfirst, hrest⟩ := not_or.mp (mt List.mem_cons.mpr h)
      rw [insertAll_cons, ih hrest, get?_insert, if_neg hfirst]

theorem get?_insertAll_last {map : ByteMap α} {before after : List (Bytes × α)} {key : Bytes}
    {value : α} (h : key ∉ after.map Prod.fst) :
    (map.insertAll (before ++ (key, value) :: after)).get? key = some value := by
  have hsplit : map.insertAll (before ++ (key, value) :: after) =
      ((map.insertAll before).insert key value).insertAll after := List.foldl_append
  rw [hsplit, get?_insertAll_of_not_mem h, get?_insert, if_pos rfl]

theorem ofList_entries (map : ByteMap α) : ofList map.entries = map := by
  refine ext_get? fun key => ?_
  rw [ofList, get?_insertAll, lookup_reverse key map.ascending, get?_empty, Option.or_none, get?]

theorem size_filter (map : ByteMap α) (keep : Bytes → α → Bool) :
    (map.filter keep).size = map.entries.countP fun entry => keep entry.1 entry.2 :=
  List.countP_eq_length_filter.symm

theorem size_filter_of_forall {map : ByteMap α} {keep : Bytes → α → Bool}
    (h : ∀ key value, map.get? key = some value → keep key value = true) :
    (map.filter keep).size = map.size := by
  rw [size_filter, size, List.countP_eq_length]
  exact fun entry hentry => h entry.1 entry.2 ((map.get?_eq_some_iff ..).mpr hentry)

-- Entries whose keys ascend stand in the only order that sorting by key can give them.
theorem mergeSort_eq_of_ascending {before : Bytes × α → Bytes × α → Bool}
    {entries sorted : List (Bytes × α)}
    (htrans : ∀ a b c, before a b = true → before b c = true → before a c = true)
    (htotal : ∀ a b, (before a b || before b a) = true)
    (hkeys : ∀ a b, before a b = true → a.1 ≤ b.1)
    (hperm : entries.Perm sorted) (hsorted : sorted.Pairwise fun a b => a.1 < b.1) :
    entries.mergeSort before = sorted := by
  have hsort : (entries.mergeSort before).Perm sorted :=
    (List.mergeSort_perm entries before).trans hperm
  have hle : sorted.Pairwise fun a b => before a b = true := by
    refine hsorted.imp fun {a b} hlt => ?_
    have hboth := htotal a b
    rw [Bool.or_eq_true] at hboth
    refine hboth.resolve_right fun hback => ?_
    exact Std.lt_irrefl (Std.lt_of_lt_of_le hlt (hkeys b a hback))
  refine List.Perm.eq_of_pairwise (fun a b ha hb hab hba => ?_)
    (List.pairwise_mergeSort htrans htotal entries) hle hsort
  have hkey : a.1 = b.1 := Std.le_antisymm (hkeys a b hab) (hkeys b a hba)
  have hfirst := (lookup_eq_some_iff hsorted).mpr (hsort.mem_iff.mp ha)
  have hsecond := (lookup_eq_some_iff hsorted).mpr hb
  rw [hkey, hsecond] at hfirst
  exact Prod.ext hkey (Option.some.inj hfirst).symm

-- Maps with the same entries are the same.
theorem ext_entries {a b : ByteMap α} (h : a.entries = b.entries) : a = b := by
  obtain ⟨entries, ascending⟩ := a
  subst h
  rfl

end KeyValue.ByteMap
