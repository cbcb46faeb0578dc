import KeyValue.Bytes

namespace KeyValue

-- A finite map from byte strings. The entries stand in strictly ascending key order, so a
-- key occurs at most once and two maps with the same look-ups are equal.
structure ByteMap (α : Type) where
  entries : List (Bytes × α)
  ascending : entries.Pairwise fun a b => a.1 < b.1
deriving DecidableEq

namespace ByteMap

variable {α : Type}

def empty : ByteMap α := ⟨[], List.Pairwise.nil⟩

instance : EmptyCollection (ByteMap α) := ⟨empty⟩
instance : Inhabited (ByteMap α) := ⟨empty⟩

def lookup (key : Bytes) : List (Bytes × α) → Option α
  | [] => none
  | (other, value) :: rest => if key = other then some value else lookup key rest

def get? (map : ByteMap α) (key : Bytes) : Option α := lookup key map.entries

def contains (map : ByteMap α) (key : Bytes) : Bool := (map.get? key).isSome

def size (map : ByteMap α) : Nat := map.entries.length

def isEmpty (map : ByteMap α) : Bool := map.entries.isEmpty

def keys (map : ByteMap α) : List Bytes := map.entries.map Prod.fst

def values (map : ByteMap α) : List α := map.entries.map Prod.snd

-- Puts the entry at its place in the order, over an entry with the same key.
def place (key : Bytes) (value : α) : List (Bytes × α) → List (Bytes × α)
  | [] => [(key, value)]
  | (other, old) :: rest =>
      if other < key then (other, old) :: place key value rest
      else if key = other then (key, value) :: rest
      else (key, value) :: (other, old) :: rest

theorem mem_place {key : Bytes} {value : α} {entries : List (Bytes × α)} {entry : Bytes × α}
    (h : entry ∈ place key value entries) : entry = (key, value) ∨ entry ∈ entries := by
  induction entries with
  | nil => simpa [place] using h
  | cons head rest ih =>
      obtain ⟨other, old⟩ := head
      simp only [place] at h
      split at h
      · rcases List.mem_cons.mp h with rfl | h
        · exact Or.inr (List.mem_cons_self ..)
        · exact (ih h).imp_right (List.mem_cons_of_mem _)
      · split at h
        · rcases List.mem_cons.mp h with rfl | h
          · exact Or.inl rfl
          · exact Or.inr (List.mem_cons_of_mem _ h)
        · rcases List.mem_cons.mp h with rfl | h
          · exact Or.inl rfl
          · exact Or.inr h

theorem place_ascending (key : Bytes) (value : α) {entries : List (Bytes × α)}
    (h : entries.Pairwise fun a b => a.1 < b.1) :
    (place key value entries).Pairwise fun a b => a.1 < b.1 := by
  induction entries with
  | nil => simp [place]
  | cons head rest ih =>
      obtain ⟨other, old⟩ := head
      obtain ⟨hhead, hrest⟩ := List.pairwise_cons.mp h
      simp only [place]
      split
      · rename_i hlt
        refine List.pairwise_cons.mpr ⟨fun entry hentry => ?_, ih hrest⟩
        rcases mem_place hentry with rfl | hentry
        · exact hlt
        · exact hhead entry hentry
      · split
        · rename_i hkey
          subst hkey
          exact List.pairwise_cons.mpr ⟨hhead, hrest⟩
        · rename_i hle hne
          have hlt : key < other := Std.lt_of_le_of_ne (List.not_lt.mp hle) hne
          refine List.pairwise_cons.mpr ⟨fun entry hentry => ?_, h⟩
          rcases List.mem_cons.mp hentry with rfl | hentry
          · exact hlt
          · exact Std.lt_trans hlt (hhead entry hentry)

def insert (map : ByteMap α) (key : Bytes) (value : α) : ByteMap α :=
  ⟨place key value map.entries, place_ascending key value map.ascending⟩

def filter (map : ByteMap α) (keep : Bytes → α → Bool) : ByteMap α :=
  ⟨map.entries.filter fun entry => keep entry.1 entry.2, map.ascending.filter _⟩

def erase (map : ByteMap α) (key : Bytes) : ByteMap α := map.filter fun other _ => other != key

-- Inserts the pairs from left to right, so the last value of a repeated key stays.
def insertAll (map : ByteMap α) (pairs : List (Bytes × α)) : ByteMap α :=
  pairs.foldl (fun map pair => map.insert pair.1 pair.2) map

def ofList (pairs : List (Bytes × α)) : ByteMap α := insertAll empty pairs

theorem get?_empty (key : Bytes) : (empty : ByteMap α).get? key = none := rfl

theorem lookup_place (key other : Bytes) (value : α) (entries : List (Bytes × α)) :
    lookup other (place key value entries) =
      if other = key then some value else lookup other entries := by
  induction entries with
  | nil => simp [place, lookup]
  | cons head rest ih =>
      obtain ⟨first, old⟩ := head
      simp only [place]
      split
      · rename_i hlt
        have hne : first ≠ key := fun h => Std.lt_irrefl (h ▸ hlt)
        simp only [lookup, ih]
        by_cases ho : other = first
        · subst ho
          simp [hne]
        · simp [ho]
      · split
        · rename_i hkey
          subst hkey
          simp only [lookup]
          split <;> rfl
        · simp only [lookup]

theorem get?_insert (map : ByteMap α) (key other : Bytes) (value : α) :
    (map.insert key value).get? other = if other = key then some value else map.get? other :=
  lookup_place key other value map.entries

-- Nothing is found under a key that stands before all entries.
theorem lookup_eq_none_of_lt {key : Bytes} {entries : List (Bytes × α)}
    (h : ∀ entry ∈ entries, key < entry.1) : lookup key entries = none := by
  induction entries with
  | nil => rfl
  | cons head rest ih =>
      have hne : key ≠ head.1 := fun heq => Std.lt_irrefl (heq ▸ h head (List.mem_cons_self ..))
      simp only [lookup, hne, if_false]
      exact ih fun entry hentry => h entry (List.mem_cons_of_mem _ hentry)

theorem lookup_filter (other : Bytes) (keep : Bytes → α → Bool) {entries : List (Bytes × α)}
    (h : entries.Pairwise fun a b => a.1 < b.1) :
    lookup other (entries.filter fun entry => keep entry.1 entry.2) =
      (lookup other entries).filter (keep other) := by
  induction entries with
  | nil => rfl
  | cons head rest ih =>
      obtain ⟨first, old⟩ := head
      obtain ⟨hhead, hrest⟩ := List.pairwise_cons.mp h
      simp only [List.filter_cons]
      by_cases ho : other = first
      · subst ho
        have hnone := lookup_eq_none_of_lt hhead
        cases hk : keep other old
        · simp [lookup, ih hrest, hnone, Option.filter, hk]
        · simp [lookup, Option.filter, hk]
      · cases hk : keep first old <;> simp [lookup, ho, ih hrest]

theorem get?_filter (map : ByteMap α) (keep : Bytes → α → Bool) (key : Bytes) :
    (map.filter keep).get? key = (map.get? key).filter (keep key) :=
  lookup_filter key keep map.ascending

theorem get?_erase (map : ByteMap α) (key other : Bytes) :
    (map.erase key).get? other = if other = key then none else map.get? other := by
  rw [erase, get?_filter]
  by_cases h : other = key
  · subst h
    cases map.get? other <;> simp [Option.filter]
  · have hkeep : (other != key) = true := by simpa using h
    cases map.get? other <;> simp [Option.filter, hkeep, h]

theorem lookup_eq_some_iff {key : Bytes} {value : α} {entries : List (Bytes × α)}
    (h : entries.Pairwise fun a b => a.1 < b.1) :
    lookup key entries = some value ↔ (key, value) ∈ entries := by
  induction entries with
  | nil => simp [lookup]
  | cons head rest ih =>
      obtain ⟨first, old⟩ := head
      obtain ⟨hhead, hrest⟩ := List.pairwise_cons.mp h
      by_cases hkey : key = first
      · subst hkey
        have hnot : (key, value) ∉ rest := fun hmem => Std.lt_irrefl (hhead (key, value) hmem)
        simp [lookup, hnot, eq_comm]
      · simp [lookup, hkey, ih hrest]

theorem get?_eq_some_iff (map : ByteMap α) (key : Bytes) (value : α) :
    map.get? key = some value ↔ (key, value) ∈ map.entries :=
  lookup_eq_some_iff map.ascending

-- An ascending list is determined by its members.
theorem ascending_ext {a b : List (Bytes × α)} (ha : a.Pairwise fun x y => x.1 < y.1)
    (hb : b.Pairwise fun x y => x.1 < y.1) (h : ∀ entry, entry ∈ a ↔ entry ∈ b) : a = b := by
  induction a generalizing b with
  | nil =>
      cases b with
      | nil => rfl
      | cons head rest => exact absurd ((h head).mpr (List.mem_cons_self ..)) List.not_mem_nil
  | cons first as ih =>
      obtain ⟨hfirst, has⟩ := List.pairwise_cons.mp ha
      cases b with
      | nil => exact absurd ((h first).mp (List.mem_cons_self ..)) List.not_mem_nil
      | cons second bs =>
          obtain ⟨hsecond, hbs⟩ := List.pairwise_cons.mp hb
          have heads : first = second := by
            rcases List.mem_cons.mp ((h first).mp (List.mem_cons_self ..)) with heq | hin
            · exact heq
            rcases List.mem_cons.mp ((h second).mpr (List.mem_cons_self ..)) with heq | hin'
            · exact heq.symm
            exact absurd (Std.lt_trans (hsecond _ hin) (hfirst _ hin')) Std.lt_irrefl
          subst heads
          refine congrArg (first :: ·) (ih has hbs fun entry => ⟨fun hin => ?_, fun hin => ?_⟩)
          · rcases List.mem_cons.mp ((h entry).mp (List.mem_cons_of_mem _ hin)) with rfl | hmem
            · exact absurd (hfirst _ hin) Std.lt_irrefl
            · exact hmem
          · rcases List.mem_cons.mp ((h entry).mpr (List.mem_cons_of_mem _ hin)) with rfl | hmem
            · exact absurd (hsecond _ hin) Std.lt_irrefl
            · exact hmem

theorem ext_get? {a b : ByteMap α} (h : ∀ key, a.get? key = b.get? key) : a = b := by
  obtain ⟨as, ha⟩ := a
  obtain ⟨bs, hb⟩ := b
  have hentries : as = bs := ascending_ext ha hb fun entry => by
    obtain ⟨key, value⟩ := entry
    rw [← lookup_eq_some_iff ha, ← lookup_eq_some_iff hb]
    exact iff_of_eq (congrArg (· = some value) (h key))
  subst hentries
  rfl

end ByteMap

end KeyValue
