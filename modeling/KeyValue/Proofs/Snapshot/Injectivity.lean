import KeyValue.Proofs.Snapshot.File
import Mathlib.Data.List.Basic

namespace KeyValue

-- The same look-ups everywhere, also in the hashes.
def Namespaces.Same (a b : Namespaces) : Prop :=
  ∀ key, a.strings.get? key = b.strings.get? key ∧ a.lists.get? key = b.lists.get? key ∧
    (a.hashes.get? key).map ByteMap.get? = (b.hashes.get? key).map ByteMap.get?

theorem Namespaces.same_iff {a b : Namespaces} : a.Same b ↔ a = b := by
  constructor
  · intro h
    refine ext_slots fun key => ?_
    obtain ⟨hstring, hlist, hhash⟩ := h key
    have hget : Function.Injective (ByteMap.get? (α := Bytes)) := fun first second hsame =>
      ByteMap.ext_get? (congrFun hsame)
    rw [slots, slots, hstring, hlist, Option.map_injective hget hhash]
  · rintro rfl key
    exact ⟨rfl, rfl, rfl⟩

namespace Snapshot

variable {a b data : Namespaces}

-- The records of each kind, taken out of a list of records of all kinds.

def Record.string? : Record → Option (Bytes × Bytes)
  | ⟨key, .string value⟩ => some (key, value)
  | _ => none

def Record.list? : Record → Option (Bytes × List Bytes)
  | ⟨key, .list items⟩ => some (key, items)
  | _ => none

def Record.hash? : Record → Option (Bytes × ByteMap Bytes)
  | ⟨key, .hash fields⟩ => some (key, fields)
  | _ => none

theorem filterMap_records (data : Namespaces) :
    (records data).filterMap Record.string? = data.strings.entries ∧
      (records data).filterMap Record.list? = data.lists.entries ∧
      (records data).filterMap Record.hash? = data.hashes.entries := by
  have hnone {α β : Type} (items : List α) : items.filterMap (fun _ => (none : Option β)) = [] :=
    List.filterMap_eq_nil_iff.mpr fun _ _ => rfl
  simp [records, recordsOf, List.filterMap_map, Function.comp_def, Record.string?, Record.list?,
    Record.hash?, hnone]

-- Not even a key with values of several kinds keeps any of them from being found again.
theorem records_injective (h : records a = records b) : a = b := by
  obtain ⟨hstrings, hlists, hhashes⟩ := filterMap_records a
  rw [h] at hstrings hlists hhashes
  obtain ⟨hstrings', hlists', hhashes'⟩ := filterMap_records b
  cases a
  cases b
  rw [Namespaces.mk.injEq]
  exact ⟨ByteMap.ext_entries (hstrings.symm.trans hstrings'),
    ByteMap.ext_entries (hlists.symm.trans hlists'),
    ByteMap.ext_entries (hhashes.symm.trans hhashes')⟩

theorem encode_injective (h : encode a = encode b) : a = b := by
  have hlines := splitOn_encode a
  rw [h, splitOn_encode] at hlines
  have hwritten (first second : Record) (hsame : first.written = second.written) :
      first = second := by
    have hread := record?_written first
    rw [hsame, record?_written] at hread
    exact (Option.some.inj hread).symm
  exact records_injective ((List.map_inj_right hwritten).mp (List.append_cancel_right hlines)).symm

-- What is stored, in the order in which it happens to be gone through.
structure Listing where
  strings : List (Bytes × Bytes)
  lists : List (Bytes × List Bytes)
  hashes : List (Bytes × List (Bytes × Bytes))

namespace Listing

-- Pairs of bytes are put in order by their values if their keys do not do it.
def pairBefore (a b : Bytes × Bytes) : Bool := a.1 < b.1 ∨ (a.1 = b.1 ∧ a.2 ≤ b.2)

def keyBefore {α : Type} (a b : Bytes × α) : Bool := a.1 ≤ b.1

-- Strings and fields are sorted as pairs, and lists and hashes by their keys alone.
def encode (listing : Listing) : Bytes :=
  ((listing.strings.mergeSort pairBefore).flatMap fun (key, value) =>
    record stringTag key [escape value]) ++
  ((listing.lists.mergeSort keyBefore).flatMap fun (key, items) =>
    record listTag key (items.map escape)) ++
  ((listing.hashes.mergeSort keyBefore).flatMap fun (key, fields) =>
    record hashTag key
      ((fields.mergeSort pairBefore).map fun (field, value) => fieldToken field value))

-- Each map is gone through once, and so is each hash.
structure Lists (listing : Listing) (data : Namespaces) : Prop where
  strings : listing.strings.Perm data.strings.entries
  lists : listing.lists.Perm data.lists.entries
  hashes : ∃ order : Bytes → List (Bytes × Bytes),
    (∀ entry ∈ data.hashes.entries, (order entry.1).Perm entry.2.entries) ∧
      listing.hashes.Perm (data.hashes.entries.map fun (key, _) => (key, order key))

theorem mergeSort_pairs {entries : List (Bytes × Bytes)} {map : ByteMap Bytes}
    (h : entries.Perm map.entries) : entries.mergeSort pairBefore = map.entries := by
  refine ByteMap.mergeSort_eq_of_ascending ?_ ?_ ?_ h map.ascending
  · intro a b c hab hbc
    simp only [pairBefore, decide_eq_true_eq] at hab hbc ⊢
    rcases hab with hab | ⟨hab, hfirst⟩ <;> rcases hbc with hbc | ⟨hbc, hsecond⟩
    · exact .inl (Std.lt_trans hab hbc)
    · exact .inl (hbc ▸ hab)
    · exact .inl (hab ▸ hbc)
    · exact .inr ⟨hab.trans hbc, Std.le_trans hfirst hsecond⟩
  · intro a b
    simp only [pairBefore, Bool.or_eq_true, decide_eq_true_eq]
    by_cases hkey : a.1 = b.1
    · exact Std.le_total.imp (fun h => .inr ⟨hkey, h⟩) fun h => .inr ⟨hkey.symm, h⟩
    · exact Std.le_total.imp (fun h => .inl (Std.lt_of_le_of_ne h hkey)) fun h =>
        .inl (Std.lt_of_le_of_ne h (Ne.symm hkey))
  · intro a b hab
    simp only [pairBefore, decide_eq_true_eq] at hab
    rcases hab with hlt | ⟨hsame, -⟩
    · exact Std.le_of_lt hlt
    · exact hsame ▸ Std.le_refl a.1

theorem mergeSort_keys {α : Type} {entries sorted : List (Bytes × α)}
    (h : entries.Perm sorted) (hsorted : sorted.Pairwise fun a b => a.1 < b.1) :
    entries.mergeSort keyBefore = sorted := by
  refine ByteMap.mergeSort_eq_of_ascending ?_ ?_ ?_ h hsorted
  · intro a b c hab hbc
    simp only [keyBefore, decide_eq_true_eq] at hab hbc ⊢
    exact Std.le_trans hab hbc
  · intro a b
    simp only [keyBefore, Bool.or_eq_true, decide_eq_true_eq]
    exact Std.le_total
  · intro a b hab
    simpa [keyBefore] using hab

-- Whatever the order is, the same bytes are written.
theorem Lists.encode_eq {listing : Listing} (h : listing.Lists data) :
    listing.encode = Snapshot.encode data := by
  obtain ⟨order, horder, hhashes⟩ := h.hashes
  have hsorted : (data.hashes.entries.map fun (key, _) => (key, order key)).Pairwise
      fun a b => a.1 < b.1 := List.pairwise_map.mpr data.hashes.ascending
  rw [encode, mergeSort_pairs h.strings, mergeSort_keys h.lists data.lists.ascending,
    mergeSort_keys hhashes hsorted, List.flatMap_map]
  have hfields : ∀ entry ∈ data.hashes.entries,
      (order entry.1).mergeSort pairBefore = entry.2.entries := fun entry hentry =>
    mergeSort_pairs (horder entry hentry)
  have hrecords : (data.hashes.entries.flatMap fun (key, _) =>
      record hashTag key
        (((order key).mergeSort pairBefore).map fun (field, value) => fieldToken field value)) =
      encodeHashes data.hashes := by
    refine List.flatMap_congr fun (key, fields) hentry => ?_
    simp only [hfields (key, fields) hentry]
  exact congrArg (encodeStrings data.strings ++ encodeLists data.lists ++ ·) hrecords

end Listing

-- What is written tells what was stored, even where it is not read back as such, and nothing
-- else: it does not matter in which order maps are gone through. So two snapshots are the same
-- files just if the same values were live.
theorem encode_eq_iff_same (a b : Namespaces) :
    (encode a = encode b ↔ a.Same b) ∧
    (∀ listing other : Listing, listing.Lists a → other.Lists b →
      (listing.encode = other.encode ↔ a.Same b)) ∧
    ∀ (now later : Nat) (path target : Path) (store other : Store) (files disk : FileSystem),
      (dump now path store files).1.isOk = true → (dump later target other disk).1.isOk = true →
      ((dump now path store files).2.2.read path = (dump later target other disk).2.2.read target ↔
        (store.keyspace.live now).Same (other.keyspace.live later)) := by
  have hencode (a b : Namespaces) : encode a = encode b ↔ a.Same b := by
    rw [Namespaces.same_iff]
    exact ⟨encode_injective, congrArg encode⟩
  refine ⟨hencode a b, fun listing other ha hb => ?_, ?_⟩
  · rw [ha.encode_eq, hb.encode_eq]
    exact hencode a b
  · intro now later path target store other files disk hdump hother
    rw [read_dump hdump, read_dump hother, Except.ok.injEq, Option.some.injEq]
    exact hencode _ _

-- A key with a string and a list, of which only the list is read back, and an empty hash, which
-- is not read back either.
def crossed (value : Bytes) : Namespaces where
  strings := .ofList [([97], value), ([98], [2])]
  lists := .ofList [([97], [[1]])]
  hashes := .ofList [([98], .ofList [([102], [1]), ([103], [2])]), ([99], .empty)]

-- All of it backwards.
def crossedListing (value : Bytes) : Listing where
  strings := [([98], [2]), ([97], value)]
  lists := [([97], [[1]])]
  hashes := [([99], []), ([98], [([103], [2]), ([102], [1])])]

theorem crossedListing_lists (value : Bytes) : (crossedListing value).Lists (crossed value) where
  strings := List.Perm.swap _ _ _
  lists := List.Perm.refl _
  hashes := by
    let order (key : Bytes) : List (Bytes × Bytes) :=
      if key = [98] then [([103], [2]), ([102], [1])] else []
    have horder : ∀ entry ∈ (crossed []).hashes.entries,
        (order entry.1).Perm entry.2.entries := by decide +kernel
    exact ⟨order, horder, List.Perm.swap _ _ _⟩

theorem crossed_written :
    let path := Bytes.ofText "db"
    let store (value : Bytes) : Store := ⟨⟨crossed value, .empty⟩, 0⟩
    let file (value : Bytes) := (dump 5 path (store value) .empty).2.2.read path
    (decode (encode (crossed [7]))).data = (decode (encode (crossed [8]))).data ∧
    (crossedListing [7]).encode ≠ (crossedListing [8]).encode ∧
    (dump 5 path (store [7]) .empty).1.isOk = true ∧
    (dump 5 path (store [8]) .empty).1.isOk = true ∧ file [7] ≠ file [8] := by
  intro path store file
  have hdiffer : ¬(crossed [7]).Same (crossed [8]) := fun hsame =>
    absurd (hsame [97]).1 (by decide +kernel)
  have hfirst : (dump 5 path (store [7]) .empty).1.isOk = true := by decide +kernel
  have hsecond : (dump 5 path (store [8]) .empty).1.isOk = true := by decide +kernel
  obtain ⟨-, hlistings, hdumps⟩ := encode_eq_iff_same (crossed [7]) (crossed [8])
  have hlisting := hlistings _ _ (crossedListing_lists [7]) (crossedListing_lists [8])
  have hdump := hdumps 5 5 path path (store [7]) (store [8]) .empty .empty hfirst hsecond
  exact ⟨by decide +kernel, mt hlisting.mp hdiffer, hfirst, hsecond, mt hdump.mp hdiffer⟩

end Snapshot

end KeyValue
