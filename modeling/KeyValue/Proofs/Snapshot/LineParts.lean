import KeyValue.Proofs.ByteMap
import KeyValue.Proofs.Bytes
import KeyValue.Snapshot.Decode
import Mathlib.Data.List.TakeWhile

namespace KeyValue.Snapshot

-- What a single line says, read off the bytes between its spaces and colons.

-- The item is the last one in the list that has the property.
def IsLast {α : Type} (p : α → Prop) (items : List α) (item : α) : Prop :=
  ∃ before after, items = before ++ item :: after ∧ p item ∧ ∀ other ∈ after, ¬p other

theorem isLast_iff_find? {α : Type} {p : α → Prop} [DecidablePred p] {items : List α} {item : α} :
    IsLast p items item ↔ items.reverse.find? (fun item => p item) = some item := by
  rw [List.find?_eq_some_iff_append]
  constructor
  · rintro ⟨before, after, rfl, hitem, hafter⟩
    exact ⟨by simpa using hitem, after.reverse, before.reverse, by simp, by simpa using hafter⟩
  · rintro ⟨hitem, after, before, hreverse, hafter⟩
    refine ⟨before.reverse, after.reverse, ?_, by simpa using hitem, by simpa using hafter⟩
    rw [← List.reverse_reverse items, hreverse]
    simp

-- A token of a hash names a field before its first colon and gives the value after it.
def fieldOf (token : Bytes) : Bytes := unescape (token.takeWhile (· ≠ colon))

def valueOf (token : Bytes) : Bytes := unescape (token.dropWhile (· ≠ colon)).tail

theorem field?_eq (token : Bytes) :
    field? token = if colon ∈ token then some (fieldOf token, valueOf token) else none := by
  have hnil : token.dropWhile (· ≠ colon) = [] ↔ colon ∉ token := by
    rw [List.dropWhile_eq_nil_iff]
    simp only [decide_eq_true_eq]
    exact ⟨fun h hcolon => h colon hcolon rfl, fun h byte hbyte heq => h (heq ▸ hbyte)⟩
  unfold field? valueOf
  split
  · rename_i hdrop
    rw [if_neg (hnil.mp hdrop)]
  · rename_i first value hdrop
    have hcolon : colon ∈ token := by
      by_contra hcolon
      rw [hnil.mpr hcolon] at hdrop
      cases hdrop
    rw [if_pos hcolon, hdrop]
    rfl

def pairOf (token : Bytes) : Bytes × Bytes := (fieldOf token, valueOf token)

theorem mapM_field? (tokens : List Bytes) :
    tokens.mapM field? =
      if ∀ token ∈ tokens, colon ∈ token then some (tokens.map pairOf) else none := by
  induction tokens with
  | nil => rfl
  | cons token rest ih =>
      simp only [List.mapM_cons, field?_eq, ih, List.forall_mem_cons]
      by_cases htoken : colon ∈ token
      · by_cases hrest : ∀ token ∈ rest, colon ∈ token
        · rw [if_pos htoken, if_pos hrest, if_pos ⟨htoken, hrest⟩]
          rfl
        · have hboth : ¬(colon ∈ token ∧ ∀ token ∈ rest, colon ∈ token) := fun h => hrest h.2
          rw [if_pos htoken, if_neg hrest, if_neg hboth]
          rfl
      · have hboth : ¬(colon ∈ token ∧ ∀ token ∈ rest, colon ∈ token) := fun h => htoken h.1
        rw [if_neg htoken, if_neg hboth]
        rfl

-- Each field has the value that the last token with its name gives.
def Spells (tokens : List Bytes) (fields : ByteMap Bytes) : Prop :=
  ∀ field value, fields.get? field = some value ↔
    ∃ token, IsLast (fun token => fieldOf token = field) tokens token ∧ valueOf token = value

theorem lookup_map_pairOf (tokens : List Bytes) (field : Bytes) :
    ByteMap.lookup field (tokens.map pairOf) =
      (tokens.find? fun token => fieldOf token = field).map valueOf := by
  induction tokens with
  | nil => rfl
  | cons token rest ih =>
      by_cases h : fieldOf token = field
      · simp [ByteMap.lookup, pairOf, h]
      · simp [ByteMap.lookup, pairOf, h, Ne.symm h, ih]

theorem spells_ofList (tokens : List Bytes) : Spells tokens (.ofList (tokens.map pairOf)) := by
  intro field value
  rw [ByteMap.ofList, ByteMap.get?_insertAll, ByteMap.get?_empty, Option.or_none,
    ← List.map_reverse, lookup_map_pairOf]
  simp only [Option.map_eq_some_iff, isLast_iff_find?]

theorem Spells.unique {tokens : List Bytes} {a b : ByteMap Bytes} (ha : Spells tokens a)
    (hb : Spells tokens b) : a = b :=
  ByteMap.ext_get? fun field => Option.ext fun value => (ha field value).trans (hb field value).symm

theorem fields?_eq_some_iff {tokens : List Bytes} {fields : ByteMap Bytes} :
    fields? tokens = some fields ↔ (∀ token ∈ tokens, colon ∈ token) ∧ Spells tokens fields := by
  rw [fields?, mapM_field?]
  split
  · rename_i hcolons
    rw [Option.map_some, Option.some.injEq]
    refine ⟨?_, fun h => (spells_ofList tokens).unique h.2⟩
    rintro rfl
    exact ⟨hcolons, spells_ofList tokens⟩
  · rename_i hcolons
    simp [hcolons]

-- Without tokens there are no fields, and with tokens there are some.
theorem Spells.eq_empty_iff {tokens : List Bytes} {fields : ByteMap Bytes}
    (h : Spells tokens fields) : fields = .empty ↔ tokens = [] := by
  rw [h.unique (spells_ofList tokens)]
  cases tokens with
  | nil => simp [ByteMap.ofList, ByteMap.insertAll]
  | cons token rest =>
      have hne : ByteMap.ofList ((token :: rest).map pairOf) ≠ .empty :=
        ByteMap.insertAll_ne_empty (ByteMap.insert_ne_empty _ _ _) _
      exact iff_of_false hne (List.cons_ne_nil token rest)

namespace Line

-- A line starts with its tag. Its key part goes on to the first space, and a token follows each
-- space.
def keyPart (line : Bytes) : Bytes := (line.takeWhile (· ≠ Bytes.space)).tail

def tokens (line : Bytes) : List Bytes := (line.splitOn Bytes.space).tail

def WellFormed (line : Bytes) : Prop :=
  (line.head? = some stringTag ∨ line.head? = some listTag ∨ line.head? = some hashTag) ∧
    keyPart line ≠ [] ∧
    (line.head? = some hashTag → ∀ token ∈ tokens line, colon ∈ token)

instance : DecidablePred WellFormed := fun _ =>
  inferInstanceAs (Decidable ((_ ∨ _ ∨ _) ∧ _ ∧ (_ → ∀ token ∈ _, _)))

-- It is a record for this key.
def Names (key line : Bytes) : Prop := WellFormed line ∧ unescape (keyPart line) = key

instance (key : Bytes) : DecidablePred (Names key) := fun _ =>
  inferInstanceAs (Decidable (_ ∧ _))

-- The value that a record gives its key.
def Gives (line : Bytes) : Value → Prop
  | .string value =>
      line.head? = some stringTag ∧ value = match tokens line with
        | [] => []
        | token :: _ => unescape token
  | .list items => line.head? = some listTag ∧ items = (tokens line).map unescape
  | .hash fields => line.head? = some hashTag ∧ Spells (tokens line) fields

theorem value?_eq_some_iff {tag : UInt8} {rest : Bytes} {value : Value}
    (hkey : keyPart (tag :: rest) ≠ []) :
    value? tag (tokens (tag :: rest)) = some value ↔
      WellFormed (tag :: rest) ∧ Gives (tag :: rest) value := by
  simp only [value?, WellFormed, Gives, hkey, ne_eq, not_false_eq_true, true_and, List.head?_cons,
    Option.some.injEq]
  by_cases hstring : tag = stringTag
  · subst hstring
    cases value with
    | string value =>
        cases tokens (stringTag :: rest) <;> simp [stringTag, hashTag, eq_comm]
    | list items => simp [stringTag, listTag]
    | hash fields => simp [stringTag, hashTag]
  by_cases hlist : tag = listTag
  · subst hlist
    cases value with
    | string value => simp [stringTag, listTag]
    | list items => simp [stringTag, hashTag, listTag, eq_comm]
    | hash fields => simp [stringTag, hashTag, listTag]
  by_cases hhash : tag = hashTag
  · subst hhash
    cases value with
    | string value => simp [stringTag, hashTag, listTag]
    | list items => simp [stringTag, hashTag, listTag]
    | hash fields => simp [stringTag, hashTag, listTag, fields?_eq_some_iff]
  · simp [hstring, hlist, hhash]

theorem record?_eq_some_iff {line : Bytes} {record : Record} :
    record? line = some record ↔ Names record.key line ∧ Gives line record.value := by
  obtain ⟨key, value⟩ := record
  -- No tag is a space, so that the first piece of a record is its tag and its key part.
  cases line with
  | nil => simp [record?, Bytes.splitOn, Bytes.splitWhere, Names, WellFormed]
  | cons tag rest =>
      by_cases hspace : tag = Bytes.space
      · subst hspace
        rw [record?, Bytes.splitOn_eq_takeWhile_cons]
        simp [Names, WellFormed, Bytes.space, stringTag, listTag, hashTag]
      · have hfirst : (tag :: rest).takeWhile (· ≠ Bytes.space) = tag :: keyPart (tag :: rest) := by
          simp [keyPart, hspace]
        rw [record?, Bytes.splitOn_eq_takeWhile_cons, hfirst]
        cases hkey : keyPart (tag :: rest) with
        | nil => simp [Names, WellFormed, hkey]
        | cons byte part =>
            have hne : keyPart (tag :: rest) ≠ [] := by simp [hkey]
            simp only [Option.map_eq_some_iff, Record.mk.injEq]
            rw [Names, hkey]
            constructor
            · rintro ⟨other, hvalue, rfl, rfl⟩
              obtain ⟨hline, hgives⟩ := (value?_eq_some_iff hne).mp hvalue
              exact ⟨⟨hline, rfl⟩, hgives⟩
            · rintro ⟨⟨hline, hname⟩, hgives⟩
              exact ⟨value, (value?_eq_some_iff hne).mpr ⟨hline, hgives⟩, hname, rfl⟩

theorem WellFormed.exists_gives {line : Bytes} (h : WellFormed line) :
    ∃ value, Gives line value := by
  rcases h.1 with htag | htag | htag
  · exact ⟨.string _, htag, rfl⟩
  · exact ⟨.list _, htag, rfl⟩
  · exact ⟨.hash _, htag, spells_ofList (tokens line)⟩

theorem names_iff_any {key line : Bytes} :
    Names key line ↔ (record? line).any (·.key = key) = true := by
  simp only [Option.any_eq_true, decide_eq_true_eq]
  constructor
  · intro h
    obtain ⟨value, hgives⟩ := h.1.exists_gives
    exact ⟨⟨key, value⟩, record?_eq_some_iff.mpr ⟨h, hgives⟩, rfl⟩
  · rintro ⟨record, hrecord, rfl⟩
    exact (record?_eq_some_iff.mp hrecord).1

theorem wellFormed_iff_isSome {line : Bytes} : WellFormed line ↔ (record? line).isSome = true := by
  rw [Option.isSome_iff_exists]
  constructor
  · intro h
    obtain ⟨value, hgives⟩ := h.exists_gives
    exact ⟨⟨unescape (keyPart line), value⟩, record?_eq_some_iff.mpr ⟨⟨h, rfl⟩, hgives⟩⟩
  · rintro ⟨record, hrecord⟩
    exact (record?_eq_some_iff.mp hrecord).1.1

end Line

end KeyValue.Snapshot
