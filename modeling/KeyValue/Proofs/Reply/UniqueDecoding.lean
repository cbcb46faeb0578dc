import KeyValue.Proofs.Bytes
import KeyValue.Proofs.Reply.Line
import KeyValue.Request

namespace KeyValue.Reply

mutual

-- The texts of the simple strings and of the errors, at any depth.
def texts : Reply → List String
  | .simple text | .error text => [text]
  | .array items => allTexts items
  | .integer _ | .bulk _ | .nil | .nilArray => []

def allTexts : List Reply → List String
  | [] => []
  | item :: rest => item.texts ++ allTexts rest

end

-- A frame is one line and what the line announces.

def sigil : Reply → UInt8
  | .simple _ => Sigil.simple
  | .error _ => Sigil.error
  | .integer _ => Sigil.integer
  | .bulk _ | .nil => Sigil.bulk
  | .array _ | .nilArray => Sigil.array

def heading : Reply → Bytes
  | .simple text | .error text => Bytes.ofText text
  | .integer value => Decimal.bytes value.toInt
  | .bulk data => Decimal.bytes data.length
  | .array items => Decimal.bytes items.length
  | .nil | .nilArray => Decimal.bytes (-1)

def payload : Reply → Bytes
  | .bulk data => data ++ Bytes.crlf
  | .array items => encodeAll items
  | .simple _ | .error _ | .integer _ | .nil | .nilArray => []

variable {first second : Reply} {rest after : Bytes}

theorem encode_eq (reply : Reply) :
    reply.encode = Wire.line reply.sigil reply.heading ++ reply.payload := by
  cases reply <;> simp [encode, sigil, heading, payload, Wire.bulk]

theorem heading_has_no_lineEnd {reply : Reply}
    (h : ∀ text ∈ reply.texts, ¬Reader.HasLineEnd (Bytes.ofText text)) :
    ¬Reader.HasLineEnd reply.heading := by
  have hnumeral (n : Int) : ¬Reader.HasLineEnd (Decimal.bytes n) :=
    Reader.not_hasLineEnd_of_not_mem (by decide) (Decimal.carriageReturn_not_mem_bytes n)
  cases reply with
  | simple text => exact h text (List.mem_singleton_self text)
  | error text => exact h text (List.mem_singleton_self text)
  | integer | bulk | nil | array | nilArray => exact hnumeral _

theorem frame_append_inj
    (hfirst : ∀ text ∈ first.texts, ¬Reader.HasLineEnd (Bytes.ofText text))
    (hsecond : ∀ text ∈ second.texts, ¬Reader.HasLineEnd (Bytes.ofText text))
    (h : first.encode ++ rest = second.encode ++ after) :
    first.sigil = second.sigil ∧ first.heading = second.heading ∧
      first.payload ++ rest = second.payload ++ after := by
  rw [encode_eq, encode_eq] at h
  simp only [Wire.line, List.cons_append, List.append_assoc, List.cons.injEq] at h
  obtain ⟨hsigil, hline⟩ := h
  obtain ⟨hheading, hpayload⟩ := Bytes.append_crlf_inj (heading_has_no_lineEnd hfirst)
    (heading_has_no_lineEnd hsecond) hline
  exact ⟨hsigil, hheading, hpayload⟩

-- The line tells the reply, except for the data of a bulk string and the items of an array. Of
-- those it tells how many there are, and that there are any: no length is written as -1.
theorem eq_of_heading (hsigil : first.sigil = second.sigil)
    (hheading : first.heading = second.heading) :
    first = second ∨
      (∃ data other, first = .bulk data ∧ second = .bulk other ∧ data.length = other.length) ∨
      ∃ items others, first = .array items ∧ second = .array others ∧
        items.length = others.length := by
  have hlength {length other : Nat} (h : Decimal.bytes length = Decimal.bytes other) :
      length = other := Int.ofNat.inj (Decimal.bytes_injective h)
  have hminus {length : Nat} (h : Decimal.bytes length = Decimal.bytes (-1)) : False := by
    have := Decimal.bytes_injective h
    omega
  cases first with
  | simple text =>
      cases second with
      | simple other => exact .inl (congrArg _ (Bytes.ofText_injective hheading))
      | _ => cases hsigil
  | error text =>
      cases second with
      | error other => exact .inl (congrArg _ (Bytes.ofText_injective hheading))
      | _ => cases hsigil
  | integer value =>
      cases second with
      | integer other =>
          exact .inl (congrArg _ (Int64.toInt_inj.mp (Decimal.bytes_injective hheading)))
      | _ => cases hsigil
  | bulk data =>
      cases second with
      | bulk other => exact .inr (.inl ⟨data, other, rfl, rfl, hlength hheading⟩)
      | nil => exact (hminus hheading).elim
      | _ => cases hsigil
  | nil =>
      cases second with
      | bulk other => exact (hminus hheading.symm).elim
      | nil => exact .inl rfl
      | _ => cases hsigil
  | array items =>
      cases second with
      | array others => exact .inr (.inr ⟨items, others, rfl, rfl, hlength hheading⟩)
      | nilArray => exact (hminus hheading).elim
      | _ => cases hsigil
  | nilArray =>
      cases second with
      | array others => exact (hminus hheading.symm).elim
      | nilArray => exact .inl rfl
      | _ => cases hsigil

mutual

theorem encode_append_inj (first second : Reply) {rest after : Bytes}
    (hfirst : ∀ text ∈ first.texts, ¬Reader.HasLineEnd (Bytes.ofText text))
    (hsecond : ∀ text ∈ second.texts, ¬Reader.HasLineEnd (Bytes.ofText text))
    (h : first.encode ++ rest = second.encode ++ after) : first = second ∧ rest = after := by
  obtain ⟨hsigil, hheading, hpayload⟩ := frame_append_inj hfirst hsecond h
  rcases eq_of_heading hsigil hheading with
    hsame | ⟨data, other, hdata, hother, hlength⟩ | ⟨items, others, hitems, hothers, hlength⟩
  · rw [hsame] at h
    exact ⟨hsame, List.append_cancel_left h⟩
  · rw [hdata, hother, payload, payload, List.append_assoc, List.append_assoc] at hpayload
    obtain ⟨hbytes, hend⟩ := List.append_inj hpayload hlength
    rw [hdata, hother, hbytes]
    exact ⟨rfl, List.append_cancel_left hend⟩
  · have hsmaller : sizeOf items < sizeOf first := by
      rw [hitems]
      simp
    rw [hitems, texts] at hfirst
    rw [hothers, texts] at hsecond
    rw [hitems, hothers, payload, payload] at hpayload
    obtain ⟨hall, hrest⟩ := encodeAll_append_inj items others hlength hfirst hsecond hpayload
    rw [hitems, hothers, hall]
    exact ⟨rfl, hrest⟩
termination_by sizeOf first

-- As many items on both sides: an empty list could go on with the frames of the other.
theorem encodeAll_append_inj (items others : List Reply) {rest after : Bytes}
    (hlength : items.length = others.length)
    (hitems : ∀ text ∈ allTexts items, ¬Reader.HasLineEnd (Bytes.ofText text))
    (hothers : ∀ text ∈ allTexts others, ¬Reader.HasLineEnd (Bytes.ofText text))
    (h : encodeAll items ++ rest = encodeAll others ++ after) :
    items = others ∧ rest = after := by
  match items, others with
  | [], [] => exact ⟨rfl, h⟩
  | first :: items, second :: others =>
      obtain ⟨hfirst, hitems⟩ := List.forall_mem_append.mp hitems
      obtain ⟨hsecond, hothers⟩ := List.forall_mem_append.mp hothers
      rw [encodeAll, encodeAll, List.append_assoc, List.append_assoc] at h
      obtain ⟨hsame, hlater⟩ := encode_append_inj first second hfirst hsecond h
      obtain ⟨hall, hrest⟩ := encodeAll_append_inj items others (Nat.succ.inj hlength) hitems
        hothers hlater
      rw [hsame, hall]
      exact ⟨rfl, hrest⟩
termination_by sizeOf items

end

-- A request is the reply that lists its tokens.
theorem encode_ofBytesList (tokens : List Bytes) :
    (ofBytesList tokens).encode = Request.encode tokens := by
  have hitems : encodeAll (tokens.map .bulk) = tokens.flatMap Wire.bulk := by
    induction tokens with
    | nil => rfl
    | cons token tokens ih => rw [List.map_cons, encodeAll, ih, List.flatMap_cons, encode]
  rw [ofBytesList, encode, hitems, List.length_map, Request.encode]

theorem texts_ofBytesList (tokens : List Bytes) : (ofBytesList tokens).texts = [] := by
  rw [ofBytesList, texts]
  induction tokens with
  | nil => rfl
  | cons token tokens ih => rw [List.map_cons, allTexts, ih, texts, List.append_nil]

theorem ofBytesList_inj {tokens others : List Bytes} (h : ofBytesList tokens = ofBytesList others) :
    tokens = others :=
  (List.map_inj_right fun _ _ => bulk.inj).mp (array.inj h)

-- No two replies share an encoding, and none has an encoding at the front of another's, however
-- deep they nest: bytes that begin with a reply or a request tell which, and where it ends.
theorem uniquely_decodable :
    (∀ first second : Reply, ∀ rest after : Bytes,
      (∀ text ∈ first.texts, ¬Reader.HasLineEnd (Bytes.ofText text)) →
      (∀ text ∈ second.texts, ¬Reader.HasLineEnd (Bytes.ofText text)) →
      first.encode ++ rest = second.encode ++ after → first = second ∧ rest = after) ∧
    ∀ (tokens others : List Bytes) (rest after : Bytes),
      Request.encode tokens ++ rest = Request.encode others ++ after →
        tokens = others ∧ rest = after := by
  refine ⟨fun first second rest after hfirst hsecond h =>
    encode_append_inj first second hfirst hsecond h, fun tokens others rest after h => ?_⟩
  have hfree (tokens : List Bytes) :
      ∀ text ∈ (ofBytesList tokens).texts, ¬Reader.HasLineEnd (Bytes.ofText text) := by
    rw [texts_ofBytesList]
    rintro text ⟨⟩
  rw [← encode_ofBytesList, ← encode_ofBytesList] at h
  obtain ⟨hsame, hrest⟩ := encode_append_inj _ _ (hfree tokens) (hfree others) h
  exact ⟨ofBytesList_inj hsame, hrest⟩

-- A text that ends in a carriage return, one that begins with a line feed, data like the end of
-- a frame, values that are missing or empty, and bytes after them that could go on with them.
theorem uniquely_decodable_nested :
    let first : Reply := .array [.simple "a\r", .array [.error "\n:1", .nil, .bulk []],
      .bulk [13, 10, 36], .array [], .nilArray, .integer 1]
    let second : Reply := .array [.simple "a\r", .array [.error "\n:1", ofOption none,
      ofOption (some [])], .bulk (Bytes.crlf ++ [36]), ofBytesList [], .nilArray, ofBool true]
    let tokens : List Bytes := [[36, 49], [], [13, 10]]
    let others : List Bytes := [Sigil.bulk :: Decimal.bytes 1, [], Bytes.crlf]
    let rest : Bytes := [50, 13, 10]
    let after : Bytes := Decimal.bytes 2 ++ Bytes.crlf
    (∀ text ∈ first.texts, ¬Reader.HasLineEnd (Bytes.ofText text)) ∧
      (∀ text ∈ second.texts, ¬Reader.HasLineEnd (Bytes.ofText text)) ∧
      first.encode ++ rest = second.encode ++ after ∧ (first = second ∧ rest = after) ∧
      Request.encode tokens ++ rest = Request.encode others ++ after ∧
      (tokens = others ∧ rest = after) := by
  intro first second tokens others rest after
  have hfirst : ∀ text ∈ first.texts, ¬Reader.HasLineEnd (Bytes.ofText text) := by
    simp only [first, texts, allTexts, Reader.HasLineEnd]
    decide +kernel
  have hsecond : ∀ text ∈ second.texts, ¬Reader.HasLineEnd (Bytes.ofText text) := hfirst
  have hreplies : first.encode ++ rest = second.encode ++ after := by decide +kernel
  have hrequests : Request.encode tokens ++ rest = Request.encode others ++ after := by
    decide +kernel
  obtain ⟨hreply, hrequest⟩ := uniquely_decodable
  exact ⟨hfirst, hsecond, hreplies, hreply first second rest after hfirst hsecond hreplies,
    hrequests, hrequest tokens others rest after hrequests⟩

end KeyValue.Reply
