import Tracemate.Document
import Tracemate.Lib.Endian
import Tracemate.Lib.Hexadecimal
import Tracemate.Lib.Outcome

/-!
# Ids of traces and spans

The ids in the messages to Jaeger, which the documents of the agents have as hexadecimal digits.

* `hex2uint64BE`, `fillTraceId`: the ids in the memory;
* `jaegerizeTransaction`, `jaegerizeSpan`: the ids of the message that is sent for a document;
* `HexId`: an id of an agent, and the number it stands for;
* `jaegerize_ids_iff`: the ids that are sent are the numbers, in the order of the network, if and
  only if the trace id has all of its 32 digits or is zero; span ids always keep their number.
-/

namespace Tracemate.Jaeger

open CStr COutcome Endian Hexadecimal JsonC

/-! ### The functions -/

section Functions

variable (o : ByteOrder)

/-- The bytes of a `uint64_t` in the memory. -/
def memoryOf (x : UInt64) : Bytes := o.store 8 x.toNat

/-- `htonll`. -/
def htonll (x : UInt64) : UInt64 := UInt64.ofNat (o.hton 8 x.toNat)

/-- `hex2uint64BE`. -/
def hex2uint64BE (hex : Bytes) (len : ℕ) : UInt64 :=
  let buffer := snprintf 128 (cstr "0x" ++ hex.take len)
  htonll o (UInt64.ofNat (strtoullHex buffer))

/-- `struct trace_id`. -/
structure TraceId where
  low : UInt64
  high : UInt64

/-- The bytes of the struct. -/
def TraceId.bytes (tid : TraceId) : Bytes := memoryOf o tid.low ++ memoryOf o tid.high

/-- `fill_trace_id`. -/
def fillTraceId (hex : Option Bytes) : TraceId :=
  match hex with
  | none => ⟨0, 0⟩
  | some hex =>
    let l := hex.length
    if l > 32 then ⟨0, 0⟩
    else if l = 32 then
      -- decoding on other side expects BIGE
      { low := hex2uint64BE o hex 16, high := hex2uint64BE o (hex.drop 16) 16 }
    else if l = 16 then { low := hex2uint64BE o hex 16, high := 0 }
    else ⟨0, 0⟩

/-- The bytes of a span id. -/
def spanIdBytes (hex : Bytes) : Bytes := memoryOf o (hex2uint64BE o hex hex.length)

/-- The ids of a `proto::SpanRef`. -/
structure SpanRef where
  traceId : Bytes
  spanId : Bytes
  deriving DecidableEq

/-- The ids of a `proto::Span`. -/
structure SpanIds where
  traceId : Bytes
  spanId : Bytes
  reference : Option SpanRef
  deriving DecidableEq

variable (lib : Conversions)

/-- The ids of the message, from the id of the transaction or the span and from the document. -/
def setIds (id message : Option Json) : Outcome SpanIds := do
  let tid := fillTraceId o (lib.getString (Json.get (cstr "id") (Json.get (cstr "trace") message)))
  let id ← nonNull (lib.getString id)
  match Json.get (cstr "parent") message with
  | none => .ok ⟨tid.bytes o, spanIdBytes o id, none⟩
  | some parent => do
    let parentHex ← nonNull (lib.getString (Json.get (cstr "id") (some parent)))
    .ok ⟨tid.bytes o, spanIdBytes o id, some ⟨tid.bytes o, spanIdBytes o parentHex⟩⟩

/-- The id that `jaegerize_transaction` reads. -/
def transactionId (message : Option Json) : Option Json :=
  Json.get (cstr "id") (Json.get (cstr "transaction") message)

/-- The id that `jaegerize_span` reads. -/
def spanId (message : Option Json) : Option Json :=
  let mv := tmApmServerMajorVersion lib message
  Json.get (if mv = 6 then cstr "hex_id" else cstr "id") (Json.get (cstr "span") message)

/-- `jaegerize_transaction`: the ids of the message.  The trace id is also the text of a tag. -/
def jaegerizeTransaction (message : Option Json) : Outcome SpanIds := do
  let _ ← nonNull (lib.getString (Json.get (cstr "id") (Json.get (cstr "trace") message)))
  setIds o lib (transactionId message) message

/-- `jaegerize_span`: the ids of the message. -/
def jaegerizeSpan (message : Option Json) : Outcome SpanIds :=
  setIds o lib (spanId lib message) message

/-- The two kinds of documents. -/
inductive Kind
  | transaction
  | span
  deriving DecidableEq

/-- The id that is read of a document. -/
def Kind.id (kind : Kind) (message : Option Json) : Option Json :=
  match kind with
  | .transaction => transactionId message
  | .span => spanId lib message

/-- The ids of the message for a document. -/
def Kind.jaegerize (kind : Kind) (message : Option Json) : Outcome SpanIds :=
  match kind with
  | .transaction => jaegerizeTransaction o lib message
  | .span => jaegerizeSpan o lib message

end Functions

/-! ### Ids and their numbers -/

/-- An id of at most `n` hexadecimal digits. -/
structure HexId (n : ℕ) where
  digits : Bytes
  ne_nil : digits ≠ []
  length_le : digits.length ≤ n
  isHexDigit : ∀ d ∈ digits, isHexDigit d = true

variable {n : ℕ} (o : ByteOrder)

/-- The number that an id denotes. -/
def HexId.number (id : HexId n) : ℕ := hexDigitsValue id.digits

theorem HexId.number_lt (id : HexId n) : id.number < 16 ^ n :=
  (hexDigitsValue_lt id.digits).trans_le (Nat.pow_le_pow_right (by omega) id.length_le)

theorem toNat_htonll (x : UInt64) : (htonll o x).toNat = o.hton 8 x.toNat := by
  have h : o.hton 8 x.toNat < 2 ^ 64 := o.hton_lt 8 x.toNat
  rw [htonll, UInt64.toNat_ofNat', Nat.mod_eq_of_lt h]

/-- In the memory, the result of `htonll` is in the order of the network. -/
theorem memoryOf_htonll (x : UInt64) : memoryOf o (htonll o x) = bigEndian 8 x.toNat := by
  rw [memoryOf, toNat_htonll, o.store_hton]

theorem memoryOf_zero : memoryOf o 0 = bigEndian 8 0 := by
  cases o <;> decide

/-- Up to sixteen digits are sent as their number. -/
theorem memoryOf_hex2uint64BE {hex : Bytes} {len : ℕ}
    (h : ∀ d ∈ hex.take len, Hexadecimal.isHexDigit d = true) (hlen : len ≤ 16) :
    memoryOf o (hex2uint64BE o hex len) = bigEndian 8 (hexDigitsValue (hex.take len)) := by
  have hshort : (hex.take len).length ≤ 16 := by simp; omega
  have hbuffer : snprintf 128 (cstr "0x" ++ hex.take len) = cstr "0x" ++ hex.take len := by
    rw [snprintf, List.take_of_length_le]
    have : (cstr "0x").length = 2 := rfl
    rw [List.length_append]
    omega
  have hlt : hexDigitsValue (hex.take len) < 2 ^ 64 :=
    (hexDigitsValue_lt _).trans_le (Nat.pow_le_pow_right (by omega) hshort)
  rw [hex2uint64BE, hbuffer, memoryOf_htonll, strtoullHex_of_length_le h hshort,
    UInt64.toNat_ofNat', Nat.mod_eq_of_lt hlt]

/-- A span id is sent as its number. -/
theorem spanIdBytes_digits (id : HexId 16) : spanIdBytes o id.digits = bigEndian 8 id.number := by
  have htake : id.digits.take id.digits.length = id.digits := List.take_length
  rw [spanIdBytes, memoryOf_hex2uint64BE o (by rw [htake]; exact id.isHexDigit) id.length_le,
    htake, HexId.number]

/-- The number that is sent for a trace id. -/
def HexId.sentNumber (id : HexId 32) : ℕ :=
  if id.digits.length = 32 then id.number
  else if id.digits.length = 16 then id.number * 2 ^ 64
  else 0

theorem HexId.sentNumber_lt (id : HexId 32) : id.sentNumber < 256 ^ 16 := by
  unfold sentNumber
  split_ifs with h32 h16
  · exact id.number_lt
  · have : id.number < 16 ^ 16 := by
      have := hexDigitsValue_lt id.digits
      rwa [h16] at this
    omega
  · omega

/-- The bytes of a trace id. -/
theorem fillTraceId_bytes (id : HexId 32) :
    (fillTraceId o (some id.digits)).bytes o = bigEndian 16 id.sentNumber := by
  have hle : ¬ id.digits.length > 32 := by
    have := id.length_le
    omega
  have hzero : memoryOf o 0 ++ memoryOf o 0 = bigEndian 16 0 := by
    rw [memoryOf_zero]
    decide
  have hfirst : memoryOf o (hex2uint64BE o id.digits 16) =
      bigEndian 8 (hexDigitsValue (id.digits.take 16)) :=
    memoryOf_hex2uint64BE o (fun d hd => id.isHexDigit d (List.mem_of_mem_take hd)) le_rfl
  unfold HexId.sentNumber fillTraceId
  simp only [if_neg hle]
  split_ifs with h32 h16
  · -- the two halves
    have hrest : (id.digits.drop 16).take 16 = id.digits.drop 16 :=
      List.take_of_length_le (by simp; omega)
    have hsecond : memoryOf o (hex2uint64BE o (id.digits.drop 16) 16) =
        bigEndian 8 (hexDigitsValue (id.digits.drop 16)) := by
      rw [memoryOf_hex2uint64BE o _ le_rfl, hrest]
      intro d hd
      exact id.isHexDigit d (List.mem_of_mem_drop (List.mem_of_mem_take hd))
    have hlen : (id.digits.drop 16).length = 16 := by simp; omega
    have hlt : hexDigitsValue (id.digits.drop 16) < 256 ^ 8 := by
      have := hexDigitsValue_lt (id.digits.drop 16)
      rw [hlen] at this
      omega
    have hnumber : id.number = hexDigitsValue (id.digits.take 16) * 256 ^ 8 +
        hexDigitsValue (id.digits.drop 16) := by
      have := hexDigitsValue_append (id.digits.take 16) (id.digits.drop 16)
      rw [List.take_append_drop, hlen] at this
      exact this
    rw [TraceId.bytes, hfirst, hsecond, bigEndian_append _ hlt, hnumber]
  · -- sixteen digits are the upper half
    have hall : id.digits.take 16 = id.digits := List.take_of_length_le (by omega)
    have hpow : (256 : ℕ) ^ 8 = 2 ^ 64 := by norm_num
    rw [TraceId.bytes, hfirst, hall, memoryOf_zero, bigEndian_append _ (by omega),
      Nat.add_zero (_ * _), HexId.number, hpow]
  · exact hzero

/-- A trace id is sent as its number if and only if it has 32 digits or is zero. -/
theorem sentNumber_eq_iff (id : HexId 32) :
    id.sentNumber = id.number ↔ id.digits.length = 32 ∨ id.number = 0 := by
  unfold HexId.sentNumber
  generalize id.number = n
  split_ifs with h32 h16
  · exact ⟨fun _ => .inl h32, fun _ => rfl⟩
  · rw [or_iff_right h32]
    omega
  · rw [or_iff_right h32]
    exact eq_comm

/-! ### The ids of a message -/

/-- The ids of a document. -/
structure Ids where
  trace : HexId 32
  id : HexId 16
  parent : Option (HexId 16)

/-- The ids as Jaeger should get them. -/
def Ids.encoded (ids : Ids) : SpanIds where
  traceId := bigEndian 16 ids.trace.number
  spanId := bigEndian 8 ids.id.number
  reference := ids.parent.map fun p => ⟨bigEndian 16 ids.trace.number, bigEndian 8 p.number⟩

/-- The document has these ids. -/
structure Ids.ReadFrom (lib : Conversions) (kind : Kind) (message : Option Json) (ids : Ids) :
    Prop where
  trace : lib.getString (Json.get (cstr "id") (Json.get (cstr "trace") message)) =
    some ids.trace.digits
  id : lib.getString (kind.id lib message) = some ids.id.digits
  parent : (Json.get (cstr "parent") message).map
    (fun p => lib.getString (Json.get (cstr "id") (some p))) = ids.parent.map fun p => some p.digits

/-- The ids as Jaeger gets them. -/
def Ids.sent (ids : Ids) : SpanIds where
  traceId := bigEndian 16 ids.trace.sentNumber
  spanId := bigEndian 8 ids.id.number
  reference := ids.parent.map fun p => ⟨bigEndian 16 ids.trace.sentNumber, bigEndian 8 p.number⟩

section Messages

variable {lib : Conversions} {kind : Kind} {message : Option Json} {ids : Ids}

theorem setIds_eq (h : ids.ReadFrom lib kind message) :
    setIds o lib (kind.id lib message) message = .ok ids.sent := by
  have hparent := h.parent
  unfold setIds Ids.sent
  rw [h.trace, h.id]
  cases hp : Json.get (cstr "parent") message with
  | none =>
    rw [hp, Option.map_none] at hparent
    rw [Option.map_eq_none_iff.1 hparent.symm]
    simp only [nonNull, fillTraceId_bytes]
    show Except.ok _ = _
    rw [spanIdBytes_digits]
    rfl
  | some p =>
    rw [hp, Option.map_some] at hparent
    obtain ⟨parent, hids, hdigits⟩ := Option.map_eq_some_iff.1 hparent.symm
    simp only [nonNull, ← hdigits, hids, fillTraceId_bytes]
    show Except.ok _ = _
    rw [spanIdBytes_digits, spanIdBytes_digits]
    rfl

/-- For a document with ids, a message with these ids is sent. -/
theorem jaegerize_eq (h : ids.ReadFrom lib kind message) :
    kind.jaegerize o lib message = .ok ids.sent := by
  cases kind with
  | transaction =>
    have := setIds_eq o h
    show (nonNull (lib.getString _) >>= fun _ => _) = _
    rw [h.trace]
    exact this
  | span => exact setIds_eq o h

/-- **Ids.**  The ids that are sent are the numbers that the digits denote, in the order of the
network, if and only if the trace id has 32 digits or is zero.  Span and parent ids keep their
number in any case, so no two of them are sent as equal, nor are two such trace ids. -/
theorem jaegerize_ids_iff (h : ids.ReadFrom lib kind message) :
    ∃ sent, kind.jaegerize o lib message = .ok sent ∧
      (sent = ids.encoded ↔ ids.trace.digits.length = 32 ∨ ids.trace.number = 0) ∧
      sent.spanId = bigEndian 8 ids.id.number ∧
      sent.reference.map SpanRef.spanId = ids.parent.map (fun p => bigEndian 8 p.number) ∧
      ∀ {kind' : Kind} {message' : Option Json} {ids' : Ids} {sent' : SpanIds},
        ids'.ReadFrom lib kind' message' → kind'.jaegerize o lib message' = .ok sent' →
        (sent.spanId = sent'.spanId ↔ ids.id.number = ids'.id.number) ∧
        ((ids.trace.digits.length = 32 ∨ ids.trace.number = 0) →
          (ids'.trace.digits.length = 32 ∨ ids'.trace.number = 0) →
          (sent.traceId = sent'.traceId ↔ ids.trace.number = ids'.trace.number)) := by
  refine ⟨ids.sent, jaegerize_eq o h, ?_, rfl, ?_, ?_⟩
  · rw [← sentNumber_eq_iff]
    constructor
    · intro hsent
      have htrace := congrArg SpanIds.traceId hsent
      have hlt : ids.trace.number < 256 ^ 16 := ids.trace.number_lt
      exact (bigEndian_inj ids.trace.sentNumber_lt hlt).1 htrace
    · intro hnumber
      rw [Ids.sent, hnumber, Ids.encoded]
  · cases hp : ids.parent with
    | none => simp [Ids.sent, hp]
    | some p => simp [Ids.sent, hp]
  · intro kind' message' ids' sent' h' hsent'
    obtain rfl := Except.ok.inj ((jaegerize_eq o h').symm.trans hsent')
    refine ⟨bigEndian_inj ids.id.number_lt ids'.id.number_lt, ?_⟩
    intro hfull hfull'
    rw [← sentNumber_eq_iff] at hfull hfull'
    show bigEndian 16 ids.trace.sentNumber = bigEndian 16 ids'.trace.sentNumber ↔ _
    rw [hfull, hfull']
    exact bigEndian_inj ids.trace.number_lt ids'.trace.number_lt

end Messages

/-- A trace id of 32 digits, a span id of one digit and a parent. -/
def fullIds : Ids where
  trace := ⟨cstr "0af7651916cd43dd8448eb211c80319c", by decide, by decide,
    List.all_eq_true.1 (by decide)⟩
  id := ⟨cstr "7", by decide, by decide, List.all_eq_true.1 (by decide)⟩
  parent := some ⟨cstr "b7ad6b7169203331", by decide, by decide, List.all_eq_true.1 (by decide)⟩

/-- A trace id of 16 digits. -/
def shortIds : Ids where
  trace := ⟨cstr "8448eb211c80319c", by decide, by decide, List.all_eq_true.1 (by decide)⟩
  id := ⟨cstr "7", by decide, by decide, List.all_eq_true.1 (by decide)⟩
  parent := none

/-- A transaction with these ids. -/
def transactionWith (ids : Ids) : Json :=
  .obj ([(cstr "trace", .obj [(cstr "id", .str ids.trace.digits)]),
    (cstr "transaction", .obj [(cstr "id", .str ids.id.digits)])] ++
      ids.parent.toList.map fun p => (cstr "parent", .obj [(cstr "id", .str p.digits)]))

/-- All 32 digits, a span id without its zeros, and the id of the parent. -/
theorem jaegerize_full_ids :
    ∃ sent, Kind.transaction.jaegerize .little reference (some (transactionWith fullIds)) =
        .ok sent ∧
      (sent = fullIds.encoded ↔ fullIds.trace.digits.length = 32 ∨ fullIds.trace.number = 0) ∧
      sent.spanId = bigEndian 8 fullIds.id.number ∧
      sent.reference.map SpanRef.spanId =
        fullIds.parent.map (fun p => bigEndian 8 p.number) ∧
      ∀ {kind' : Kind} {message' : Option Json} {ids' : Ids} {sent' : SpanIds},
        ids'.ReadFrom reference kind' message' →
        kind'.jaegerize .little reference message' = .ok sent' →
        (sent.spanId = sent'.spanId ↔ fullIds.id.number = ids'.id.number) ∧
        ((fullIds.trace.digits.length = 32 ∨ fullIds.trace.number = 0) →
          (ids'.trace.digits.length = 32 ∨ ids'.trace.number = 0) →
          (sent.traceId = sent'.traceId ↔ fullIds.trace.number = ids'.trace.number)) :=
  jaegerize_ids_iff .little ⟨rfl, rfl, rfl⟩

/-- Sixteen digits are sent as the upper half of the trace id. -/
theorem jaegerize_short_ids :
    ¬ ∀ (o : ByteOrder) (lib : Conversions) (kind : Kind) (message : Option Json) (ids : Ids),
      ids.ReadFrom lib kind message → kind.jaegerize o lib message = .ok ids.encoded := by
  intro h
  have hread : shortIds.ReadFrom reference .transaction (some (transactionWith shortIds)) :=
    ⟨rfl, rfl, rfl⟩
  have hsent := h .little reference .transaction _ shortIds hread
  rw [jaegerize_eq .little hread] at hsent
  have htrace := congrArg SpanIds.traceId (Except.ok.inj hsent)
  exact absurd htrace (by decide)

end Tracemate.Jaeger
