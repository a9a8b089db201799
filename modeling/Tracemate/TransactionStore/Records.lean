import Tracemate.Document
import Tracemate.Lib.Lmdb

/-!
# The records of the transaction store

What `tm_transaction_store.c` writes into its databases.

* `Stored`: a root record, a child record, the time at which an environment was opened, or a mark;
* `Stored.touch`: the change of `last_modified_ms` when a child arrives;
* `childKey`: the key of a child record, from the trace id and the document;
* `Stored.kind`: what a record is and which trace it was written for.
-/

namespace Tracemate.TransactionStore

open CStr JsonC

/-- A `lmdb_stored_root_t`; `magic_word` says whether `data` is compressed, `json_str_len` is its
length. -/
structure StoredRoot where
  compressed : Bool
  firstSeenMs : ℕ
  lastModifiedMs : ℕ
  ttl : Int32
  data : Bytes
  deriving DecidableEq

/-- A `lmdb_stored_child_t`, with the trace id that it was written for. -/
structure StoredChild where
  traceId : Bytes
  compressed : Bool
  firstSeenMs : ℕ
  ttl : Int32
  data : Bytes
  deriving DecidableEq

/-- The bytes of a value. -/
inductive Stored
  | root (r : StoredRoot)
  | child (c : StoredChild)
  | openMs (ms : ℕ)
  /-- the five bytes `trace` of `tm_transaction_store_mark_traceable` -/
  | trace
  deriving DecidableEq

/-- `MAGIC_WORD_V4_COMPRESS` and `MAGIC_WORD_V4`. -/
def magicWord (compressed : Bool) : ℕ := if compressed then 0x1fa7a55 else 0x0fa7a55

/-- The first eight bytes as a number: what is read as the time of opening. -/
def Stored.firstWord : Stored → ℕ
  | openMs ms => ms
  | root r => magicWord r.compressed + 2 ^ 32 * (r.data.length % 2 ^ 32)
  | child c => magicWord c.compressed + 2 ^ 32 * (c.data.length % 2 ^ 32)
  | trace => 0

/-- The bytes of a 32-bit number, the lowest first. -/
def littleEndian32 (n : ℕ) : Bytes :=
  [n.toUInt8, (n / 2 ^ 8).toUInt8, (n / 2 ^ 16).toUInt8, (n / 2 ^ 24).toUInt8]

/-- `parent_record->last_modified_ms = now`, whatever the record is: in a child record the bytes
at that offset are those of `ttl` and the first ones of `data`, and the first eight bytes stay. -/
def Stored.touch (now : ℕ) : Stored → Stored
  | root r => root { r with lastModifiedMs := now }
  | child c => child { c with
      ttl := Int32.ofNat now
      data := (littleEndian32 (now / 2 ^ 32) ++ c.data.drop 4).take c.data.length }
  | openMs ms => openMs ms
  | trace => trace

/-! ### The key of a child -/

/-- The document's own id, which ends the key; `(null)` is what is printed for a null pointer. -/
def hexId (lib : Conversions) (child : Json) (ev : Option Bytes) : Bytes :=
  let id :=
    if ev = some (cstr "span") then
      Json.get (if tmApmServerMajorVersion lib (some child) = 6 then cstr "hex_id" else cstr "id")
        (Json.get (cstr "span") (some child))
    else if ev = some (cstr "error") then Json.get (cstr "id") (Json.get (cstr "error") (some child))
    else if ev = some (cstr "transaction") then
      Json.get (cstr "id") (Json.get (cstr "transaction") (some child))
    else none
  (lib.getString id).getD (cstr "(null)")

/-- The formatted text of `root_key`; nothing is formatted for a document without an event. -/
def childKeyText (lib : Conversions) (traceId : Bytes) (child : Json) : Bytes :=
  match Json.get (cstr "event") (Json.get (cstr "processor") (some child)) with
  | none => []
  | some event => traceId ++ cstr "-" ++ hexId lib child (lib.getString (some event))

/-- The size of `root_key`. -/
def rootKeySize : ℕ := 96

/-- The key of a child record: `root_key_len` bytes from `root_key`, on past its end when the text
is too long for it; `stack` is what follows there. -/
def childKey (lib : Conversions) (traceId : Bytes) (child : Json) (stack : Bytes) : Bytes :=
  let text := childKeyText lib traceId child
  if text.length < rootKeySize then text
  else snprintf rootKeySize text ++ 0 :: stack.take (text.length - rootKeySize)

/-- A key that fits its buffer is the trace id, a dash and the document's id. -/
theorem childKey_eq {lib : Conversions} {traceId : Bytes} {child : Json} {stack : Bytes}
    (h : (childKeyText lib traceId child).length < rootKeySize) :
    childKey lib traceId child stack = childKeyText lib traceId child :=
  if_pos h

/-! ### Kinds -/

/-- What a record is, and for a child which trace it belongs to. -/
inductive Kind
  | root
  | child (traceId : Bytes)
  | other
  deriving DecidableEq

def Stored.kind : Stored → Kind
  | root _ => .root
  | child c => .child c.traceId
  | _ => .other

/-- A record stays what it is. -/
@[simp] theorem Stored.kind_touch (now : ℕ) (v : Stored) : (v.touch now).kind = v.kind := by
  cases v <;> rfl

theorem Stored.kind_eq_root {v : Stored} : v.kind = .root ↔ ∃ r, v = .root r := by
  cases v <;> simp [kind]

theorem Stored.kind_eq_child {v : Stored} {traceId : Bytes} :
    v.kind = .child traceId ↔ ∃ c, v = .child c ∧ c.traceId = traceId := by
  cases v <;> simp [kind]

end Tracemate.TransactionStore
