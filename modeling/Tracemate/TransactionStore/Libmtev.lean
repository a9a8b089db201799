import Tracemate.TransactionStore.Jaeger

/-!
# The compression of libmtev

`store_string` compresses the text of a document, and the readers decompress it into a buffer whose
size they take from the stored length.

* `Libmtev`: the functions of libmtev that compress and decompress;
* `Libmtev.reader`: the library of the readers;
* `runLengthLibrary`: a library that writes texts as run lengths.
-/

namespace Tracemate.TransactionStore

open CStr

/-- `mtev_compress_lz4f`, `mtev_compress_bound` and `mtev_stream_decompress`, which leaves out what
does not fit the buffer. -/
structure Libmtev where
  compressLz4f : Bytes → Option Bytes
  compressBound : ℕ → ℕ
  streamDecompress : Bytes → ℕ → Option Bytes
  streamDecompress_eq : ∀ {text data : Bytes}, compressLz4f text = some data → ∀ outSize,
    streamDecompress data outSize = some (text.take outSize)

/-- The library of the readers, whose buffer is as large as the bound for the stored length. -/
def Libmtev.reader (m : Libmtev) (j : JaegerEnv) : JaegerEnv :=
  { j with decompress := fun data => m.streamDecompress data (m.compressBound data.length) }

/-- A text that fits the buffer is read as a whole. -/
theorem Libmtev.decompress_reader (m : Libmtev) (j : JaegerEnv) (text data : Bytes)
    (h : m.compressLz4f text = some data) (hfits : text.length ≤ m.compressBound data.length) :
    (m.reader j).decompress data = some text :=
  (m.streamDecompress_eq h _).trans (congrArg some (List.take_of_length_le hfits))

/-! ### Run lengths -/

/-- Every run of equal bytes as its length and the byte. -/
def runLengths : Bytes → Bytes
  | [] => []
  | c :: text =>
    match runLengths text with
    | n :: d :: rest => if d = c ∧ n < 255 then (n + 1) :: d :: rest else 1 :: c :: n :: d :: rest
    | rest => 1 :: c :: rest

def fromRunLengths : Bytes → Bytes
  | n :: c :: rest => List.replicate n.toNat c ++ fromRunLengths rest
  | _ => []

theorem fromRunLengths_runLengths (text : Bytes) : fromRunLengths (runLengths text) = text := by
  induction text with
  | nil => rfl
  | cons c text ih =>
    unfold runLengths
    split
    · next n d rest heq =>
      rw [heq, fromRunLengths] at ih
      split_ifs with h
      · obtain ⟨rfl, hn⟩ := h
        have hsucc : (n + 1).toNat = n.toNat + 1 := by
          have := UInt8.lt_iff_toNat_lt.1 hn
          rw [UInt8.toNat_add]
          simp at this ⊢
          omega
        rw [fromRunLengths, hsucc, List.replicate_succ, List.cons_append, ih]
      · rw [fromRunLengths, fromRunLengths, ih]
        rfl
    · next rest hno =>
      have hrest : fromRunLengths (runLengths text) = [] := by
        cases hr : runLengths text with
        | nil => rfl
        | cons n r =>
          cases r with
          | nil => rfl
          | cons d r => exact absurd hr (hno n d r)
      rw [hrest] at ih
      rw [fromRunLengths]
      subst ih
      rfl

/-- A library that writes texts as run lengths. -/
def runLengthLibrary : Libmtev where
  compressLz4f text := some (runLengths text)
  compressBound n := n + n / 255 + 16
  streamDecompress data outSize := some ((fromRunLengths data).take outSize)
  streamDecompress_eq {text data} h outSize := by
    obtain rfl := Option.some.inj h
    rw [fromRunLengths_runLengths]

end Tracemate.TransactionStore
