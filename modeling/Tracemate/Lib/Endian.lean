import Mathlib.Tactic

/-!
# Byte orders

Numbers of a fixed width as the bytes of a message and as the bytes of the memory.

* `bigEndian k n`: the `k` bytes of `n`, the most significant one first; `ofBigEndian`: the
  number of such bytes; `bigEndian_inj`: below `256 ^ k` no two numbers have the same bytes;
* `bigEndian_add`: the bytes of a wide number are those of its two parts;
* `ByteOrder.store`, `ByteOrder.load`: a number in the memory of a machine;
* `ByteOrder.hton`: the number whose bytes in the memory are in the order of the network.
-/

namespace Endian

/-- The `k` low bytes of a number, the most significant one first. -/
def bigEndian : ℕ → ℕ → List UInt8
  | 0, _ => []
  | k + 1, n => bigEndian k (n / 256) ++ [n.toUInt8]

/-- The number of a sequence of bytes, the most significant one first. -/
def ofBigEndian (bytes : List UInt8) : ℕ := bytes.foldl (fun n b => 256 * n + b.toNat) 0

@[simp] theorem length_bigEndian (k n : ℕ) : (bigEndian k n).length = k := by
  induction k generalizing n with
  | zero => rfl
  | succ k ih => rw [bigEndian, List.length_append, ih, List.length_singleton]

theorem ofBigEndian_append_singleton (bytes : List UInt8) (b : UInt8) :
    ofBigEndian (bytes ++ [b]) = 256 * ofBigEndian bytes + b.toNat := by
  rw [ofBigEndian, List.foldl_append]
  rfl

theorem ofBigEndian_bigEndian (k n : ℕ) : ofBigEndian (bigEndian k n) = n % 256 ^ k := by
  induction k generalizing n with
  | zero => simp [bigEndian, ofBigEndian, Nat.mod_one]
  | succ k ih =>
    have hb : n.toUInt8.toNat = n % 256 := by simp [Nat.toUInt8]
    rw [bigEndian, ofBigEndian_append_singleton, ih, hb, pow_succ', Nat.mod_mul]
    omega

theorem ofBigEndian_lt (bytes : List UInt8) : ofBigEndian bytes < 256 ^ bytes.length := by
  induction bytes using List.reverseRecOn with
  | nil => simp [ofBigEndian]
  | append_singleton bytes b ih =>
    have hb : b.toNat < 256 := b.toNat_lt
    rw [ofBigEndian_append_singleton, List.length_append, List.length_singleton, pow_succ]
    omega

theorem bigEndian_ofBigEndian (bytes : List UInt8) :
    bigEndian bytes.length (ofBigEndian bytes) = bytes := by
  induction bytes using List.reverseRecOn with
  | nil => rfl
  | append_singleton bytes b ih =>
    have hb : b.toNat < 256 := b.toNat_lt
    have hdiv : (256 * ofBigEndian bytes + b.toNat) / 256 = ofBigEndian bytes := by omega
    have hlow : (256 * ofBigEndian bytes + b.toNat).toUInt8 = b := by
      apply UInt8.toNat_inj.1
      simp only [Nat.toUInt8, UInt8.toNat_ofNat']
      omega
    rw [ofBigEndian_append_singleton, List.length_append, List.length_singleton, bigEndian, hdiv,
      hlow, ih]

/-- Numbers of `k` bytes are told apart by their bytes. -/
theorem bigEndian_inj {k m n : ℕ} (hm : m < 256 ^ k) (hn : n < 256 ^ k) :
    bigEndian k m = bigEndian k n ↔ m = n := by
  constructor
  · intro h
    have := congrArg ofBigEndian h
    rwa [ofBigEndian_bigEndian, ofBigEndian_bigEndian, Nat.mod_eq_of_lt hm,
      Nat.mod_eq_of_lt hn] at this
  · rintro rfl
    rfl

/-- The bytes of the upper and of the lower part. -/
theorem bigEndian_add (j k n : ℕ) :
    bigEndian (j + k) n = bigEndian j (n / 256 ^ k) ++ bigEndian k n := by
  induction k generalizing n with
  | zero => simp [bigEndian]
  | succ k ih =>
    rw [← Nat.add_assoc, bigEndian, ih, bigEndian, Nat.div_div_eq_div_mul, ← pow_succ',
      List.append_assoc]

/-- A number in two parts. -/
theorem bigEndian_append {j k : ℕ} (m : ℕ) {n : ℕ} (hn : n < 256 ^ k) :
    bigEndian j m ++ bigEndian k n = bigEndian (j + k) (m * 256 ^ k + n) := by
  have hpos : 0 < 256 ^ k := Nat.pow_pos (by omega)
  have hdiv : (m * 256 ^ k + n) / 256 ^ k = m := by
    rw [Nat.add_comm, Nat.add_mul_div_right _ _ hpos, Nat.div_eq_of_lt hn, Nat.zero_add]
  have hlow : bigEndian k (m * 256 ^ k + n) = bigEndian k n := by
    rw [← bigEndian_ofBigEndian (bigEndian k (m * 256 ^ k + n)),
      ← bigEndian_ofBigEndian (bigEndian k n), ofBigEndian_bigEndian, ofBigEndian_bigEndian,
      length_bigEndian, length_bigEndian, Nat.mul_add_mod']
  rw [bigEndian_add, hdiv, hlow]

/-! ### The memory -/

/-- The order of the bytes of a number in the memory. -/
inductive ByteOrder
  | little
  | big
  deriving DecidableEq

/-- The `k` bytes of the memory that hold a number. -/
def ByteOrder.store (o : ByteOrder) (k n : ℕ) : List UInt8 :=
  match o with
  | .little => (bigEndian k n).reverse
  | .big => bigEndian k n

/-- The number that bytes of the memory hold. -/
def ByteOrder.load (o : ByteOrder) (bytes : List UInt8) : ℕ :=
  match o with
  | .little => ofBigEndian bytes.reverse
  | .big => ofBigEndian bytes

/-- The number whose bytes in the memory are the bytes of `n` in the order of the network. -/
def ByteOrder.hton (o : ByteOrder) (k n : ℕ) : ℕ := o.load (bigEndian k n)

theorem ByteOrder.store_load (o : ByteOrder) (bytes : List UInt8) :
    o.store bytes.length (o.load bytes) = bytes := by
  cases o with
  | little =>
    have h := bigEndian_ofBigEndian bytes.reverse
    rw [List.length_reverse] at h
    rw [load, store, h, List.reverse_reverse]
  | big => exact bigEndian_ofBigEndian bytes

theorem ByteOrder.load_lt (o : ByteOrder) (bytes : List UInt8) :
    o.load bytes < 256 ^ bytes.length := by
  cases o with
  | little => simpa [load] using ofBigEndian_lt bytes.reverse
  | big => exact ofBigEndian_lt bytes

theorem ByteOrder.hton_lt (o : ByteOrder) (k n : ℕ) : o.hton k n < 256 ^ k := by
  simpa [hton] using o.load_lt (bigEndian k n)

/-- On every machine the memory then holds the bytes in the order of the network. -/
theorem ByteOrder.store_hton (o : ByteOrder) (k n : ℕ) :
    o.store k (o.hton k n) = bigEndian k n := by
  simpa [hton] using o.store_load (bigEndian k n)

end Endian
