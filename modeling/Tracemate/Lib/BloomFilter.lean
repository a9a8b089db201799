import Mathlib.Data.BitVec
import Mathlib.Data.List.GetD
import Mathlib.Tactic

/-!
# Bloom filters

A filter is an array of words of 64 bits.  The positions of a hash are those of `a`, `a + b`, …,
where `b` is the hash and `a` the hash with its halves exchanged; the word of a position is found
by multiplication instead of division.

* `add`, `contain`: a hash is added, and looked up;
* `containBranchless`: the lookup that reads the first three words before it branches;
* `positions`: the bits of a hash; `isSet_add`, `contain_iff`, what the two operations do to them;
* `contain_foldl_add`: what a filter answers after any hashes have been added.
-/

namespace BloomFilter

/-! ### Words and bits -/

/-- A number below `p`, without division. -/
def fastrange64 (word : BitVec 64) (p : ℕ) : ℕ := word.toNat * p / 2 ^ 64

/-- The word with this bit. -/
def getBit (index : BitVec 64) : BitVec 64 := 1#64 <<< (index.toNat % 64)

/-- The two halves exchanged. -/
def rotate32 (hash : BitVec 64) : BitVec 64 := hash >>> 32 ||| hash <<< 32

theorem fastrange64_lt {p : ℕ} (hp : 0 < p) (word : BitVec 64) : fastrange64 word p < p := by
  unfold fastrange64
  rw [Nat.div_lt_iff_lt_mul (by positivity), Nat.mul_comm]
  exact (Nat.mul_lt_mul_left hp).2 word.isLt

theorem getLsbD_getBit (index : BitVec 64) (i : ℕ) :
    (getBit index).getLsbD i = decide (i = index.toNat % 64) := by
  unfold getBit
  rw [BitVec.getLsbD_shiftLeft, BitVec.getLsbD_one]
  by_cases h : i = index.toNat % 64
  · simp [h, Nat.mod_lt]
  · have hne : ¬ (i - index.toNat % 64 = 0 ∧ index.toNat % 64 ≤ i) := by omega
    by_cases hle : i < index.toNat % 64
    · simp [hle, h]
    · have : i - index.toNat % 64 ≠ 0 := by omega
      simp [this, h]

/-- A bit is set in a word if the word and the bit have a common bit. -/
theorem and_getBit_eq_zero (word index : BitVec 64) :
    word &&& getBit index = 0 ↔ word.getLsbD (index.toNat % 64) = false := by
  have hlt : index.toNat % 64 < 64 := Nat.mod_lt _ (by omega)
  constructor
  · intro h
    have hbit := congrArg (fun w : BitVec 64 => w.getLsbD (index.toNat % 64)) h
    simpa [getLsbD_getBit index] using hbit
  · intro h
    apply BitVec.eq_of_getLsbD_eq
    intro i hi
    rw [BitVec.getLsbD_and, getLsbD_getBit index]
    by_cases hne : i = index.toNat % 64
    · simp [hne, h]
    · simp [hne]

/-! ### The operations -/

/-- The loop that adds a hash, from the value `a` on. -/
def addFrom (b : BitVec 64) : ℕ → BitVec 64 → List (BitVec 64) → List (BitVec 64)
  | 0, _, data => data
  | k + 1, a, data =>
    addFrom b k (a + b) (data.modify (fastrange64 a data.length) (· ||| getBit a))

/-- `k` bits of the filter are set. -/
def add (k : ℕ) (data : List (BitVec 64)) (hash : BitVec 64) : List (BitVec 64) :=
  addFrom hash k (rotate32 hash) data

/-- The word of a value. -/
def wordAt (data : List (BitVec 64)) (a : BitVec 64) : BitVec 64 :=
  data.getD (fastrange64 a data.length) 0

/-- The loop that looks a hash up, from the value `a` on. -/
def containFrom (data : List (BitVec 64)) (b : BitVec 64) : ℕ → BitVec 64 → Bool
  | 0, _ => true
  | k + 1, a => if wordAt data a &&& getBit a = 0 then false else containFrom data b k (a + b)

/-- Whether `k` bits are set. -/
def contain (k : ℕ) (data : List (BitVec 64)) (hash : BitVec 64) : Bool :=
  containFrom data hash k (rotate32 hash)

/-- The second loop of the lookup without branches. -/
def containRest (data : List (BitVec 64)) (b : BitVec 64) : ℕ → BitVec 64 → Bool
  | 0, _ => true
  | k + 1, a =>
    if wordAt data (a + b) >>> ((a + b).toNat % 64) &&& 1 = 0 then false
    else containRest data b k (a + b)

/-- The lookup that reads three words at once, as numbers of 32 bits. -/
def containBranchless (k : ℕ) (data : List (BitVec 64)) (hash : BitVec 64) : Bool :=
  let b := hash
  let a₀ := rotate32 hash
  let b₀ := (wordAt data a₀ >>> (a₀.toNat % 64)).setWidth 32
  let a₁ := a₀ + b
  let b₁ := (wordAt data a₁ >>> (a₁.toNat % 64)).setWidth 32
  let a₂ := a₁ + b
  let b₂ := (wordAt data a₂ >>> (a₂.toNat % 64)).setWidth 32
  if b₀ &&& b₁ &&& b₂ &&& 1 = 0 then false else containRest data b (k - 3) a₂

/-! ### Positions -/

/-- A word and a bit of it. -/
abbrev Position := ℕ × ℕ

/-- The position of a value in an array of `n` words. -/
def position (n : ℕ) (a : BitVec 64) : Position := (fastrange64 a n, a.toNat % 64)

/-- The positions of the values `a`, `a + b`, …. -/
def positionsFrom (n : ℕ) (b : BitVec 64) : ℕ → BitVec 64 → List Position
  | 0, _ => []
  | k + 1, a => position n a :: positionsFrom n b k (a + b)

/-- The positions of a hash. -/
def positions (k n : ℕ) (hash : BitVec 64) : List Position :=
  positionsFrom n hash k (rotate32 hash)

/-- The bit is set. -/
def IsSet (data : List (BitVec 64)) (p : Position) : Prop :=
  (data.getD p.1 0).getLsbD p.2 = true

variable {k n : ℕ} {data : List (BitVec 64)} {a b hash : BitVec 64} {p : Position}

@[simp] theorem length_addFrom : (addFrom b k a data).length = data.length := by
  induction k generalizing a data with
  | zero => rfl
  | succ k ih => rw [addFrom, ih, List.length_modify]

@[simp] theorem length_add : (add k data hash).length = data.length := length_addFrom

/-- Setting one bit. -/
theorem isSet_modify (hn : 0 < data.length) (a : BitVec 64) :
    IsSet (data.modify (fastrange64 a data.length) (· ||| getBit a)) p ↔
      IsSet data p ∨ p = position data.length a := by
  obtain ⟨w, i⟩ := p
  have hlt := fastrange64_lt hn a
  unfold IsSet
  dsimp only
  rw [List.getD_eq_getElem?_getD, List.getD_eq_getElem?_getD]
  by_cases hw : fastrange64 a data.length = w
  · subst hw
    rw [List.getElem?_modify_eq, List.getElem?_eq_getElem hlt]
    simp [getLsbD_getBit a, position]
  · rw [List.getElem?_modify_ne _ _ hw]
    simp [position, Ne.symm hw]

theorem isSet_addFrom (hn : 0 < data.length) :
    IsSet (addFrom b k a data) p ↔ IsSet data p ∨ p ∈ positionsFrom data.length b k a := by
  induction k generalizing a data with
  | zero => simp [addFrom, positionsFrom]
  | succ k ih =>
    rw [addFrom, ih (by rwa [List.length_modify]), isSet_modify hn, List.length_modify,
      positionsFrom, List.mem_cons, or_assoc]

/-- Adding a hash sets its positions and changes no other. -/
theorem isSet_add (hn : 0 < data.length) :
    IsSet (add k data hash) p ↔ IsSet data p ∨ p ∈ positions k data.length hash :=
  isSet_addFrom hn

theorem containFrom_iff :
    containFrom data b k a = true ↔ ∀ p ∈ positionsFrom data.length b k a, IsSet data p := by
  induction k generalizing a with
  | zero => simp [containFrom, positionsFrom]
  | succ k ih =>
    rw [containFrom, positionsFrom, List.forall_mem_cons, ← ih]
    have hbit : ¬ wordAt data a &&& getBit a = 0 ↔ IsSet data (position data.length a) := by
      rw [and_getBit_eq_zero, Bool.not_eq_false]
      rfl
    split_ifs with h
    · have hnot : ¬ IsSet data (position data.length a) := fun hset => hbit.2 hset h
      simp [hnot]
    · simp [hbit.1 h]

/-- A hash is found if its positions are set. -/
theorem contain_iff :
    contain k data hash = true ↔ ∀ p ∈ positions k data.length hash, IsSet data p :=
  containFrom_iff

theorem isSet_foldl_add (hn : 0 < data.length) (hashes : List (BitVec 64)) :
    IsSet (hashes.foldl (add k) data) p ↔
      IsSet data p ∨ ∃ h ∈ hashes, p ∈ positions k data.length h := by
  induction hashes generalizing data with
  | nil => simp
  | cons h hashes ih =>
    rw [List.foldl_cons, ih (by rwa [length_add]), isSet_add hn, length_add]
    simp [or_assoc]

@[simp] theorem length_foldl_add (hashes : List (BitVec 64)) :
    (hashes.foldl (add k) data).length = data.length := by
  induction hashes generalizing data with
  | nil => rfl
  | cons h hashes ih => rw [List.foldl_cons, ih, length_add]

theorem not_isSet_replicate (p : Position) : ¬ IsSet (List.replicate n 0) p := by
  unfold IsSet
  rw [List.getD_eq_getElem?_getD, List.getElem?_replicate]
  split_ifs <;> simp

/-- After any hashes have been added to an empty filter, it answers yes exactly for the hashes whose
positions are all positions of these. -/
theorem contain_foldl_add (hn : 0 < n) (hashes : List (BitVec 64)) (hash : BitVec 64) :
    contain k (hashes.foldl (add k) (List.replicate n 0)) hash = true ↔
      ∀ p ∈ positions k n hash, ∃ h ∈ hashes, p ∈ positions k n h := by
  rw [contain_iff, length_foldl_add, List.length_replicate]
  refine forall₂_congr fun p _ => ?_
  rw [isSet_foldl_add (by rwa [List.length_replicate]), List.length_replicate]
  exact or_iff_right (not_isSet_replicate p)

/-! ### The lookup without branches -/

/-- The lowest bit. -/
theorem and_one_eq_zero {w : ℕ} (hw : 0 < w) (x : BitVec w) :
    x &&& 1 = 0 ↔ x.getLsbD 0 = false := by
  constructor
  · intro h
    have hbit := congrArg (fun y : BitVec w => y.getLsbD 0) h
    simpa [hw] using hbit
  · intro h
    apply BitVec.eq_of_getLsbD_eq
    intro i hi
    cases i with
    | zero => simp [h]
    | succ i => simp

theorem shift_and_one (word : BitVec 64) (i : ℕ) :
    word >>> i &&& 1 = 0 ↔ word.getLsbD i = false := by
  rw [and_one_eq_zero (by omega), BitVec.getLsbD_ushiftRight, Nat.add_zero]

theorem containRest_eq : containRest data b k a = containFrom data b k (a + b) := by
  induction k generalizing a with
  | zero => rfl
  | succ k ih =>
    rw [containRest, containFrom, ih]
    have hbit : (wordAt data (a + b) >>> ((a + b).toNat % 64) &&& 1 = 0) ↔
        (wordAt data (a + b) &&& getBit (a + b) = 0) := by
      rw [shift_and_one, and_getBit_eq_zero]
    simp only [hbit]

/-- Both lookups give the same answer, if there are three bits to look at. -/
theorem containBranchless_eq (hk : 3 ≤ k) :
    containBranchless k data hash = contain k data hash := by
  obtain ⟨k, rfl⟩ := Nat.exists_eq_add_of_le' hk
  have hlow : ∀ a, ((wordAt data a >>> (a.toNat % 64)).setWidth 32).getLsbD 0 =
      (wordAt data a).getLsbD (a.toNat % 64) := by
    intro a
    simp
  have hone : ∀ x : BitVec 32, x &&& 1 = 0 ↔ x.getLsbD 0 = false := and_one_eq_zero (by omega)
  unfold containBranchless contain
  simp only [containFrom, and_getBit_eq_zero, hone, Nat.add_sub_cancel, containRest_eq,
    BitVec.getLsbD_and, hlow]
  cases (wordAt data (rotate32 hash)).getLsbD ((rotate32 hash).toNat % 64) <;>
    cases (wordAt data (rotate32 hash + hash)).getLsbD ((rotate32 hash + hash).toNat % 64) <;>
      simp

end BloomFilter
