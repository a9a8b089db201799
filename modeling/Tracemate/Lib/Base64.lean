import Tracemate.Lib.CStr

/-!
# Base64

The standard alphabet with padding: three bytes become four characters of six bits.

* `encode`: the encoding;
* `mem_characters_of_mem_encode`: what an encoded text is made of;
* `decode`, `decode_encode`: the bytes that are read back.
-/

namespace Base64

open CStr

/-- The characters, by the six bits that they stand for. -/
def alphabet : Bytes := cstr "ABCDEFGHIJKLMNOPQRSTUVWXYZabcdefghijklmnopqrstuvwxyz0123456789+/"

/-- The character of the six low bits. -/
def sextet (n : ℕ) : UInt8 := alphabet.getD (n % 64) 61

/-- The encoding of a byte string. -/
def encode : Bytes → Bytes
  | a :: b :: c :: s =>
    let n := a.toNat * 65536 + b.toNat * 256 + c.toNat
    sextet (n / 262144) :: sextet (n / 4096) :: sextet (n / 64) :: sextet n :: encode s
  | [a, b] =>
    let n := a.toNat * 65536 + b.toNat * 256
    [sextet (n / 262144), sextet (n / 4096), sextet (n / 64), 61]
  | [a] =>
    let n := a.toNat * 65536
    [sextet (n / 262144), sextet (n / 4096), 61, 61]
  | [] => []

example : encode (cstr "Mozilla/5.0") = cstr "TW96aWxsYS81LjA=" := by decide

/-- The characters of an encoded text. -/
def characters : Bytes := alphabet ++ [61]

theorem sextet_mem (n : ℕ) : sextet n ∈ characters := by
  have hn : n % 64 < alphabet.length := Nat.mod_lt n (by decide)
  unfold sextet
  rw [List.getD_eq_getElem?_getD, List.getElem?_eq_getElem hn]
  exact List.mem_append_left _ (List.getElem_mem hn)

theorem mem_characters_of_mem_encode {s : Bytes} : ∀ c ∈ encode s, c ∈ characters := by
  have hpad : (61 : UInt8) ∈ characters := by simp [characters]
  fun_induction encode s with
  | case1 a b c s n ih =>
    simp only [List.forall_mem_cons]
    exact ⟨sextet_mem _, sextet_mem _, sextet_mem _, sextet_mem _, ih⟩
  | case2 => simp only [List.forall_mem_cons, sextet_mem, hpad, true_and]; simp
  | case3 => simp only [List.forall_mem_cons, sextet_mem, hpad, true_and]; simp
  | case4 => simp

/-! ### Decoding -/

/-- The six bits that a character stands for. -/
def sextetValue (c : UInt8) : Option ℕ :=
  if 65 ≤ c ∧ c ≤ 90 then some (c - 65).toNat
  else if 97 ≤ c ∧ c ≤ 122 then some (c - 71).toNat
  else if 48 ≤ c ∧ c ≤ 57 then some (c + 4).toNat
  else if c = 43 then some 62
  else if c = 47 then some 63
  else none

/-- The bytes of an encoded text, if it is one. -/
def decode : Bytes → Option Bytes
  | [] => some []
  | a :: b :: c :: d :: s => do
    let n := (← sextetValue a) * 64 + (← sextetValue b)
    if c = 61 then
      if d = 61 ∧ s = [] then return [(n / 16).toUInt8] else none
    else
      let n := n * 64 + (← sextetValue c)
      if d = 61 then
        if s = [] then return [(n / 1024).toUInt8, (n / 4).toUInt8] else none
      else
        let n := n * 64 + (← sextetValue d)
        return (n / 65536).toUInt8 :: (n / 256).toUInt8 :: n.toUInt8 :: (← decode s)
  | _ => none

set_option maxRecDepth 2000 in
/-- A character stands for its six bits, and is no padding. -/
theorem sextetValue_sextet (n : ℕ) : sextetValue (sextet n) = some (n % 64) ∧ sextet n ≠ 61 := by
  have hall : ∀ i : Fin 64, sextetValue (sextet i) = some i.val ∧ sextet i ≠ 61 := by decide
  have h := hall ⟨n % 64, Nat.mod_lt n (by omega)⟩
  simpa only [sextet, Nat.mod_mod] using h

theorem toUInt8_eq {n : ℕ} {c : UInt8} (h : n % 256 = c.toNat) : n.toUInt8 = c :=
  UInt8.toNat.inj (by rw [Nat.toUInt8_eq, UInt8.toNat_ofNat', h])

/-- Decoding undoes encoding. -/
theorem decode_encode (s : Bytes) : decode (encode s) = some s := by
  fun_induction encode s with
  | case1 a b c s n ih =>
    have ha := a.toNat_lt
    have hb := b.toNat_lt
    have hc := c.toNat_lt
    have hn : ((n / 262144 % 64 * 64 + n / 4096 % 64) * 64 + n / 64 % 64) * 64 + n % 64 = n := by
      omega
    simp only [decode, sextetValue_sextet, ih, Option.bind_eq_bind, Option.bind_some, if_false,
      Option.pure_def, hn]
    rw [toUInt8_eq (c := a) (by omega), toUInt8_eq (c := b) (by omega),
      toUInt8_eq (c := c) (by omega)]
  | case2 a b n =>
    have ha := a.toNat_lt
    have hb := b.toNat_lt
    have hn : (n / 262144 % 64 * 64 + n / 4096 % 64) * 64 + n / 64 % 64 = n / 64 := by omega
    simp only [decode, sextetValue_sextet, Option.bind_eq_bind, Option.bind_some, if_false, if_true,
      Option.pure_def, hn]
    rw [toUInt8_eq (c := a) (by omega), toUInt8_eq (c := b) (by omega)]
  | case3 a n =>
    have ha := a.toNat_lt
    have hn : n / 262144 % 64 * 64 + n / 4096 % 64 = n / 4096 := by omega
    simp only [decode, sextetValue_sextet, Option.bind_eq_bind, Option.bind_some, if_true,
      Option.pure_def, hn, and_self]
    rw [toUInt8_eq (c := a) (by omega)]
  | case4 => rfl

end Base64
