import Mathlib.Data.Rat.Defs
import Tracemate.Lib.CStr

/-!
# JSON values

The values of a JSON library in the style of `json-c`: a missing member and a `null` are both the
null pointer, and every accessor may be called on it.

* `Json`: the values, and `Json.get`, the member of an object;
* `Conversions`: the conversions that the library makes between types;
* `Conversions.getString`: the string of a value, of any type;
* `decodeString`: the string that the text between two quotes stands for; `StringBody`: the texts
  that stand for one.
-/

namespace JsonC

open CStr

/-- A JSON value. -/
inductive Json
  | null
  | bool (b : Bool)
  | int (n : ℤ)
  | double (d : ℚ)
  | str (s : Bytes)
  | arr (items : List Json)
  | obj (members : List (Bytes × Json))

/-- The pointer to a value: a `null` has none. -/
def Json.pointer : Json → Option Json
  | .null => none
  | j => some j

/-- The member of an object; anything else has no members. -/
def Json.get (name : Bytes) : Option Json → Option Json
  | some (.obj members) => (members.lookup name).bind Json.pointer
  | _ => none

/-- The item of an array. -/
def Json.item (i : ℕ) : Option Json → Option Json
  | some (.arr items) => items[i]?.bind Json.pointer
  | _ => none

/-- What the library makes of a value when another type is asked for. -/
structure Conversions where
  toJsonString : Json → Bytes
  getUint64 : Option Json → ℕ
  getInt : Option Json → ℤ
  getDouble : Option Json → ℚ
  getBoolean : Option Json → Bool

/-- The string of a value: its own, or its text for a value of another type. -/
def Conversions.getString (lib : Conversions) : Option Json → Option Bytes
  | none => none
  | some (.str s) => some s
  | some j => some (lib.toJsonString j)

/-! ### Strings in JSON texts -/

/-- The value of a hexadecimal digit. -/
def hexValue (c : UInt8) : Option ℕ :=
  if 48 ≤ c ∧ c ≤ 57 then some (c - 48).toNat
  else if 97 ≤ c ∧ c ≤ 102 then some (c - 87).toNat
  else if 65 ≤ c ∧ c ≤ 70 then some (c - 55).toNat
  else none

/-- The number of four hexadecimal digits. -/
def hexNumber (a b c d : UInt8) : Option ℕ := do
  return (← hexValue a) * 4096 + (← hexValue b) * 256 + (← hexValue c) * 16 + (← hexValue d)

/-- The bytes of a code unit.  The two halves of a surrogate pair are encoded one by one. -/
def utf8 (n : ℕ) : Bytes :=
  if n < 128 then [n.toUInt8]
  else if n < 2048 then [(192 + n / 64).toUInt8, (128 + n % 64).toUInt8]
  else [(224 + n / 4096).toUInt8, (128 + n / 64 % 64).toUInt8, (128 + n % 64).toUInt8]

/-- The byte that a backslash and one character stand for. -/
def unescape (c : UInt8) : Option UInt8 :=
  if c = 34 ∨ c = 92 ∨ c = 47 then some c
  else if c = 98 then some 8
  else if c = 102 then some 12
  else if c = 110 then some 10
  else if c = 114 then some 13
  else if c = 116 then some 9
  else none

/-- The string that the text between two quotes stands for, if it is the body of a string. -/
def decodeString : Bytes → Option Bytes
  | [] => some []
  | c :: s =>
    if c = 92 then
      match s with
      | [] => none
      | e :: s =>
        if e = 117 then
          match s with
          | h₁ :: h₂ :: h₃ :: h₄ :: s => do return utf8 (← hexNumber h₁ h₂ h₃ h₄) ++ (← decodeString s)
          | _ => none
        else do return (← unescape e) :: (← decodeString s)
    else if c = 34 ∨ c < 32 then none
    else do return c :: (← decodeString s)

/-- A byte that stands for itself. -/
theorem decodeString_plain {c : UInt8} (h92 : c ≠ 92) (h34 : c ≠ 34) (hc : ¬ c < 32) (s : Bytes) :
    decodeString (c :: s) = (decodeString s).map (c :: ·) := by
  rw [decodeString.eq_def]
  simp only [if_neg h92, if_neg (not_or.2 ⟨h34, hc⟩)]
  cases decodeString s <;> rfl

/-- A backslash and one character. -/
theorem decodeString_unescape {e c : UInt8} (he : e ≠ 117) (h : unescape e = some c) (s : Bytes) :
    decodeString (92 :: e :: s) = (decodeString s).map (c :: ·) := by
  rw [decodeString.eq_def]
  simp only [if_true, if_neg he, h]
  cases decodeString s <;> rfl

/-- A backslash, `u` and four digits. -/
theorem decodeString_hexNumber {h₁ h₂ h₃ h₄ : UInt8} {n : ℕ} (h : hexNumber h₁ h₂ h₃ h₄ = some n)
    (s : Bytes) :
    decodeString (92 :: 117 :: h₁ :: h₂ :: h₃ :: h₄ :: s) = (decodeString s).map (utf8 n ++ ·) := by
  rw [decodeString.eq_def]
  simp only [if_true, h]
  cases decodeString s <;> rfl

/-- Induction over a text and the string that it stands for. -/
theorem decodeString_induction {motive : Bytes → Bytes → Prop} (nil : motive [] [])
    (plain : ∀ c b s, c ≠ 92 → c ≠ 34 → ¬ c < 32 → motive b s → motive (c :: b) (c :: s))
    (escape : ∀ e c b s, unescape e = some c → motive b s → motive (92 :: e :: b) (c :: s))
    (hex : ∀ h₁ h₂ h₃ h₄ n b s, hexNumber h₁ h₂ h₃ h₄ = some n → motive b s →
      motive (92 :: 117 :: h₁ :: h₂ :: h₃ :: h₄ :: b) (utf8 n ++ s))
    {b s : Bytes} (h : decodeString b = some s) : motive b s := by
  fun_induction decodeString b generalizing s with
  | case1 =>
    obtain rfl := Option.some.inj h
    exact nil
  | case2 => cases h
  | case3 h₁ h₂ h₃ h₄ b ih =>
    obtain ⟨n, hn, h⟩ := Option.bind_eq_some_iff.1 h
    obtain ⟨t, ht, h⟩ := Option.bind_eq_some_iff.1 h
    obtain rfl := Option.some.inj h
    exact hex _ _ _ _ n b t hn (ih ht)
  | case4 => cases h
  | case5 e b he ih =>
    obtain ⟨c, hc, h⟩ := Option.bind_eq_some_iff.1 h
    obtain ⟨t, ht, h⟩ := Option.bind_eq_some_iff.1 h
    obtain rfl := Option.some.inj h
    exact escape e c b t hc (ih ht)
  | case6 => cases h
  | case7 c b h92 hc ih =>
    obtain ⟨t, ht, h⟩ := Option.bind_eq_some_iff.1 h
    obtain rfl := Option.some.inj h
    obtain ⟨h34, hc⟩ := not_or.1 hc
    exact plain c b t h92 h34 hc (ih ht)

/-- The bodies of strings: bytes other than quotes, backslashes and control bytes, and escapes. -/
inductive StringBody : Bytes → Prop
  | nil : StringBody []
  | plain {c : UInt8} {b : Bytes} (h92 : c ≠ 92) (h34 : c ≠ 34) (hc : ¬ c < 32)
      (h : StringBody b) : StringBody (c :: b)
  | escape {e : UInt8} {b : Bytes} (he : e ∈ cstr "\"\\/bfnrt") (h : StringBody b) :
      StringBody (92 :: e :: b)
  | hex {h₁ h₂ h₃ h₄ : UInt8} {b : Bytes} (hhex : ∀ d ∈ [h₁, h₂, h₃, h₄], (hexValue d).isSome)
      (h : StringBody b) : StringBody (92 :: 117 :: h₁ :: h₂ :: h₃ :: h₄ :: b)

theorem isSome_unescape {e : UInt8} : (unescape e).isSome ↔ e ∈ cstr "\"\\/bfnrt" := by
  have hlist : cstr "\"\\/bfnrt" = [34, 92, 47, 98, 102, 110, 114, 116] := by decide
  unfold unescape
  rw [hlist]
  split_ifs <;> simp_all
  tauto

theorem isSome_hexNumber {h₁ h₂ h₃ h₄ : UInt8} {n : ℕ} (h : hexNumber h₁ h₂ h₃ h₄ = some n) :
    ∀ d ∈ [h₁, h₂, h₃, h₄], (hexValue d).isSome := by
  obtain ⟨n₁, hn₁, h⟩ := Option.bind_eq_some_iff.1 h
  obtain ⟨n₂, hn₂, h⟩ := Option.bind_eq_some_iff.1 h
  obtain ⟨n₃, hn₃, h⟩ := Option.bind_eq_some_iff.1 h
  obtain ⟨n₄, hn₄, -⟩ := Option.bind_eq_some_iff.1 h
  simp [hn₁, hn₂, hn₃, hn₄]

/-- What stands for a string is the body of one. -/
theorem stringBody_of_decodeString {b s : Bytes} (h : decodeString b = some s) : StringBody b := by
  refine decodeString_induction (motive := fun b _ => StringBody b) .nil ?_ ?_ ?_ h
  · intro c b s h92 h34 hc ih
    exact .plain h92 h34 hc ih
  · intro e c b s he ih
    exact .escape (isSome_unescape.1 (by rw [he]; rfl)) ih
  · intro h₁ h₂ h₃ h₄ n b s hn ih
    exact .hex (isSome_hexNumber hn) ih

/-! ### A reference library

The library on texts without bytes that are escaped, and on doubles that are whole numbers. -/

/-- The decimal digits of a number. -/
def natText (n : ℕ) : Bytes := cstr (toString n)

mutual
/-- The text of a value. -/
def Json.text : Json → Bytes
  | .null => cstr "null"
  | .bool b => if b then cstr "true" else cstr "false"
  | .int n => if n < 0 then cstr "-" ++ natText n.natAbs else natText n.natAbs
  | .double d => natText d.floor.natAbs
  | .str s => cstr "\"" ++ s ++ cstr "\""
  | .arr items => cstr "[" ++ Json.itemsText items ++ cstr " ]"
  | .obj members => cstr "\x7b" ++ Json.membersText members ++ cstr " \x7d"
/-- The items of an array. -/
def Json.itemsText : List Json → Bytes
  | [] => []
  | j :: items => cstr " " ++ j.text ++ (if items.isEmpty then [] else cstr ",") ++
      Json.itemsText items
/-- The members of an object. -/
def Json.membersText : List (Bytes × Json) → Bytes
  | [] => []
  | m :: members => cstr " " ++ Json.memberText m ++
      (if members.isEmpty then [] else cstr ",") ++ Json.membersText members
/-- One member. -/
def Json.memberText : Bytes × Json → Bytes
  | (name, j) => cstr "\"" ++ name ++ cstr "\": " ++ j.text
end

/-- The library on values of the type that is asked for, and on missing ones. -/
def reference : Conversions where
  toJsonString := Json.text
  getUint64
    | some (.int n) => n.toNat
    | some (.double d) => d.floor.toNat
    | _ => 0
  getInt
    | some (.int n) => n
    | some (.double d) => d.floor
    | _ => 0
  getDouble
    | some (.int n) => n
    | some (.double d) => d
    | _ => 0
  getBoolean
    | some (.bool b) => b
    | _ => false

example : Json.text (.obj [(cstr "id", .str (cstr "a")), (cstr "sampled", .bool true)]) =
    cstr "\x7b \"id\": \"a\", \"sampled\": true \x7d" := by decide

end JsonC
