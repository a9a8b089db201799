import Tracemate.Lib.JsonParser

/-!
# Numbers in JSON texts

* `digitsText`: the decimal digits of a number, and `digitsValue_digitsText`, its value;
* `Whole`: the digits that may stand before a point;
* `decodeNumber_parts`: the value of a number from its sign, its digits, its fraction and its
  exponent;
* `run_memberNumber`: a number that is the value of a member is read up to the byte behind it.
-/

namespace JsonC

open CStr Decimal

/-! ### Digits -/

/-- The decimal digits of a number. -/
def digitsText (n : ℕ) : Bytes := (Nat.toDigits 10 n).map fun c => c.toNat.toUInt8

theorem digitsValue_append (ds es : Bytes) :
    digitsValue (ds ++ es) = digitsValue ds * 10 ^ es.length + digitsValue es := by
  unfold digitsValue
  rw [List.foldl_append]
  generalize ds.foldl (fun n d => 10 * n + (d - 48).toNat) 0 = n
  induction es using List.reverseRecOn with
  | nil => simp
  | append_singleton es d ih =>
    simp only [List.foldl_append, List.foldl_cons, List.foldl_nil, ih, List.length_append,
      List.length_singleton, pow_succ]
    ring

/-- The digit of a number below ten. -/
theorem digit_digitChar {d : ℕ} (h : d < 10) :
    isDigit d.digitChar.toNat.toUInt8 = true ∧ (d.digitChar.toNat.toUInt8 - 48).toNat = d := by
  have hall : ∀ i : Fin 10, isDigit (Nat.digitChar i).toNat.toUInt8 = true ∧
      ((Nat.digitChar i).toNat.toUInt8 - 48).toNat = i := by decide
  exact hall ⟨d, h⟩

theorem digitsText_of_lt {n : ℕ} (h : n < 10) : digitsText n = [n.digitChar.toNat.toUInt8] := by
  unfold digitsText
  rw [Nat.toDigits_of_lt_base h]
  rfl

theorem digitsText_of_le {n : ℕ} (h : 10 ≤ n) :
    digitsText n = digitsText (n / 10) ++ [(n % 10).digitChar.toNat.toUInt8] := by
  unfold digitsText
  rw [Nat.toDigits_of_base_le (by omega) h, List.map_append]
  rfl

/-- Induction over the digits of a number, from the first on. -/
theorem digits_induction {motive : ℕ → Prop} (single : ∀ n < 10, motive n)
    (append : ∀ n, 10 ≤ n → motive (n / 10) → motive n) (n : ℕ) : motive n := by
  induction n using Nat.strong_induction_on with
  | _ n ih =>
    rcases Nat.lt_or_ge n 10 with h | h
    · exact single n h
    · exact append n h (ih (n / 10) (by omega))

theorem digitsText_ne_nil (n : ℕ) : digitsText n ≠ [] := by
  simp [digitsText, Nat.toDigits_ne_nil]

theorem isDigit_of_mem_digitsText {n : ℕ} : ∀ c ∈ digitsText n, isDigit c = true := by
  induction n using digits_induction with
  | single n h =>
    rw [digitsText_of_lt h]
    simpa using (digit_digitChar h).1
  | append n h ih =>
    rw [digitsText_of_le h]
    intro c hc
    rcases List.mem_append.1 hc with hc | hc
    · exact ih c hc
    · rw [List.mem_singleton.1 hc]
      exact (digit_digitChar (Nat.mod_lt n (by omega))).1

theorem digitsValue_digitsText (n : ℕ) : digitsValue (digitsText n) = n := by
  induction n using digits_induction with
  | single n h =>
    rw [digitsText_of_lt h]
    simpa [digitsValue] using (digit_digitChar h).2
  | append n h ih =>
    rw [digitsText_of_le h, digitsValue_append, ih]
    have := (digit_digitChar (Nat.mod_lt n (show 10 > 0 by omega))).2
    simp only [digitsValue, List.foldl_cons, List.foldl_nil, this, List.length_singleton]
    omega

/-- No number but zero starts with a zero. -/
theorem head_digitsText {n : ℕ} (hn : n ≠ 0) : (digitsText n).head? ≠ some 48 := by
  induction n using digits_induction with
  | single n h =>
    rw [digitsText_of_lt h]
    intro hhead
    have := (digit_digitChar h).2
    rw [Option.some.inj hhead] at this
    exact hn this.symm
  | append n h ih =>
    rw [digitsText_of_le h, List.head?_append_of_ne_nil _ (digitsText_ne_nil _)]
    exact ih (by omega)

/-! ### The value of a number -/

/-- The digits before the point: some, and a zero only alone. -/
structure Whole (ds : Bytes) : Prop where
  ne_nil : ds ≠ []
  digits : ∀ c ∈ ds, isDigit c = true
  head : ds.length > 1 → ds.head? ≠ some 48

theorem whole_digitsText (n : ℕ) : Whole (digitsText n) where
  ne_nil := digitsText_ne_nil n
  digits := isDigit_of_mem_digitsText
  head hlen := by
    refine head_digitsText ?_
    rintro rfl
    rw [digitsText_of_lt (by omega)] at hlen
    simp at hlen

/-- A minus, or nothing. -/
def signText (negative : Bool) : Bytes := if negative then [45] else []

def signValue (negative : Bool) : ℤ := if negative then -1 else 1

theorem span_digits {ds t : Bytes} (hds : ∀ c ∈ ds, isDigit c = true)
    (ht : ∀ c ∈ t.head?, isDigit c = false) : (ds ++ t).span isDigit = (ds, t) := by
  rw [List.span_eq_takeWhile_dropWhile, List.takeWhile_append_of_pos hds,
    List.dropWhile_append_of_pos hds]
  cases t with
  | nil => simp
  | cons c t =>
    have hc : isDigit c = false := ht c rfl
    simp [hc]

/-- The part of `decodeNumber` behind the sign. -/
def decodeUnsigned (sign : ℤ) (t : Bytes) : Option Json := do
  let (whole, t) := t.span isDigit
  if whole = [] ∨ (whole.length > 1 ∧ whole.head? = some 48) then none
  let (frac, t) ← fraction t
  match ← exponent t with
  | none =>
    if frac = [] then return .int (sign * digitsValue whole)
    return .double (sign * digitsValue (whole ++ frac) / 10 ^ frac.length)
  | some e => return .double (sign * digitsValue (whole ++ frac) / 10 ^ frac.length * 10 ^ e)

theorem decodeNumber_minus (t : Bytes) : decodeNumber (45 :: t) = decodeUnsigned (-1) t := rfl

theorem decodeNumber_cons {c : UInt8} (h : c ≠ 45) (t : Bytes) :
    decodeNumber (c :: t) = decodeUnsigned 1 (c :: t) := by
  unfold decodeNumber
  split
  rename_i hsign
  split at hsign
  · rename_i heq
    exact absurd (List.cons.inj heq).1 h
  · obtain ⟨rfl, rfl⟩ := Prod.mk.inj hsign
    rfl

theorem decodeNumber_sign (negative : Bool) {ds : Bytes} (hds : Whole ds) (t : Bytes) :
    decodeNumber (signText negative ++ (ds ++ t)) =
      decodeUnsigned (signValue negative) (ds ++ t) := by
  cases negative with
  | true => exact decodeNumber_minus _
  | false =>
    obtain ⟨c, ds, rfl⟩ := List.exists_cons_of_ne_nil hds.ne_nil
    refine decodeNumber_cons ?_ _
    rintro rfl
    exact absurd (hds.digits 45 List.mem_cons_self) (by decide)

/-- The value of a number with these parts. -/
def numberValue (negative : Bool) (ds frac : Bytes) : Option ℤ → Json
  | none =>
    if frac = [] then .int (signValue negative * digitsValue ds)
    else .double (signValue negative * digitsValue (ds ++ frac) / 10 ^ frac.length)
  | some e => .double (signValue negative * digitsValue (ds ++ frac) / 10 ^ frac.length * 10 ^ e)

/-- The value of a number, from its parts. -/
theorem decodeNumber_parts (negative : Bool) {ds t frac u : Bytes} {e : Option ℤ} (hds : Whole ds)
    (ht : ∀ c ∈ t.head?, isDigit c = false) (hfrac : fraction t = some (frac, u))
    (he : exponent u = some e) :
    decodeNumber (signText negative ++ (ds ++ t)) = some (numberValue negative ds frac e) := by
  have hguard : ¬ (ds = [] ∨ (ds.length > 1 ∧ ds.head? = some 48)) := by
    rintro (h | h)
    · exact hds.ne_nil h
    · exact hds.head h.1 h.2
  rw [decodeNumber_sign negative hds, decodeUnsigned, span_digits hds.digits ht]
  simp only [if_neg hguard, hfrac, he, Option.bind_eq_bind, Option.bind_some]
  cases e with
  | none =>
    unfold numberValue
    split_ifs <;> rfl
  | some e => rfl

/-- The value of a whole number. -/
theorem decodeNumber_int (negative : Bool) (n : ℕ) :
    decodeNumber (signText negative ++ digitsText n) = some (.int (signValue negative * n)) := by
  have h := decodeNumber_parts negative (whole_digitsText n) (t := []) (by simp) rfl rfl
  rw [List.append_nil] at h
  rw [h, numberValue, if_pos rfl, digitsValue_digitsText]

/-! ### Numbers that are read -/

section Run

variable {st : List Frame} {text number : Bytes} {j : Json} {c : UInt8}

/-- The bytes of a number, the first of which tells that it is one. -/
structure NumberText (text : Bytes) : Prop where
  bytes : ∀ c ∈ text, inNumber c = true
  first : ∃ c t, text = c :: t ∧ (c = 45 ∨ isDigit c = true)

theorem inNumber_of_isDigit (h : isDigit c = true) : inNumber c = true := by
  simp [inNumber, h]

theorem numberText_int (negative : Bool) (n : ℕ) :
    NumberText (signText negative ++ digitsText n) := by
  obtain ⟨d, ds, hds⟩ := List.exists_cons_of_ne_nil (digitsText_ne_nil n)
  have hdigits := isDigit_of_mem_digitsText (n := n)
  constructor
  · intro c hc
    rcases List.mem_append.1 hc with hc | hc
    · cases negative with
      | true =>
        rw [List.mem_singleton.1 hc]
        decide
      | false => cases hc
    · exact inNumber_of_isDigit (hdigits c hc)
  · cases negative with
    | true => exact ⟨45, digitsText n, rfl, .inl rfl⟩
    | false => exact ⟨d, ds, hds, .inr (hdigits d (by simp [hds]))⟩

theorem run_inNumber (h : ∀ c ∈ text, inNumber c = true) (read : Bytes) :
    run ⟨st, .num read⟩ text = some ⟨st, .num (read ++ text)⟩ := by
  induction text generalizing read with
  | nil =>
    rw [List.append_nil]
    rfl
  | cons c text ih =>
    obtain ⟨hc, htext⟩ := List.forall_mem_cons.1 h
    have hstep : step ⟨st, .num read⟩ c = some ⟨st, .num (read ++ [c])⟩ := if_pos hc
    rw [run_cons, hstep]
    show run ⟨st, .num (read ++ [c])⟩ text = _
    rw [ih htext, List.append_assoc]
    rfl

theorem step_first (hc : c = 45 ∨ isDigit c = true) :
    step ⟨st, .value⟩ c = some ⟨st, .num [c]⟩ := by
  have hall : ∀ c : UInt8, c = 45 ∨ isDigit c = true → isSpace c = false ∧ c ≠ 34 ∧ c ≠ 123 ∧
      c ≠ 91 ∧ c ≠ 116 ∧ c ≠ 102 ∧ c ≠ 110 := by
    intro c hc
    rcases hc with rfl | hc
    · decide
    · simp only [isDigit, Bool.and_eq_true, decide_eq_true_eq, UInt8.le_iff_toNat_le] at hc
      simp only [isSpace, Bool.or_eq_false_iff, decide_eq_false_iff_not, ne_eq,
        ← UInt8.toNat_inj]
      simp at hc ⊢
      omega
  obtain ⟨hspace, h34, h123, h91, h116, h102, h110⟩ := hall c hc
  show (if isSpace c then _ else stepValue st c) = _
  rw [if_neg (by simp [hspace]), stepValue, if_neg h34, if_neg h123, if_neg h91, if_neg h116,
    if_neg h102, if_neg h110, if_pos hc]

theorem run_number (h : NumberText number) :
    run ⟨st, .value⟩ number = some ⟨st, .num number⟩ := by
  obtain ⟨c, t, rfl, hc⟩ := h.first
  rw [run_cons, step_first hc]
  exact run_inNumber (List.forall_mem_cons.1 h.bytes).2 [c]

/-- A member whose value is a number, up to the byte behind it. -/
theorem run_memberNumber (h : NumberText number) (hj : decodeNumber number = some j)
    (hc : inNumber c = false) (ms : List (Bytes × Json)) (key text : Bytes) :
    run ⟨.member ms key :: st, .value⟩ (number ++ c :: text) =
      run ⟨.obj ((key, j) :: ms) :: st, .after⟩ (c :: text) := by
  have hnum : step ⟨.member ms key :: st, .num number⟩ c =
      step ⟨.obj ((key, j) :: ms) :: st, .after⟩ c := by
    show (if inNumber c then _ else do
      let s' ← put (← decodeNumber number) (.member ms key :: st)
      if isSpace c then some s' else stepAfter s'.stack c) = _
    rw [if_neg (by simp [hc]), hj]
    rfl
  rw [run_append, run_number h, Option.bind_some, run_cons, run_cons, hnum]

end Run

end JsonC
