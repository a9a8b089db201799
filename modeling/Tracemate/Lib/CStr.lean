import Mathlib.Data.List.TakeWhile
import Mathlib.Tactic

/-!
# C strings

A C string is the list of its bytes up to the terminating `NUL`.

* `cstr`: the bytes of an ASCII literal;
* `takeWhile_run`, `run_unique`: a run of bytes up to one that ends it;
* `strtok d s`: the tokens that repeated calls of `strtok_r` with the single delimiter `d`
  return, that is, the non-empty pieces of `s` between delimiters;
* `strstr needle s`: the suffix of `s` that starts at the first occurrence of `needle`;
* `snprintf size s`: what `snprintf` leaves of the formatted text `s` in a buffer.
-/

namespace CStr

/-- The bytes of a C string. -/
abbrev Bytes := List UInt8

-- named once, for all that decide whether a string is in a list
instance : LawfulBEq Bytes := inferInstance

/-- The bytes of an ASCII literal. -/
def cstr (s : String) : Bytes := s.toList.map fun c => c.toNat.toUInt8

/-- The bytes of a literal from its characters: for a literal, `h` is `rfl`, and nothing is left
to decode. -/
theorem cstr_ofList {s : String} {l : List Char} (h : s = String.ofList l) :
    cstr s = l.map fun c => c.toNat.toUInt8 := by
  rw [h, cstr, String.toList_ofList]

/-! ### Runs -/

/-- A run ends at the first of its bytes, or with the string. -/
theorem takeWhile_run {b : UInt8} {s t : Bytes} (hs : b ∉ s) (ht : ∀ c ∈ t.head?, c = b) :
    (s ++ t).takeWhile (· ≠ b) = s := by
  rw [List.takeWhile_append_of_pos fun c hc => by simpa using fun h : c = b => hs (h ▸ hc)]
  cases t with
  | nil => simp
  | cons c t => simp [ht c rfl]

theorem run_unique {b : UInt8} {s s' t t' : Bytes} (hs : b ∉ s) (hs' : b ∉ s')
    (ht : ∀ c ∈ t.head?, c = b) (ht' : ∀ c ∈ t'.head?, c = b) (h : s ++ t = s' ++ t') :
    s = s' ∧ t = t' := by
  have hrun : s = s' := by rw [← takeWhile_run hs ht, h, takeWhile_run hs' ht']
  subst hrun
  exact ⟨rfl, List.append_cancel_left h⟩

theorem head?_dropWhile_ne (b : UInt8) (s : Bytes) : ∀ c ∈ (s.dropWhile (· ≠ b)).head?, c = b := by
  intro c hc
  have := List.head?_dropWhile_not (· ≠ b) s
  rw [hc] at this
  simpa using this

theorem notMem_takeWhile_ne (b : UInt8) (s : Bytes) : b ∉ s.takeWhile (· ≠ b) := fun h => by
  simpa using List.mem_takeWhile_imp h

/-! ### Tokens -/

/-- The tokens of a string whose first bytes, read so far, are `acc`. -/
def strtokFrom (d : UInt8) : Bytes → Bytes → List Bytes
  | acc, [] => if acc = [] then [] else [acc]
  | acc, c :: s =>
    if c = d then
      if acc = [] then strtokFrom d [] s else acc :: strtokFrom d [] s
    else strtokFrom d (acc ++ [c]) s

/-- The tokens of repeated calls of `strtok_r` with the delimiter `d`. -/
def strtok (d : UInt8) (s : Bytes) : List Bytes := strtokFrom d [] s

variable {d : UInt8} {a s t : Bytes}

/-- Bytes other than the delimiter extend the token that is being read. -/
theorem strtokFrom_append (h : d ∉ a) (acc s : Bytes) :
    strtokFrom d acc (a ++ s) = strtokFrom d (acc ++ a) s := by
  induction a generalizing acc with
  | nil => simp
  | cons c a ih =>
    simp only [List.mem_cons, not_or] at h
    rw [List.cons_append, strtokFrom, if_neg (Ne.symm h.1), ih h.2, List.append_assoc]
    rfl

@[simp] theorem strtok_nil : strtok d [] = [] := rfl

@[simp] theorem strtok_cons_delim (s : Bytes) : strtok d (d :: s) = strtok d s := by
  simp [strtok, strtokFrom]

/-- The bytes before the first delimiter are the first token. -/
theorem strtok_append_delim (h : d ∉ a) (hne : a ≠ []) (s : Bytes) :
    strtok d (a ++ d :: s) = a :: strtok d s := by
  rw [strtok, strtokFrom_append h]
  simp [strtokFrom, hne, strtok]

/-- A delimiter ends a token whatever stands before it. -/
theorem strtok_append_cons (a s : Bytes) : strtok d (a ++ d :: s) = strtok d a ++ strtok d s := by
  suffices h : ∀ acc, strtokFrom d acc (a ++ d :: s) = strtokFrom d acc a ++ strtok d s from h []
  intro acc
  induction a generalizing acc with
  | nil =>
    simp only [List.nil_append, strtokFrom, if_true]
    split_ifs
    · rfl
    · rfl
  | cons c a ih =>
    rw [List.cons_append, strtokFrom, strtokFrom]
    split_ifs
    · exact ih []
    · rw [ih [], List.cons_append]
    · exact ih (acc ++ [c])

/-- No token is empty, and none contains the delimiter. -/
theorem strtokFrom_spec (hacc : d ∉ acc) (s : Bytes) :
    ∀ t ∈ strtokFrom d acc s, t ≠ [] ∧ d ∉ t := by
  induction s generalizing acc with
  | nil =>
    intro t ht
    simp only [strtokFrom] at ht
    split_ifs at ht with h
    · cases ht
    · rw [List.mem_singleton.1 ht]; exact ⟨h, hacc⟩
  | cons c s ih =>
    intro t ht
    simp only [strtokFrom] at ht
    split_ifs at ht with hc hnil
    · exact ih List.not_mem_nil t ht
    · rcases List.mem_cons.1 ht with rfl | ht
      · exact ⟨hnil, hacc⟩
      · exact ih List.not_mem_nil t ht
    · exact ih (by simp [hacc, Ne.symm hc]) t ht

theorem ne_nil_of_mem_strtok (h : t ∈ strtok d s) : t ≠ [] :=
  (strtokFrom_spec List.not_mem_nil s t h).1

theorem notMem_of_mem_strtok (h : t ∈ strtok d s) : d ∉ t :=
  (strtokFrom_spec List.not_mem_nil s t h).2

/-- A token is a piece of the string. -/
theorem strtokFrom_infix (acc s : Bytes) : ∀ t ∈ strtokFrom d acc s, t <:+: acc ++ s := by
  induction s generalizing acc with
  | nil =>
    intro t ht
    simp only [strtokFrom] at ht
    split_ifs at ht with h
    · cases ht
    · rw [List.mem_singleton.1 ht, List.append_nil]
  | cons c s ih =>
    intro t ht
    simp only [strtokFrom] at ht
    split_ifs at ht with hc hnil
    · subst hnil
      exact (ih [] t ht).trans (List.suffix_cons c s).isInfix
    · rcases List.mem_cons.1 ht with rfl | ht
      · exact (List.prefix_append t (c :: s)).isInfix
      · exact (ih [] t ht).trans ((List.suffix_cons c s).trans (List.suffix_append acc _)).isInfix
    · simpa using ih (acc ++ [c]) t ht

theorem infix_of_mem_strtok (h : t ∈ strtok d s) : t <:+: s := strtokFrom_infix [] s t h

/-- The first delimiter splits a string in one way. -/
theorem append_delim_inj {b : Bytes} (ha : d ∉ a) (hb : d ∉ b) (h : a ++ d :: s = b ++ d :: t) :
    a = b ∧ s = t := by
  rcases List.append_eq_append_iff.1 h with ⟨y, rfl, hy⟩ | ⟨y, rfl, hy⟩
  · cases y with
    | nil => exact ⟨(List.append_nil a).symm, (List.cons.inj hy).2⟩
    | cons e y =>
      obtain ⟨rfl, -⟩ := List.cons.inj hy
      exact absurd (by simp) hb
  · cases y with
    | nil => exact ⟨List.append_nil b, (List.cons.inj hy).2.symm⟩
    | cons e y =>
      obtain ⟨rfl, -⟩ := List.cons.inj hy
      exact absurd (by simp) ha

/-! ### Substrings -/

variable {w b : Bytes} {c : UInt8}

/-- A word that no end of `a` can be the start of occurs after `a` only. -/
theorem infix_of_infix_append (ha : ∀ t ∈ a.tails, t ≠ [] → ¬ t <+: w ∧ ¬ w <+: t)
    (h : w <:+: a ++ b) : w <:+: b := by
  induction a with
  | nil => exact h
  | cons c a ih =>
    rcases List.infix_cons_iff.1 h with h | h
    · obtain ⟨hshort, hlong⟩ := ha (c :: a) (by simp) (List.cons_ne_nil c a)
      rcases List.prefix_or_prefix_of_prefix h (List.prefix_append (c :: a) b) with h | h
      · exact absurd h hlong
      · exact absurd h hshort
    · exact ih (fun t ht => ha t (by simp [List.mem_tails] at ht ⊢; exact .inr ht)) h

/-! ### Searching -/

/-- The suffix of the string that starts at the first occurrence of `needle`. -/
def strstr (needle : Bytes) : Bytes → Option Bytes
  | [] => if needle = [] then some [] else none
  | c :: s => if needle <+: c :: s then some (c :: s) else strstr needle s

theorem strstr_eq_none_iff : strstr w s = none ↔ ¬ w <:+: s := by
  induction s with
  | nil => simp [strstr]
  | cons c s ih =>
    rw [strstr, List.infix_cons_iff]
    split_ifs with h
    · simp [h]
    · simp [h, ih]

theorem strstr_of_start (h : w <+: s) : strstr w s = some s := by
  cases s with
  | nil => simpa [strstr] using h
  | cons c s => rw [strstr, if_pos h]

/-- What is found is a suffix that starts with the word. -/
theorem strstr_spec {pos : Bytes} (h : strstr w s = some pos) : w <+: pos ∧ pos <:+ s := by
  induction s with
  | nil =>
    rw [strstr] at h
    split_ifs at h with hw
    obtain rfl := Option.some.inj h
    exact ⟨by rw [hw], List.suffix_rfl⟩
  | cons c s ih =>
    rw [strstr] at h
    split_ifs at h with hw
    · obtain rfl := Option.some.inj h
      exact ⟨hw, List.suffix_rfl⟩
    · obtain ⟨hstart, hsuffix⟩ := ih h
      exact ⟨hstart, hsuffix.trans (List.suffix_cons c s)⟩

/-- What stands in front of the first occurrence does not have the word. -/
theorem strstr_first {pos : Bytes} (hw : w ≠ []) (h : strstr w s = some pos) :
    ∃ front, s = front ++ pos ∧ ¬ w <:+: front := by
  induction s with
  | nil =>
    rw [strstr, if_neg hw] at h
    cases h
  | cons c s ih =>
    rw [strstr] at h
    split_ifs at h with hstart
    · exact ⟨[], Option.some.inj h, fun hinf => hw (List.eq_nil_of_infix_nil hinf)⟩
    · obtain ⟨front, rfl, hfront⟩ := ih h
      refine ⟨c :: front, rfl, fun hinf => ?_⟩
      rcases List.infix_cons_iff.1 hinf with hpre | hinf
      · exact hstart (hpre.trans (List.prefix_append (c :: front) pos))
      · exact hfront hinf

/-- The first occurrence of a word whose first byte it does not repeat. -/
theorem strstr_append (hc : c ∉ w) (ha : ¬ (c :: w) <:+: a) (b : Bytes) :
    strstr (c :: w) (a ++ (c :: w) ++ b) = some ((c :: w) ++ b) := by
  induction a with
  | nil => exact strstr_of_start (List.prefix_append _ b)
  | cons e a ih =>
    have hnot : ¬ (c :: w) <+: e :: a ++ (c :: w) ++ b := by
      intro h
      rw [List.append_assoc] at h
      rcases List.prefix_or_prefix_of_prefix h (List.prefix_append (e :: a) _) with hp | hp
      · exact ha hp.isInfix
      · -- the occurrence would start in `a` and end behind it
        obtain ⟨u, hu⟩ := hp
        rw [← hu, List.prefix_append_right_inj] at h
        cases u with
        | nil =>
          rw [List.append_nil] at hu
          exact ha (hu ▸ List.infix_rfl)
        | cons f u =>
          obtain ⟨hfe, -⟩ := List.cons_prefix_cons.1 h
          obtain ⟨hec, rfl⟩ := List.cons.inj hu
          exact hc (by simp [hfe, hec])
    simp only [List.cons_append] at hnot ⊢
    rw [strstr, if_neg hnot]
    simpa using ih fun h => ha (h.trans (List.suffix_cons e a).isInfix)

/-! ### Formatting -/

/-- What `snprintf(buf, size, …)` leaves in `buf` of the formatted text. -/
def snprintf (size : ℕ) (text : Bytes) : Bytes := text.take (size - 1)

end CStr
