import Tracemate.Lib.CStr

/-!
# A fragment of regular expressions

Patterns with one group around a sequence of items, each a byte, an escaped slash, `.`,
`[^\/]+` or `.*`, as a search of a backtracking engine reads them.

* `Item.Matches`, `Matches`: the bytes that an item and a sequence match;
* `Occurs`: some part of the subject is matched, which is what an unanchored search looks for;
* `print`: the text of a pattern; `parse`: its inverse on regular items (`parse_print`);
* `search`: the greedy backtracking search from the left; it finds a match exactly if there is
  one (`search_isSome_iff`), and the one that is furthest to the left (`search_first`);
* `Engine`, `Agrees`, `Follows`: an engine that reads the fragment this way, as to whether there
  is a match, and as to its ends; `reference` is one;
* `AnchoredAt`, `ReadsAnchored`: patterns `^…(…)$` with items before the group.
-/

namespace Pattern

open CStr

/-- An item of a pattern. -/
inductive Item
  /-- The byte itself. -/
  | byte (b : UInt8)
  /-- A backslash and the byte. -/
  | escaped (b : UInt8)
  /-- `.` -/
  | any
  /-- `[^\b]+` -/
  | manyExcept (b : UInt8)
  /-- `.*` -/
  | rest
  deriving DecidableEq

/-- The bytes that do not stand for themselves outside of a class: the terminator of the pattern,
`^ $ | ( ) [ * + ? \ {` and `.`. -/
def metaBytes : Bytes := 0 :: cstr "^$|()[*+?\\\x7b."

/-! ### Meaning -/

/-- The item matches exactly these bytes. -/
def Item.Matches : Item → Bytes → Prop
  | byte b, s => s = [b]
  | escaped b, s => s = [b]
  | any, s => ∃ c, c ≠ 10 ∧ s = [c]
  | manyExcept b, s => s ≠ [] ∧ b ∉ s
  | rest, s => 10 ∉ s

/-- The items match these bytes, one after the other. -/
def Matches : List Item → Bytes → Prop
  | [], s => s = []
  | i :: is, s => ∃ a b, s = a ++ b ∧ i.Matches a ∧ Matches is b

/-- Some part of the subject is matched. -/
def Occurs (is : List Item) (s : Bytes) : Prop := ∃ a b c, s = a ++ b ++ c ∧ Matches is b

theorem matches_append {is js : List Item} {s : Bytes} :
    Matches (is ++ js) s ↔ ∃ a b, s = a ++ b ∧ Matches is a ∧ Matches js b := by
  induction is generalizing s with
  | nil =>
    constructor
    · exact fun h => ⟨[], s, rfl, rfl, h⟩
    · rintro ⟨a, b, rfl, rfl, h⟩
      exact h
  | cons i is ih =>
    constructor
    · rintro ⟨a, b, rfl, ha, hb⟩
      obtain ⟨c, d, rfl, hc, hd⟩ := ih.1 hb
      exact ⟨a ++ c, d, by rw [List.append_assoc], ⟨a, c, rfl, ha, hc⟩, hd⟩
    · rintro ⟨c, d, rfl, ⟨a, b, rfl, ha, hb⟩, hd⟩
      exact ⟨a, b ++ d, by rw [List.append_assoc], ha, ih.2 ⟨b, d, rfl, hb, hd⟩⟩

/-! ### Text -/

def Item.print : Item → Bytes
  | byte b => [b]
  | escaped b => [92, b]
  | any => [46]
  | manyExcept b => [91, 94, 92, b, 93, 43]
  | rest => [46, 42]

/-- The text of the group of a sequence of items. -/
def print (is : List Item) : Bytes := 40 :: is.flatMap Item.print ++ [41]

/-- A byte stands for itself; a slash is the only byte behind a backslash, where a letter or a
digit would have another meaning. -/
def Item.Regular : Item → Prop
  | byte b => b ∉ metaBytes
  | escaped b => b = 47
  | any => True
  | manyExcept b => b = 47
  | rest => True

instance (i : Item) : Decidable i.Regular := by
  cases i <;> unfold Item.Regular <;> infer_instance

/-- The items of the text inside the group. -/
def parseItems : Bytes → Option (List Item)
  | [] => some []
  | 92 :: 47 :: s => (parseItems s).map (.escaped 47 :: ·)
  | 46 :: 42 :: s => (parseItems s).map (.rest :: ·)
  | 46 :: s => (parseItems s).map (.any :: ·)
  | 91 :: 94 :: 92 :: 47 :: 93 :: 43 :: s => (parseItems s).map (.manyExcept 47 :: ·)
  | b :: s => if b ∈ metaBytes then none else (parseItems s).map (.byte b :: ·)

/-- The items of a pattern. -/
def parse : Bytes → Option (List Item)
  | [] => none
  | c :: s => if c = 40 ∧ s.getLast? = some 41 then parseItems s.dropLast else none

/-- The text of regular items does not start with a quantifier. -/
theorem ne_star_of_print {is : List Item} (h : ∀ i ∈ is, i.Regular) (s : Bytes) :
    is.flatMap Item.print ≠ 42 :: s := by
  cases is with
  | nil => simp
  | cons i is =>
    intro heq
    cases i with
    | byte b =>
      obtain rfl : b = 42 := by simpa [Item.print] using (List.cons.inj heq).1
      exact absurd (h _ List.mem_cons_self) (by decide)
    | _ => simp [Item.print] at heq

theorem parseItems_byte {b : UInt8} (hb : b ∉ metaBytes) (s : Bytes) :
    parseItems (b :: s) = (parseItems s).map (.byte b :: ·) := by
  have h92 : b ≠ 92 := by rintro rfl; exact hb (by decide)
  have h46 : b ≠ 46 := by rintro rfl; exact hb (by decide)
  have h91 : b ≠ 91 := by rintro rfl; exact hb (by decide)
  rw [parseItems, if_neg hb]
  · rintro t h -
    exact h92 h
  · rintro t h -
    exact h46 h
  · exact h46
  · rintro t h -
    exact h91 h

theorem parseItems_any {s : Bytes} (hs : ∀ t, s ≠ 42 :: t) :
    parseItems (46 :: s) = (parseItems s).map (.any :: ·) := by
  rw [parseItems]
  exact hs

/-- Reading the text of regular items gives the items back. -/
theorem parseItems_print {is : List Item} (h : ∀ i ∈ is, i.Regular) :
    parseItems (is.flatMap Item.print) = some is := by
  induction is with
  | nil => rfl
  | cons i is ih =>
    have htail : ∀ i ∈ is, i.Regular := fun j hj => h j (List.mem_cons_of_mem _ hj)
    rw [List.flatMap_cons]
    cases i with
    | byte b =>
      have := parseItems_byte (h _ List.mem_cons_self) (is.flatMap Item.print)
      simpa [Item.print, ih htail] using this
    | any =>
      have := parseItems_any (ne_star_of_print htail)
      simpa [Item.print, ih htail] using this
    | escaped b =>
      obtain rfl : b = 47 := h _ List.mem_cons_self
      simp [Item.print, parseItems, ih htail]
    | manyExcept b =>
      obtain rfl : b = 47 := h _ List.mem_cons_self
      simp [Item.print, parseItems, ih htail]
    | rest => simp [Item.print, parseItems, ih htail]

theorem parse_print {is : List Item} (h : ∀ i ∈ is, i.Regular) : parse (print is) = some is := by
  rw [print, List.cons_append, parse, if_pos (by simp), List.dropLast_concat, parseItems_print h]

/-! ### Search -/

/-- The lengths that an item may take of the subject, in the order in which they are tried. -/
def Item.spans : Item → Bytes → List ℕ
  | byte b, s => if s.head? = some b then [1] else []
  | escaped b, s => if s.head? = some b then [1] else []
  | any, s => if s.head?.any (· ≠ 10) then [1] else []
  | manyExcept b, s => (List.range' 1 (s.takeWhile (· ≠ b)).length).reverse
  | rest, s => (List.range ((s.takeWhile (· ≠ 10)).length + 1)).reverse

/-- The length of the first match at the start of the subject. -/
def matchHere : List Item → Bytes → Option ℕ
  | [], _ => some 0
  | i :: is, s => (i.spans s).findSome? fun n => (matchHere is (s.drop n)).map (n + ·)

/-- The two ends of the first match in the subject. -/
def search (is : List Item) (s : Bytes) : Option (ℕ × ℕ) :=
  (List.range (s.length + 1)).findSome? fun k =>
    (matchHere is (s.drop k)).map fun n => (k, k + n)

/-- A run of `n` bytes at the start, none of which is `b`. -/
theorem le_length_takeWhile_ne {b : UInt8} {s : Bytes} {n : ℕ} :
    n ≤ (s.takeWhile (· ≠ b)).length ↔ n ≤ s.length ∧ b ∉ s.take n := by
  induction s generalizing n with
  | nil => simp
  | cons c s ih =>
    cases n with
    | zero => simp
    | succ n =>
      by_cases h : c = b
      · simp [h]
      · simpa [h, Ne.symm h] using ih (n := n)

/-- A prefix of one byte. -/
theorem take_eq_singleton {s : Bytes} {n : ℕ} {c : UInt8} :
    (n ≤ s.length ∧ s.take n = [c]) ↔ n = 1 ∧ s.head? = some c := by
  constructor
  · rintro ⟨hn, h⟩
    have hlen := congrArg List.length h
    rw [List.length_take, Nat.min_eq_left hn] at hlen
    obtain rfl : n = 1 := hlen
    cases s with
    | nil => cases h
    | cons d s => exact ⟨rfl, by simpa using h⟩
  · rintro ⟨rfl, h⟩
    cases s with
    | nil => cases h
    | cons d s => exact ⟨by simp, by simpa using h⟩

/-- The lengths that are tried are those of the prefixes that the item matches. -/
theorem Item.mem_spans {i : Item} {s : Bytes} {n : ℕ} :
    n ∈ i.spans s ↔ n ≤ s.length ∧ i.Matches (s.take n) := by
  cases i with
  | byte b =>
    rw [Matches, take_eq_singleton, spans]
    split_ifs with h <;> simp [h]
  | escaped b =>
    rw [Matches, take_eq_singleton, spans]
    split_ifs with h <;> simp [h]
  | any =>
    have hiff : (n ≤ s.length ∧ any.Matches (s.take n)) ↔
        ∃ c, c ≠ 10 ∧ n = 1 ∧ s.head? = some c := by
      simp only [Matches, ← take_eq_singleton]
      constructor
      · rintro ⟨hn, c, hc, h⟩
        exact ⟨c, hc, hn, h⟩
      · rintro ⟨c, hc, hn, h⟩
        exact ⟨hn, c, hc, h⟩
    rw [hiff, spans]
    cases s.head? with
    | none => simp
    | some c => by_cases hc : c = 10 <;> simp [hc]
  | manyExcept b =>
    have hpos : s.take n ≠ [] → n ≤ s.length → 1 ≤ n := by
      rintro h -
      by_contra h0
      exact h (by rw [show n = 0 by omega, List.take_zero])
    have hne : 1 ≤ n → n ≤ s.length → s.take n ≠ [] := by
      intro h1 hn h
      have := congrArg List.length h
      rw [List.length_take, Nat.min_eq_left hn] at this
      simp at this
      omega
    rw [Matches, spans, List.mem_reverse, List.mem_range'_1, Nat.add_comm 1, Nat.lt_add_one_iff,
      le_length_takeWhile_ne]
    constructor
    · rintro ⟨h1, hn, hb⟩
      exact ⟨hn, hne h1 hn, hb⟩
    · rintro ⟨hn, h, hb⟩
      exact ⟨hpos h hn, hn, hb⟩
  | rest => rw [Matches, spans, List.mem_reverse, List.mem_range, Nat.lt_add_one_iff,
      le_length_takeWhile_ne]

/-- A length that is found is that of a prefix that the items match. -/
theorem matchHere_sound {is : List Item} {s : Bytes} {n : ℕ} (h : matchHere is s = some n) :
    n ≤ s.length ∧ Matches is (s.take n) := by
  induction is generalizing s n with
  | nil =>
    obtain rfl : 0 = n := by simpa [matchHere] using h
    exact ⟨Nat.zero_le _, rfl⟩
  | cons i is ih =>
    obtain ⟨m, hm, h⟩ := List.exists_of_findSome?_eq_some h
    obtain ⟨k, hk, rfl⟩ := Option.map_eq_some_iff.1 h
    obtain ⟨hle, hi⟩ := Item.mem_spans.1 hm
    obtain ⟨hle', his⟩ := ih hk
    rw [List.length_drop] at hle'
    refine ⟨by omega, s.take m, (s.drop m).take k, ?_, hi, his⟩
    rw [List.take_add]

/-- If the items match a prefix of the subject, some length is found. -/
theorem matchHere_complete {is : List Item} {a s : Bytes} (h : Matches is a) :
    (matchHere is (a ++ s)).isSome := by
  induction is generalizing a with
  | nil => rfl
  | cons i is ih =>
    obtain ⟨b, c, rfl, hb, hc⟩ := h
    rw [matchHere, List.findSome?_isSome_iff]
    refine ⟨b.length, Item.mem_spans.2 ⟨by simp, by simpa using hb⟩, ?_⟩
    rw [Option.isSome_map]
    simpa using ih hc

/-- The first part of the items takes a prefix that it matches, the others what is found behind
it. -/
theorem matchHere_append {is js : List Item} {s : Bytes} {n : ℕ}
    (h : matchHere (is ++ js) s = some n) :
    ∃ a t k, s = a ++ t ∧ Matches is a ∧ matchHere js t = some k ∧ n = a.length + k := by
  induction is generalizing s n with
  | nil => exact ⟨[], s, n, rfl, rfl, h, by simp⟩
  | cons i is ih =>
    obtain ⟨m, hm, h⟩ := List.exists_of_findSome?_eq_some h
    obtain ⟨k, hk, rfl⟩ := Option.map_eq_some_iff.1 h
    obtain ⟨hle, hi⟩ := Item.mem_spans.1 hm
    obtain ⟨a, t, l, hs, ha, hl, rfl⟩ := ih hk
    refine ⟨s.take m ++ a, t, l, ?_, ⟨_, a, rfl, hi, ha⟩, hl, ?_⟩
    · rw [List.append_assoc, ← hs, List.take_append_drop]
    · rw [List.length_append, List.length_take, Nat.min_eq_left hle, Nat.add_assoc]

/-- `.*` takes what is before the first newline. -/
theorem matchHere_rest (s : Bytes) :
    matchHere [.rest] s = some (s.takeWhile (· ≠ 10)).length := by
  rw [matchHere, Item.spans, List.range_succ, List.reverse_concat, List.findSome?_cons]
  rfl

/-- Before a `.*`, a run is taken as a whole. -/
theorem matchHere_manyExcept_rest {b : UInt8} {s : Bytes} {n : ℕ}
    (h : matchHere [.manyExcept b, .rest] s = some n) :
    s.takeWhile (· ≠ b) ≠ [] ∧ n = (s.takeWhile (· ≠ b)).length +
      ((s.dropWhile (· ≠ b)).takeWhile (· ≠ 10)).length := by
  rw [matchHere, Item.spans] at h
  have hdrop : s.drop (s.takeWhile (· ≠ b)).length = s.dropWhile (· ≠ b) := by
    have hleft : (s.takeWhile (· ≠ b) ++ s.dropWhile (· ≠ b)).drop
        (s.takeWhile (· ≠ b)).length = s.dropWhile (· ≠ b) := List.drop_left
    rwa [List.takeWhile_append_dropWhile] at hleft
  cases hrun : (s.takeWhile (· ≠ b)).length with
  | zero =>
    rw [hrun] at h
    cases h
  | succ k =>
    have hne : s.takeWhile (· ≠ b) ≠ [] := List.ne_nil_of_length_eq_add_one hrun
    refine ⟨hne, ?_⟩
    rw [hrun, List.range'_concat, List.reverse_concat, List.findSome?_cons,
      show 1 + 1 * k = k + 1 by omega, ← hrun, hdrop, matchHere_rest] at h
    rw [← hrun]
    exact (Option.some.inj h).symm

/-- The search finds a match exactly if there is one. -/
theorem search_isSome_iff {is : List Item} {s : Bytes} :
    (search is s).isSome ↔ Occurs is s := by
  constructor
  · intro h
    obtain ⟨r, hr⟩ := Option.isSome_iff_exists.1 h
    obtain ⟨k, hk, h⟩ := List.exists_of_findSome?_eq_some hr
    obtain ⟨n, hn, rfl⟩ := Option.map_eq_some_iff.1 h
    obtain ⟨-, hm⟩ := matchHere_sound hn
    exact ⟨s.take k, (s.drop k).take n, (s.drop k).drop n, by simp, hm⟩
  · rintro ⟨a, b, c, rfl, hb⟩
    rw [search, List.findSome?_isSome_iff]
    refine ⟨a.length, List.mem_range.2 (by simp), ?_⟩
    rw [Option.isSome_map]
    simpa using matchHere_complete (s := c) hb

/-- A match that is found lies in the subject, and its bytes are matched by the items. -/
theorem search_spec {is : List Item} {s : Bytes} {a b : ℕ} (h : search is s = some (a, b)) :
    a ≤ b ∧ b ≤ s.length ∧ Matches is ((s.drop a).take (b - a)) := by
  obtain ⟨k, hk, h⟩ := List.exists_of_findSome?_eq_some h
  obtain ⟨n, hn, heq⟩ := Option.map_eq_some_iff.1 h
  obtain ⟨rfl, rfl⟩ := Prod.mk.inj heq
  obtain ⟨hle, hm⟩ := matchHere_sound hn
  rw [List.length_drop] at hle
  have hk := List.mem_range.1 hk
  refine ⟨by omega, by omega, ?_⟩
  rwa [Nat.add_sub_cancel_left]

/-- The match that is found starts where the items first match. -/
theorem search_first {is : List Item} {s : Bytes} {a b : ℕ} (h : search is s = some (a, b)) :
    a ≤ s.length ∧ matchHere is (s.drop a) = some (b - a) ∧
      ∀ k < a, matchHere is (s.drop k) = none := by
  obtain ⟨pre, k, post, hrange, hk, hpre⟩ := List.findSome?_eq_some_iff.1 h
  obtain ⟨n, hn, heq⟩ := Option.map_eq_some_iff.1 hk
  obtain ⟨rfl, rfl⟩ := Prod.mk.inj heq
  have hlength : pre.length = k := by
    have hget := congrArg (·[pre.length]?) hrange
    have hlt : pre.length < s.length + 1 := by
      have := congrArg List.length hrange
      simp at this
      omega
    simpa [hlt] using hget
  refine ⟨?_, by rwa [Nat.add_sub_cancel_left], fun j hj => ?_⟩
  · have := congrArg List.length hrange
    simp at this
    omega
  · have hmem : j ∈ pre := by
      have hget := congrArg (·[j]?) hrange
      rw [List.getElem?_append_left (by omega), List.getElem?_range (by
        have := congrArg List.length hrange
        simp at this
        omega)] at hget
      exact List.mem_of_getElem? hget.symm
    exact Option.map_eq_none_iff.1 (hpre j hmem)

/-! ### Engines -/

/-- What a compiled pattern reports of a subject: `none` without a match, and otherwise the two
ends of the first group, if it takes part in the match. -/
abbrev Matcher := Bytes → Option (Option (ℕ × ℕ))

/-- An engine compiles a pattern, or rejects it. -/
abbrev Engine := Bytes → Option Matcher

/-- The engine compiles the patterns of the fragment, and finds a match exactly if there is
one. -/
def Agrees (engine : Engine) : Prop :=
  ∀ is : List Item, (∀ i ∈ is, i.Regular) →
    ∃ m, engine (print is) = some m ∧ ∀ s, (m s).isSome ↔ Occurs is s

/-- The group around the items takes part in every match. -/
def capturing (is : List Item) : Matcher := fun s => (search is s).map some

theorem capturing_eq_some {is : List Item} {s : Bytes} {group : Option (ℕ × ℕ)} :
    capturing is s = some group ↔ ∃ a b, search is s = some (a, b) ∧ group = some (a, b) := by
  rw [capturing, Option.map_eq_some_iff]
  constructor
  · rintro ⟨⟨a, b⟩, h, rfl⟩
    exact ⟨a, b, h, rfl⟩
  · rintro ⟨a, b, h, rfl⟩
    exact ⟨(a, b), h, rfl⟩

/-- The engine that knows nothing but the fragment. -/
def reference : Engine := fun text => (parse text).map capturing

theorem agrees_reference : Agrees reference := by
  intro is h
  refine ⟨capturing is, by rw [reference, parse_print h]; rfl, fun s => ?_⟩
  rw [capturing, Option.isSome_map, search_isSome_iff]

/-- The ends of a group that takes part in a match are in order, and inside the subject. -/
def Spans (engine : Engine) : Prop :=
  ∀ text m s a b, engine text = some m → m s = some (some (a, b)) → a ≤ b ∧ b ≤ s.length

theorem spans_reference : Spans reference := by
  intro text m s a b hm hs
  obtain ⟨is, -, rfl⟩ := Option.map_eq_some_iff.1 hm
  obtain ⟨a', b', hsearch, heq⟩ := capturing_eq_some.1 hs
  obtain ⟨rfl, rfl⟩ := Prod.mk.inj (Option.some.inj heq)
  obtain ⟨hab, hb, -⟩ := search_spec hsearch
  exact ⟨hab, hb⟩

/-- The engine compiles the patterns of the fragment, and reports the match that the greedy
search from the left finds. -/
def Follows (engine : Engine) : Prop :=
  ∀ is : List Item, (∀ i ∈ is, i.Regular) → engine (print is) = some (capturing is)

theorem follows_reference : Follows reference := by
  intro is h
  rw [reference, parse_print h]
  rfl

/-- Two sequences of regular items with one text are the same. -/
theorem print_injective {is js : List Item} (hi : ∀ i ∈ is, i.Regular) (hj : ∀ j ∈ js, j.Regular)
    (h : print is = print js) : is = js := by
  have := parse_print hi
  rw [h, parse_print hj] at this
  exact (Option.some.inj this).symm

/-! ### Anchored patterns -/

/-- The text `^…(…)$`. -/
def printAnchored (is js : List Item) : Bytes := 94 :: is.flatMap Item.print ++ print js ++ [36]

/-- The items `is` match the subject up to `a`, the group from there to `b`, which is its end or a
last newline. -/
def AnchoredAt (is js : List Item) (s : Bytes) (a b : ℕ) : Prop :=
  ∃ p g e, s = p ++ g ++ e ∧ Matches is p ∧ Matches js g ∧ (e = [] ∨ e = [10]) ∧
    a = p.length ∧ b = p.length + g.length

/-- What the engine reports for the text `^…(…)$` is a match of it, in which the group takes
part. -/
def ReadsAnchored (engine : Engine) (is js : List Item) : Prop :=
  ∀ m, engine (printAnchored is js) = some m →
    ∀ s group, m s = some group → ∃ a b, group = some (a, b) ∧ AnchoredAt is js s a b

theorem AnchoredAt.le {is js : List Item} {s : Bytes} {a b : ℕ} (h : AnchoredAt is js s a b) :
    a ≤ b ∧ b ≤ s.length := by
  obtain ⟨p, g, e, rfl, -, -, -, rfl, rfl⟩ := h
  simp

/-- The search for an anchored match that keeps the first match of the items before the group. -/
def searchAnchored (is js : List Item) (s : Bytes) : Option (ℕ × ℕ) := do
  let n ← matchHere is s
  let k ← matchHere js (s.drop n)
  if (s.drop n).drop k = [] ∨ (s.drop n).drop k = [10] then some (n, n + k) else none

theorem searchAnchored_sound {is js : List Item} {s : Bytes} {a b : ℕ}
    (h : searchAnchored is js s = some (a, b)) : AnchoredAt is js s a b := by
  obtain ⟨n, hn, h⟩ := Option.bind_eq_some_iff.1 h
  obtain ⟨k, hk, h⟩ := Option.bind_eq_some_iff.1 h
  split_ifs at h with hend
  obtain ⟨rfl, rfl⟩ := Prod.mk.inj (Option.some.inj h)
  obtain ⟨hle, his⟩ := matchHere_sound hn
  obtain ⟨hle', hjs⟩ := matchHere_sound hk
  refine ⟨s.take n, (s.drop n).take k, (s.drop n).drop k, ?_, his, hjs, hend, ?_, ?_⟩
  · rw [List.append_assoc, List.take_append_drop, List.take_append_drop]
  · rw [List.length_take, Nat.min_eq_left hle]
  · rw [List.length_take, List.length_take, Nat.min_eq_left hle, Nat.min_eq_left hle']

end Pattern
