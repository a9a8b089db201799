import Mathlib.Data.List.Lemmas
import Mathlib.Data.Rat.Defs
import Tracemate.Lib.Decimal
import Tracemate.Lib.Json

/-!
# Reading JSON texts

A parser that reads a text byte by byte, with a stack of the arrays and objects that are open.

* `step`, `run`, `parseJson`: the parser;
* `run_body`: the body of a string is read to its end; `run_firstName` and the rules around it
  read the parts of an object;
* `weight`, `weight_run_le`: a lower bound for the length of a text; no state weighs more than the
  bytes that were read, so that no string comes from a text that is too short for its escapes;
* `kept`, `keeps_run`: the members that the outermost object has got stay in it.
-/

namespace JsonC

open CStr Decimal

/-! ### Numbers -/

/-- The digits behind a point, if there is one. -/
def fraction : Bytes → Option (Bytes × Bytes)
  | 46 :: t => if t.takeWhile isDigit = [] then none else some (t.span isDigit)
  | t => some ([], t)

/-- The exponent, and whether it is there. -/
def exponent : Bytes → Option (Option ℤ)
  | [] => some none
  | e :: t =>
    if e = 101 ∨ e = 69 then
      let (sign, ds) : ℤ × Bytes := match t with
        | 45 :: ds => (-1, ds)
        | 43 :: ds => (1, ds)
        | ds => (1, ds)
      if ds = [] ∨ ds.all isDigit = false then none else some (some (sign * digitsValue ds))
    else none

/-- The value of a number. -/
def decodeNumber (text : Bytes) : Option Json := do
  let (sign, t) : ℤ × Bytes := match text with
    | 45 :: t => (-1, t)
    | t => (1, t)
  let (whole, t) := t.span isDigit
  if whole = [] ∨ (whole.length > 1 ∧ whole.head? = some 48) then none
  let (frac, t) ← fraction t
  match ← exponent t with
  | none =>
    if frac = [] then return .int (sign * digitsValue whole)
    return .double (sign * digitsValue (whole ++ frac) / 10 ^ frac.length)
  | some e => return .double (sign * digitsValue (whole ++ frac) / 10 ^ frac.length * 10 ^ e)

/-! ### The parser -/

/-- An array or an object that is open; the newest item or member comes first. -/
inductive Frame
  | arr (items : List Json)
  | obj (members : List (Bytes × Json))
  /-- An object whose next member has got its name. -/
  | member (members : List (Bytes × Json)) (name : Bytes)

/-- What may follow. -/
inductive Mode
  | value
  | firstItem
  | firstKey
  | key
  | colon
  | str (raw : Bytes)
  /-- Behind a backslash in a string. -/
  | esc (raw : Bytes)
  | num (text : Bytes)
  | lit (rest : Bytes) (j : Json)
  /-- A value inside an array or an object has ended. -/
  | after
  | done (j : Json)

structure State where
  stack : List Frame
  mode : Mode

def isSpace (c : UInt8) : Bool := c = 32 || c = 9 || c = 10 || c = 13

/-- A value has ended. -/
def put (j : Json) : List Frame → Option State
  | [] => some ⟨[], .done j⟩
  | .arr items :: st => some ⟨.arr (j :: items) :: st, .after⟩
  | .member members name :: st => some ⟨.obj ((name, j) :: members) :: st, .after⟩
  | .obj _ :: _ => none

/-- A string has ended: a name, or a value. -/
def putString (raw : Bytes) (st : List Frame) : Option State := do
  let s ← decodeString raw
  match st with
  | .obj members :: st => some ⟨.member members s :: st, .colon⟩
  | st => put (.str s) st

/-- A byte behind a value. -/
def stepAfter (st : List Frame) (c : UInt8) : Option State :=
  match st with
  | [] => none
  | .arr items :: st =>
    if c = 44 then some ⟨.arr items :: st, .value⟩
    else if c = 93 then put (.arr items.reverse) st
    else none
  | .obj members :: st =>
    if c = 44 then some ⟨.obj members :: st, .key⟩
    else if c = 125 then put (.obj members) st
    else none
  | .member _ _ :: _ => none

/-- The first byte of a value. -/
def stepValue (st : List Frame) (c : UInt8) : Option State :=
  if c = 34 then some ⟨st, .str []⟩
  else if c = 123 then some ⟨.obj [] :: st, .firstKey⟩
  else if c = 91 then some ⟨.arr [] :: st, .firstItem⟩
  else if c = 116 then some ⟨st, .lit (cstr "rue") (.bool true)⟩
  else if c = 102 then some ⟨st, .lit (cstr "alse") (.bool false)⟩
  else if c = 110 then some ⟨st, .lit (cstr "ull") .null⟩
  else if c = 45 ∨ isDigit c then some ⟨st, .num [c]⟩
  else none

/-- The bytes of a number. -/
def inNumber (c : UInt8) : Bool := isDigit c || c = 45 || c = 43 || c = 46 || c = 101 || c = 69

/-- One byte. -/
def step (s : State) (c : UInt8) : Option State :=
  match s.mode with
  | .str raw =>
    if c = 34 then putString raw s.stack
    else if c = 92 then some ⟨s.stack, .esc (raw ++ [c])⟩
    else some ⟨s.stack, .str (raw ++ [c])⟩
  | .esc raw => some ⟨s.stack, .str (raw ++ [c])⟩
  | .lit [] _ => none
  | .lit (d :: rest) j =>
    if c ≠ d then none
    else if rest = [] then put j s.stack
    else some ⟨s.stack, .lit rest j⟩
  | .num text =>
    if inNumber c then some ⟨s.stack, .num (text ++ [c])⟩
    else do
      let s' ← put (← decodeNumber text) s.stack
      if isSpace c then some s' else stepAfter s'.stack c
  | mode =>
    if isSpace c then some s
    else
      match mode with
      | .value => stepValue s.stack c
      | .firstItem => if c = 93 then stepAfter s.stack c else stepValue s.stack c
      | .firstKey =>
        if c = 125 then stepAfter s.stack c
        else if c = 34 then some ⟨s.stack, .str []⟩
        else none
      | .key => if c = 34 then some ⟨s.stack, .str []⟩ else none
      | .colon => if c = 58 then some ⟨s.stack, .value⟩ else none
      | .after => stepAfter s.stack c
      | _ => none

def run (s : State) (text : Bytes) : Option State := text.foldlM step s

/-- The value of the text. -/
def State.value (s : State) : Option Json :=
  match s.mode, s.stack with
  | .done j, [] => some j
  | .num text, [] => decodeNumber text
  | _, _ => none

/-- The value of a JSON text. -/
def parseJson (text : Bytes) : Option Json := do (← run ⟨[], .value⟩ text).value

theorem parseJson_eq_some {text : Bytes} {j : Json} :
    parseJson text = some j ↔ ∃ s, run ⟨[], .value⟩ text = some s ∧ s.value = some j :=
  Option.bind_eq_some_iff

theorem run_append (s : State) (a b : Bytes) :
    run s (a ++ b) = (run s a).bind fun t => run t b := List.foldlM_append

theorem run_cons (s : State) (c : UInt8) (text : Bytes) :
    run s (c :: text) = (step s c).bind fun t => run t text := List.foldlM_cons

/-! ### Strings -/

section Strings

variable {st : List Frame} {raw b : Bytes} {c : UInt8}

theorem step_str (h34 : c ≠ 34) (h92 : c ≠ 92) :
    step ⟨st, .str raw⟩ c = some ⟨st, .str (raw ++ [c])⟩ := by
  simp [step, h34, h92]

theorem run_plain (h34 : c ≠ 34) (h92 : c ≠ 92) (text : Bytes) :
    run ⟨st, .str raw⟩ (c :: text) = run ⟨st, .str (raw ++ [c])⟩ text := by
  rw [run_cons, step_str h34 h92]
  rfl

theorem run_escape (c : UInt8) (text : Bytes) :
    run ⟨st, .str raw⟩ (92 :: c :: text) = run ⟨st, .str (raw ++ [92, c])⟩ text := by
  have hassoc : raw ++ [92, c] = raw ++ [92] ++ [c] := by simp
  rw [hassoc]
  rfl

theorem ne_of_isSome_hexValue {d : UInt8} (h : (hexValue d).isSome) : d ≠ 34 ∧ d ≠ 92 := by
  constructor
  · rintro rfl
    exact absurd h (by decide)
  · rintro rfl
    exact absurd h (by decide)

/-- The body of a string is read to its end. -/
theorem run_body (hb : StringBody b) (st : List Frame) (raw : Bytes) :
    run ⟨st, .str raw⟩ b = some ⟨st, .str (raw ++ b)⟩ := by
  induction hb generalizing raw with
  | nil =>
    rw [List.append_nil]
    rfl
  | plain h92 h34 _ _ ih =>
    rw [run_plain h34 h92, ih]
    simp
  | escape _ _ ih =>
    rw [run_escape, ih]
    simp
  | hex hhex _ ih =>
    simp only [List.forall_mem_cons, List.not_mem_nil, false_implies, implies_true,
      and_true] at hhex
    obtain ⟨h₁, h₂, h₃, h₄⟩ := hhex
    have h₁ := ne_of_isSome_hexValue h₁
    have h₂ := ne_of_isSome_hexValue h₂
    have h₃ := ne_of_isSome_hexValue h₃
    have h₄ := ne_of_isSome_hexValue h₄
    rw [run_escape, run_plain h₁.1 h₁.2, run_plain h₂.1 h₂.2, run_plain h₃.1 h₃.2,
      run_plain h₄.1 h₄.2, ih]
    simp

/-- The body of a string and the quote behind it. -/
theorem run_string {s : Bytes} (h : decodeString b = some s) (st : List Frame) (text : Bytes) :
    run ⟨st, .str []⟩ (b ++ 34 :: text) = (putString b st).bind fun t => run t text := by
  rw [run_append, run_body (stringBody_of_decodeString h)]
  show run ⟨st, .str ([] ++ b)⟩ (34 :: text) = _
  rw [run_cons, List.nil_append]
  simp [step]

/-- The bytes that a string has to be written with an escape for. -/
def needsEscape (c : UInt8) : Bool := c = 34 || c = 92 || c < 32

theorem plain_of_all {s : Bytes} (h : s.all (fun c => !needsEscape c) = true) :
    ∀ c ∈ s, needsEscape c = false := by
  simpa using h

/-- Text without such bytes stands for itself. -/
theorem decodeString_of_plain {s : Bytes} (h : ∀ c ∈ s, needsEscape c = false) :
    decodeString s = some s := by
  induction s with
  | nil => rfl
  | cons c s ih =>
    obtain ⟨hc, hs⟩ := List.forall_mem_cons.1 h
    simp only [needsEscape, Bool.or_eq_false_iff, decide_eq_false_iff_not] at hc
    rw [decodeString_plain hc.1.2 hc.1.1 hc.2, ih hs]
    rfl

/-! ### Tokens -/

theorem run_space (text : Bytes) : run ⟨st, .value⟩ (32 :: text) = run ⟨st, .value⟩ text := by
  rw [run_cons]
  rfl

theorem run_quote (text : Bytes) : run ⟨st, .value⟩ (34 :: text) = run ⟨st, .str []⟩ text := by
  rw [run_cons]
  rfl

theorem run_openObject (text : Bytes) :
    run ⟨st, .value⟩ (123 :: text) = run ⟨.obj [] :: st, .firstKey⟩ text := by
  rw [run_cons]
  rfl

/-- The end of an object that is the value of a member. -/
theorem run_closeMember (ms ns : List (Bytes × Json)) (key : Bytes) (text : Bytes) :
    run ⟨.obj ms :: .member ns key :: st, .after⟩ (125 :: text) =
      run ⟨.obj ((key, .obj ms) :: ns) :: st, .after⟩ text := by
  rw [run_cons]
  rfl

/-- An object without members that is the value of a member. -/
theorem run_emptyMember (ns : List (Bytes × Json)) (key : Bytes) (text : Bytes) :
    run ⟨.member ns key :: st, .value⟩ (123 :: 125 :: text) =
      run ⟨.obj ((key, .obj []) :: ns) :: st, .after⟩ text := by
  rw [run_cons]
  rfl

/-- The end of the outermost object. -/
theorem run_closeLast (ms : List (Bytes × Json)) :
    run ⟨[.obj ms], .after⟩ [125] = some ⟨[], .done (.obj ms)⟩ := by
  rw [run_cons]
  rfl

variable {name : Bytes} (hname : decodeString b = some name) (ms : List (Bytes × Json))
include hname

/-- The name of the first member and the colon behind it. -/
theorem run_firstName (text : Bytes) :
    run ⟨.obj ms :: st, .firstKey⟩ (34 :: (b ++ 34 :: 58 :: text)) =
      run ⟨.member ms name :: st, .value⟩ text := by
  rw [run_cons]
  show run ⟨.obj ms :: st, .str []⟩ _ = _
  rw [run_string hname, putString, hname]
  show run ⟨.member ms name :: st, .colon⟩ _ = _
  rw [run_cons]
  rfl

/-- The name of another member, from the comma before it. -/
theorem run_nextName (text : Bytes) :
    run ⟨.obj ms :: st, .after⟩ (44 :: 34 :: (b ++ 34 :: 58 :: text)) =
      run ⟨.member ms name :: st, .value⟩ text := by
  rw [run_cons]
  show run ⟨.obj ms :: st, .key⟩ _ = _
  rw [run_cons]
  show run ⟨.obj ms :: st, .str []⟩ _ = _
  rw [run_string hname, putString, hname]
  show run ⟨.member ms name :: st, .colon⟩ _ = _
  rw [run_cons]
  rfl

/-- A member whose value is a string, behind its opening quote. -/
theorem run_memberString (key : Bytes) (text : Bytes) :
    run ⟨.member ms key :: st, .str []⟩ (b ++ 34 :: text) =
      run ⟨.obj ((key, .str name) :: ms) :: st, .after⟩ text := by
  rw [run_string hname, putString, hname]
  rfl

end Strings

/-! ### Weights -/

/-- A lower bound for the length of the body of a string. -/
def cost (s : Bytes) : ℕ := s.length + s.countP needsEscape

mutual
/-- A lower bound for the length of the text of a value. -/
def Json.weight : Json → ℕ
  | .str s => cost s + 2
  | .arr items => 1 + Json.itemsWeight items
  | .obj members => 1 + Json.membersWeight members
  | _ => 1
/-- The items of an array with what separates them. -/
def Json.itemsWeight : List Json → ℕ
  | [] => 0
  | j :: items => j.weight + 1 + Json.itemsWeight items
/-- The members of an object with what separates them. -/
def Json.membersWeight : List (Bytes × Json) → ℕ
  | [] => 0
  | m :: members => Json.memberWeight m + Json.membersWeight members
/-- One member, with its quotes, the colon and what follows it. -/
def Json.memberWeight : Bytes × Json → ℕ
  | (name, j) => cost name + 4 + j.weight
end

theorem cost_cons (c : UInt8) (s : Bytes) :
    cost (c :: s) = cost s + if needsEscape c then 2 else 1 := by
  unfold cost
  rw [List.countP_cons, List.length_cons]
  split_ifs <;> omega

theorem cost_append (a b : Bytes) : cost (a ++ b) = cost a + cost b := by
  unfold cost
  rw [List.countP_append, List.length_append]
  omega

theorem cost_le_of_prefix {s t : Bytes} (h : s <+: t) : cost s ≤ cost t := by
  obtain ⟨u, rfl⟩ := h
  rw [cost_append]
  omega

/-- A string that costs no more than its length needs no escape. -/
theorem plain_of_cost_le {s : Bytes} (h : cost s ≤ s.length) : ∀ c ∈ s, needsEscape c = false := by
  have hcount : s.countP needsEscape = 0 := by
    unfold cost at h
    omega
  simpa using List.countP_eq_zero.1 hcount

theorem length_le_cost (s : Bytes) : s.length ≤ cost s := Nat.le_add_right _ _

theorem cost_le (s : Bytes) : cost s ≤ 2 * s.length := by
  have : s.countP needsEscape ≤ s.length := List.countP_le_length
  unfold cost
  omega

/-- What stands for a string is at least as long as the string costs. -/
theorem cost_le_of_decodeString {b s : Bytes} (h : decodeString b = some s) :
    cost s ≤ b.length := by
  refine decodeString_induction (motive := fun b s => cost s ≤ b.length) (le_refl _) ?_ ?_ ?_ h
  · intro c b s h92 h34 hc ih
    have hplain : needsEscape c = false := by simp [needsEscape, h92, h34, hc]
    rw [cost_cons, hplain, List.length_cons]
    simpa using ih
  · intro e c b s _ ih
    rw [cost_cons, List.length_cons, List.length_cons]
    split_ifs <;> omega
  · intro h₁ h₂ h₃ h₄ n b s _ ih
    have hutf : (utf8 n).length ≤ 3 := by
      unfold utf8
      split_ifs <;> simp
    have := cost_le (utf8 n)
    rw [cost_append]
    simp only [List.length_cons]
    omega

theorem itemsWeight_eq_sum (items : List Json) :
    Json.itemsWeight items = (items.map fun j => j.weight + 1).sum := by
  induction items with
  | nil => rfl
  | cons j items ih => rw [Json.itemsWeight, ih, List.map_cons, List.sum_cons]

theorem itemsWeight_reverse (items : List Json) :
    Json.itemsWeight items.reverse = Json.itemsWeight items := by
  rw [itemsWeight_eq_sum, itemsWeight_eq_sum, List.map_reverse, List.sum_reverse]

theorem membersWeight_eq_sum (members : List (Bytes × Json)) :
    Json.membersWeight members = (members.map Json.memberWeight).sum := by
  induction members with
  | nil => rfl
  | cons m members ih => rw [Json.membersWeight, ih, List.map_cons, List.sum_cons]

theorem weight_decodeNumber {text : Bytes} {j : Json} (h : decodeNumber text = some j) :
    j.weight = 1 := by
  unfold decodeNumber at h
  dsimp only at h
  split_ifs at h
  · cases h
  obtain ⟨-, -, h⟩ := Option.bind_eq_some_iff.1 h
  obtain ⟨⟨frac, t⟩, -, h⟩ := Option.bind_eq_some_iff.1 h
  obtain ⟨e, -, h⟩ := Option.bind_eq_some_iff.1 h
  cases e with
  | none =>
    dsimp only at h
    split_ifs at h
    · obtain rfl := Option.some.inj h
      rfl
    · obtain rfl := Option.some.inj h
      rfl
  | some e =>
    obtain rfl := Option.some.inj h
    rfl

def Frame.weight : Frame → ℕ
  | .arr items => Json.itemsWeight items
  | .obj members => Json.membersWeight members
  | .member members name => Json.membersWeight members + cost name + 3

/-- The weight of the open arrays and objects where the innermost one waits for a value. -/
def stackWeight : List Frame → ℕ
  | [] => 1
  | f :: st => f.weight + 1 + stackWeight st

/-- A lower bound for the number of bytes that were read, and one more. -/
def State.weight (s : State) : ℕ :=
  match s.mode with
  | .value | .firstItem | .firstKey | .key => stackWeight s.stack
  | .colon | .after => stackWeight s.stack - 1
  | .str raw | .esc raw => stackWeight s.stack + 1 + raw.length
  | .num _ => stackWeight s.stack + 1
  | .lit _ j | .done j => stackWeight s.stack + j.weight

section Weights

variable {s s' : State} {st : List Frame} {j : Json} {c : UInt8}

theorem weight_put (h : put j st = some s) : s.weight = stackWeight st + j.weight := by
  cases st with
  | nil =>
    obtain rfl := Option.some.inj h
    rfl
  | cons f st =>
    cases f with
    | arr items =>
      obtain rfl := Option.some.inj h
      simp only [State.weight, stackWeight, Frame.weight, Json.itemsWeight]
      omega
    | obj members => cases h
    | member members name =>
      obtain rfl := Option.some.inj h
      simp only [State.weight, stackWeight, Frame.weight, Json.membersWeight, Json.memberWeight]
      omega

theorem stackWeight_put (h : put j st = some s) :
    stackWeight s.stack ≤ stackWeight st + j.weight + 1 := by
  cases st with
  | nil =>
    obtain rfl := Option.some.inj h
    show 1 ≤ 1 + j.weight + 1
    omega
  | cons f st =>
    cases f with
    | arr items =>
      obtain rfl := Option.some.inj h
      simp only [stackWeight, Frame.weight, Json.itemsWeight]
      omega
    | obj members => cases h
    | member members name =>
      obtain rfl := Option.some.inj h
      simp only [stackWeight, Frame.weight, Json.membersWeight, Json.memberWeight]
      omega

theorem weight_putString {raw : Bytes} (h : putString raw st = some s) :
    s.weight ≤ stackWeight st + 2 + raw.length := by
  obtain ⟨t, ht, h⟩ := Option.bind_eq_some_iff.1 h
  have hcost := cost_le_of_decodeString ht
  split at h
  · obtain rfl := Option.some.inj h
    simp only [State.weight, stackWeight, Frame.weight]
    omega
  · rw [weight_put h, Json.weight]
    omega

theorem weight_stepAfter (h : stepAfter st c = some s) : s.weight ≤ stackWeight st := by
  cases st with
  | nil => cases h
  | cons f st =>
    cases f with
    | arr items =>
      change (if c = 44 then _ else if c = 93 then put (.arr items.reverse) st else none) = _ at h
      split_ifs at h
      · obtain rfl := Option.some.inj h
        exact le_refl _
      · rw [weight_put h, Json.weight, itemsWeight_reverse, stackWeight, Frame.weight]
        omega
    | obj members =>
      change (if c = 44 then _ else if c = 125 then put (.obj members) st else none) = _ at h
      split_ifs at h
      · obtain rfl := Option.some.inj h
        exact le_refl _
      · rw [weight_put h, Json.weight, stackWeight, Frame.weight]
        omega
    | member members name => cases h

theorem weight_stepValue (h : stepValue st c = some s) : s.weight ≤ stackWeight st + 1 := by
  unfold stepValue at h
  split_ifs at h <;> obtain rfl := Option.some.inj h <;>
    simp only [State.weight, stackWeight, Frame.weight, Json.itemsWeight, Json.membersWeight,
      Json.weight, List.length_nil] <;> omega

/-- A byte makes a state heavier by at most one. -/
theorem weight_step (h : step s c = some s') : s'.weight ≤ s.weight + 1 := by
  obtain ⟨st, mode⟩ := s
  cases mode with
  | value =>
    change (if isSpace c then _ else stepValue st c) = some s' at h
    split_ifs at h
    · obtain rfl := Option.some.inj h
      omega
    · exact weight_stepValue h
  | firstItem =>
    change (if isSpace c then _ else if c = 93 then stepAfter st c else stepValue st c) = some s' at h
    split_ifs at h
    · obtain rfl := Option.some.inj h
      omega
    · exact (weight_stepAfter h).trans (Nat.le_succ _)
    · exact weight_stepValue h
  | firstKey =>
    change (if isSpace c then _ else if c = 125 then stepAfter st c else
      if c = 34 then some ⟨st, .str []⟩ else none) = some s' at h
    split_ifs at h
    · obtain rfl := Option.some.inj h
      omega
    · exact (weight_stepAfter h).trans (Nat.le_succ _)
    · obtain rfl := Option.some.inj h
      simp [State.weight]
  | key =>
    change (if isSpace c then _ else if c = 34 then some ⟨st, .str []⟩ else none) = some s' at h
    split_ifs at h
    · obtain rfl := Option.some.inj h
      omega
    · obtain rfl := Option.some.inj h
      simp [State.weight]
  | colon =>
    change (if isSpace c then _ else if c = 58 then some ⟨st, .value⟩ else none) = some s' at h
    split_ifs at h
    · obtain rfl := Option.some.inj h
      omega
    · obtain rfl := Option.some.inj h
      simp only [State.weight]
      omega
  | str raw =>
    change (if c = 34 then putString raw st else if c = 92 then _ else _) = some s' at h
    split_ifs at h
    · have := weight_putString h
      simp only [State.weight] at this ⊢
      omega
    · obtain rfl := Option.some.inj h
      simp [State.weight, Nat.add_assoc]
    · obtain rfl := Option.some.inj h
      simp [State.weight, Nat.add_assoc]
  | esc raw =>
    obtain rfl := Option.some.inj h
    simp [State.weight, Nat.add_assoc]
  | num text =>
    change (if inNumber c then _ else do
      let s' ← put (← decodeNumber text) st
      if isSpace c then some s' else stepAfter s'.stack c) = some s' at h
    by_cases hc : inNumber c
    · rw [if_pos hc] at h
      obtain rfl := Option.some.inj h
      simp [State.weight]
    · rw [if_neg hc] at h
      obtain ⟨j, hj, h⟩ := Option.bind_eq_some_iff.1 h
      obtain ⟨t, ht, h⟩ := Option.bind_eq_some_iff.1 h
      change s'.weight ≤ stackWeight st + 1 + 1
      split_ifs at h
      · obtain rfl := Option.some.inj h
        rw [weight_put ht, weight_decodeNumber hj]
        omega
      · have hput := stackWeight_put ht
        rw [weight_decodeNumber hj] at hput
        exact (weight_stepAfter h).trans hput
  | lit rest j =>
    cases rest with
    | nil => cases h
    | cons d rest =>
      change (if c ≠ d then none else if rest = [] then put j st else some ⟨st, .lit rest j⟩) =
        some s' at h
      split_ifs at h
      · rw [weight_put h]
        simp [State.weight]
      · obtain rfl := Option.some.inj h
        simp [State.weight]
  | after =>
    change (if isSpace c then _ else stepAfter st c) = some s' at h
    split_ifs at h
    · obtain rfl := Option.some.inj h
      omega
    · have := weight_stepAfter h
      change s'.weight ≤ stackWeight st - 1 + 1
      omega
  | done j =>
    change (if isSpace c then _ else none) = some s' at h
    split_ifs at h
    obtain rfl := Option.some.inj h
    omega

theorem weight_run_le {text : Bytes} (h : run s text = some s') :
    s'.weight ≤ s.weight + text.length := by
  induction text generalizing s with
  | nil =>
    obtain rfl := Option.some.inj h
    exact le_refl _
  | cons c text ih =>
    rw [run_cons] at h
    obtain ⟨t, ht, h⟩ := Option.bind_eq_some_iff.1 h
    have hstep := weight_step ht
    have hrest := ih h
    rw [List.length_cons]
    omega

end Weights

theorem weight_value {s : State} {j : Json} (h : s.value = some j) : j.weight + 1 ≤ s.weight := by
  obtain ⟨st, mode⟩ := s
  cases mode with
  | done i =>
    cases st with
    | nil =>
      obtain rfl : i = j := Option.some.inj h
      exact Nat.le_of_eq (Nat.add_comm _ _)
    | cons f st => cases h
  | num text =>
    cases st with
    | nil =>
      rw [weight_decodeNumber h]
      exact le_refl _
    | cons f st => cases h
  | _ => cases h

/-- A member and all members of other names. -/
theorem memberWeight_add_le {m : Bytes × Json} {ms : List (Bytes × Json)} (h : m ∈ ms) :
    Json.memberWeight m + Json.membersWeight (ms.filter fun n => n.1 ≠ m.1) ≤
      Json.membersWeight ms := by
  have hfilter : ∀ l : List (Bytes × Json), Json.membersWeight (l.filter fun n => n.1 ≠ m.1) ≤
      Json.membersWeight l := by
    intro l
    rw [membersWeight_eq_sum, membersWeight_eq_sum]
    exact ((List.filter_sublist).map _).sum_le_sum fun _ _ => Nat.zero_le _
  induction ms with
  | nil => cases h
  | cons n ms ih =>
    rw [Json.membersWeight]
    rcases List.mem_cons.1 h with rfl | h
    · rw [List.filter_cons_of_neg (by simp)]
      exact Nat.add_le_add_left (hfilter ms) _
    · have := ih h
      by_cases hn : n.1 = m.1
      · rw [List.filter_cons_of_neg (by simp [hn])]
        omega
      · rw [List.filter_cons_of_pos (by simpa using hn), Json.membersWeight]
        omega

theorem exists_of_get {name : Bytes} {o : Option Json} {v : Json} (h : Json.get name o = some v) :
    ∃ j, o = some j := by
  cases o with
  | none => cases h
  | some j => exact ⟨j, rfl⟩

theorem get_cons_ne {name n : Bytes} (h : name ≠ n) (v : Json) (ms : List (Bytes × Json)) :
    Json.get name (some (.obj ((n, v) :: ms))) = Json.get name (some (.obj ms)) := by
  show (((n, v) :: ms).lookup name).bind Json.pointer = (ms.lookup name).bind Json.pointer
  rw [List.lookup_cons, beq_eq_false_iff_ne.2 h]

theorem get_cons_self (name : Bytes) {v : Json} (hv : v.pointer = some v)
    (ms : List (Bytes × Json)) : Json.get name (some (.obj ((name, v) :: ms))) = some v := by
  show (((name, v) :: ms).lookup name).bind Json.pointer = some v
  rw [List.lookup_cons_self, Option.bind_some, hv]

theorem eq_of_pointer {w v : Json} (h : w.pointer = some v) : w = v := by
  cases w with
  | null => cases h
  | _ => exact Option.some.inj h

/-- What is found under a name is a member of the object. -/
theorem mem_of_get {name : Bytes} {j v : Json} (h : Json.get name (some j) = some v) :
    ∃ ms, j = .obj ms ∧ (name, v) ∈ ms := by
  cases j with
  | obj ms =>
    obtain ⟨w, hw, hv⟩ := Option.bind_eq_some_iff.1 h
    obtain ⟨l₁, l₂, rfl, -⟩ := List.lookup_eq_some_iff.1 hw
    exact ⟨_, rfl, by simp [eq_of_pointer hv]⟩
  | _ => cases h

theorem weight_of_get {name : Bytes} {j v : Json} (h : Json.get name (some j) = some v) :
    cost name + 5 + v.weight ≤ j.weight := by
  obtain ⟨ms, rfl, hmem⟩ := mem_of_get h
  have := memberWeight_add_le hmem
  rw [Json.memberWeight] at this
  rw [Json.weight]
  omega

/-! ### The outermost object -/

/-- The members of the outermost object so far. -/
def bottom : List Frame → Option (List (Bytes × Json))
  | [] => none
  | [.obj members] => some members
  | [.member members _] => some members
  | [.arr _] => none
  | _ :: f :: st => bottom (f :: st)

def State.kept (s : State) : Option (List (Bytes × Json)) :=
  match s.mode with
  | .done (.obj members) => some members
  | _ => bottom s.stack

section Kept

variable {s s' : State} {st : List Frame} {j : Json} {c : UInt8} {ms : List (Bytes × Json)}

/-- The state has kept the members. -/
def Keeps (ms : List (Bytes × Json)) (s : State) : Prop := ∃ ms', s.kept = some ms' ∧ ms <:+ ms'

theorem bottom_cons (f g : Frame) (st : List Frame) : bottom (f :: g :: st) = bottom (g :: st) := by
  cases f <;> rfl

/-- A value inside an array or an object has ended. -/
theorem bottom_put (hst : bottom st = some ms) (h : put j st = some s) :
    ∃ st' ms', s = ⟨st', .after⟩ ∧ bottom st' = some ms' ∧ ms <:+ ms' := by
  cases st with
  | nil => cases hst
  | cons f st =>
    cases st with
    | nil =>
      cases f with
      | arr items => cases hst
      | obj members => cases h
      | member members name =>
        obtain rfl := Option.some.inj h
        obtain rfl := Option.some.inj hst
        exact ⟨_, _, rfl, rfl, List.suffix_cons _ _⟩
    | cons g st =>
      rw [bottom_cons] at hst
      cases f with
      | arr items =>
        obtain rfl := Option.some.inj h
        exact ⟨_, ms, rfl, hst, List.suffix_rfl⟩
      | obj members => cases h
      | member members name =>
        obtain rfl := Option.some.inj h
        exact ⟨_, ms, rfl, hst, List.suffix_rfl⟩

theorem keeps_put (hst : bottom st = some ms) (h : put j st = some s) : Keeps ms s := by
  obtain ⟨st', ms', rfl, hst', hsuffix⟩ := bottom_put hst h
  exact ⟨ms', hst', hsuffix⟩

theorem keeps_of_bottom (hst : bottom st = some ms) {mode : Mode} (hmode : ∀ j, mode ≠ .done j) :
    Keeps ms ⟨st, mode⟩ := by
  refine ⟨ms, ?_, List.suffix_rfl⟩
  cases mode with
  | done j => exact absurd rfl (hmode j)
  | _ => exact hst

theorem keeps_stepAfter (hst : bottom st = some ms) (h : stepAfter st c = some s) : Keeps ms s := by
  cases st with
  | nil => cases hst
  | cons f st =>
    cases f with
    | arr items =>
      change (if c = 44 then _ else if c = 93 then put (.arr items.reverse) st else none) = _ at h
      split_ifs at h
      · obtain rfl := Option.some.inj h
        exact keeps_of_bottom hst (by simp)
      · cases st with
        | nil => cases hst
        | cons g st =>
          rw [bottom_cons] at hst
          exact keeps_put hst h
    | obj members =>
      change (if c = 44 then _ else if c = 125 then put (.obj members) st else none) = _ at h
      split_ifs at h
      · obtain rfl := Option.some.inj h
        exact keeps_of_bottom hst (by simp)
      · cases st with
        | nil =>
          obtain rfl := Option.some.inj h
          exact ⟨ms, hst, List.suffix_rfl⟩
        | cons g st =>
          rw [bottom_cons] at hst
          exact keeps_put hst h
    | member members name => cases h

theorem keeps_stepValue (hst : bottom st = some ms) (h : stepValue st c = some s) :
    Keeps ms s := by
  have hpush : ∀ f, bottom (f :: st) = some ms := by
    intro f
    cases st with
    | nil => cases hst
    | cons g st => rw [bottom_cons, hst]
  unfold stepValue at h
  split_ifs at h <;> obtain rfl := Option.some.inj h
  · exact keeps_of_bottom hst (by simp)
  · exact keeps_of_bottom (hpush _) (by simp)
  · exact keeps_of_bottom (hpush _) (by simp)
  · exact keeps_of_bottom hst (by simp)
  · exact keeps_of_bottom hst (by simp)
  · exact keeps_of_bottom hst (by simp)
  · exact keeps_of_bottom hst (by simp)

theorem keeps_putString {raw : Bytes} (hst : bottom st = some ms)
    (h : putString raw st = some s) : Keeps ms s := by
  obtain ⟨t, -, h⟩ := Option.bind_eq_some_iff.1 h
  cases st with
  | nil => cases hst
  | cons f st =>
    cases f with
    | arr items => exact keeps_put hst h
    | obj members =>
      obtain rfl := Option.some.inj h
      cases st with
      | nil => exact ⟨ms, hst, List.suffix_rfl⟩
      | cons g st => exact ⟨ms, hst, List.suffix_rfl⟩
    | member members name => exact keeps_put hst h

theorem keeps_done {i : Json} (h : State.kept ⟨st, .done i⟩ = some ms) :
    Keeps ms ⟨st, .done i⟩ := ⟨ms, h, List.suffix_rfl⟩

/-- The members of the outermost object stay in it. -/
theorem keeps_step (hs : s.kept = some ms) (h : step s c = some s') : Keeps ms s' := by
  obtain ⟨st, mode⟩ := s
  cases mode with
  | value =>
    change (if isSpace c then _ else stepValue st c) = some s' at h
    split_ifs at h
    · obtain rfl := Option.some.inj h
      exact keeps_of_bottom hs (by simp)
    · exact keeps_stepValue hs h
  | firstItem =>
    change (if isSpace c then _ else if c = 93 then stepAfter st c else stepValue st c) = some s' at h
    split_ifs at h
    · obtain rfl := Option.some.inj h
      exact keeps_of_bottom hs (by simp)
    · exact keeps_stepAfter hs h
    · exact keeps_stepValue hs h
  | firstKey =>
    change (if isSpace c then _ else if c = 125 then stepAfter st c else
      if c = 34 then some ⟨st, .str []⟩ else none) = some s' at h
    split_ifs at h
    · obtain rfl := Option.some.inj h
      exact keeps_of_bottom hs (by simp)
    · exact keeps_stepAfter hs h
    · obtain rfl := Option.some.inj h
      exact keeps_of_bottom hs (by simp)
  | key =>
    change (if isSpace c then _ else if c = 34 then some ⟨st, .str []⟩ else none) = some s' at h
    split_ifs at h <;> obtain rfl := Option.some.inj h <;> exact keeps_of_bottom hs (by simp)
  | colon =>
    change (if isSpace c then _ else if c = 58 then some ⟨st, .value⟩ else none) = some s' at h
    split_ifs at h <;> obtain rfl := Option.some.inj h <;> exact keeps_of_bottom hs (by simp)
  | str raw =>
    change (if c = 34 then putString raw st else if c = 92 then _ else _) = some s' at h
    split_ifs at h
    · exact keeps_putString hs h
    · obtain rfl := Option.some.inj h
      exact keeps_of_bottom hs (by simp)
    · obtain rfl := Option.some.inj h
      exact keeps_of_bottom hs (by simp)
  | esc raw =>
    obtain rfl := Option.some.inj h
    exact keeps_of_bottom hs (by simp)
  | num text =>
    change (if inNumber c then _ else do
      let s' ← put (← decodeNumber text) st
      if isSpace c then some s' else stepAfter s'.stack c) = some s' at h
    by_cases hc : inNumber c
    · rw [if_pos hc] at h
      obtain rfl := Option.some.inj h
      exact keeps_of_bottom hs (by simp)
    · rw [if_neg hc] at h
      obtain ⟨j, hj, h⟩ := Option.bind_eq_some_iff.1 h
      obtain ⟨t, ht, h⟩ := Option.bind_eq_some_iff.1 h
      obtain ⟨st', ms', rfl, hst', hsuffix⟩ := bottom_put hs ht
      split_ifs at h
      · obtain rfl := Option.some.inj h
        exact ⟨ms', hst', hsuffix⟩
      · obtain ⟨ms'', hkept, hsuffix'⟩ := keeps_stepAfter hst' h
        exact ⟨ms'', hkept, hsuffix.trans hsuffix'⟩
  | lit rest j =>
    cases rest with
    | nil => cases h
    | cons d rest =>
      change (if c ≠ d then none else if rest = [] then put j st else some ⟨st, .lit rest j⟩) =
        some s' at h
      split_ifs at h
      · exact keeps_put hs h
      · obtain rfl := Option.some.inj h
        exact keeps_of_bottom hs (by simp)
  | after =>
    change (if isSpace c then _ else stepAfter st c) = some s' at h
    split_ifs at h
    · obtain rfl := Option.some.inj h
      exact keeps_of_bottom hs (by simp)
    · exact keeps_stepAfter hs h
  | done j =>
    change (if isSpace c then _ else none) = some s' at h
    split_ifs at h
    obtain rfl := Option.some.inj h
    exact keeps_done hs

theorem keeps_run {text : Bytes} (hs : s.kept = some ms) (h : run s text = some s') :
    Keeps ms s' := by
  induction text generalizing s ms with
  | nil =>
    obtain rfl := Option.some.inj h
    exact ⟨ms, hs, List.suffix_rfl⟩
  | cons c text ih =>
    rw [run_cons] at h
    obtain ⟨t, ht, h⟩ := Option.bind_eq_some_iff.1 h
    obtain ⟨ms', hkept, hsuffix⟩ := keeps_step hs ht
    obtain ⟨ms'', hkept', hsuffix'⟩ := ih hkept h
    exact ⟨ms'', hkept', hsuffix.trans hsuffix'⟩

/-- The members of the outermost object are members of the value. -/
theorem value_of_keeps (h : Keeps ms s) (hvalue : s.value = some j) :
    ∃ ms', j = .obj ms' ∧ ms <:+ ms' := by
  obtain ⟨ms', hkept, hsuffix⟩ := h
  obtain ⟨st, mode⟩ := s
  cases mode with
  | done i =>
    cases st with
    | nil =>
      obtain rfl : i = j := Option.some.inj hvalue
      cases i with
      | obj members =>
        obtain rfl := Option.some.inj hkept
        exact ⟨_, rfl, hsuffix⟩
      | _ => cases hkept
    | cons f st => cases hvalue
  | num text =>
    cases st with
    | nil => cases hkept
    | cons f st => cases hvalue
  | _ => cases hvalue

end Kept

end JsonC
