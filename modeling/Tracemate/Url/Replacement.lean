import Mathlib.Data.List.TakeWhile
import Tracemate.Url

/-!
# Replacing the first capture

`apply_regex` copies the parts of a string to a buffer and back, with a length that is too large
for the last part.  What is behind the terminator comes along, and is cut off again.

* `OnText`: a function on the buffer does what a function on strings does;
* `spliced`, `rewriteText`: one round and the loop of `apply_regex` on strings;
  `onText_applyRegexIn`;
* `replaced`, `applyRegex_eq_replaced`: what the loop makes of a string while its assertions hold;
* `assertions_hold_iff`: when a match whose result fits does not end the process.
-/

namespace Tracemate

open CStr COutcome Pattern Squasher

/-! ### Buffers and strings -/

theorem strAt_append_zero (s t : Bytes) : strAt (s ++ 0 :: t) = strAt s := by
  induction s with
  | nil => rfl
  | cons c s ih =>
    unfold strAt at ih ⊢
    by_cases hc : c = 0
    · simp [hc]
    · simpa [hc] using ih

theorem notMem_strAt (s : Bytes) : (0 : UInt8) ∉ strAt s := fun h => by
  simpa using List.mem_takeWhile_imp h

theorem strAt_strAt (s : Bytes) : strAt (strAt s) = strAt s := List.takeWhile_idem ..

/-- The buffer holds the string that a function on strings returns, its length and its terminator;
what is behind the terminator is left open. -/
inductive OnText : Outcome (Bytes × ℕ × Bool) → Outcome (Bytes × Bool) → Prop
  | ok (x rest : Bytes) (matched : Bool) :
    OnText (.ok (x ++ 0 :: rest, x.length, matched)) (.ok (x, matched))
  | error (e : Fault) : OnText (.error e) (.error e)

theorem OnText.bind {o : Outcome (Bytes × ℕ × Bool)} {p : Outcome (Bytes × Bool)}
    {f : Bytes × ℕ × Bool → Outcome (Bytes × ℕ × Bool)} {g : Bytes × Bool → Outcome (Bytes × Bool)}
    (h : OnText o p)
    (hf : ∀ x rest matched, OnText (f (x ++ 0 :: rest, x.length, matched)) (g (x, matched))) :
    OnText (o >>= f) (p >>= g) := by
  cases h with
  | ok x rest matched => exact hf x rest matched
  | error e => exact .error e

theorem OnText.error_or_ok {o : Outcome (Bytes × ℕ × Bool)} {p : Outcome (Bytes × Bool)}
    (h : OnText o p) : (∃ e, p = .error e ∧ o = .error e) ∨
      ∃ x rest matched, p = .ok (x, matched) ∧ o = .ok (x ++ 0 :: rest, x.length, matched) := by
  cases h with
  | ok x rest matched => exact .inr ⟨x, rest, matched, rfl, rfl⟩
  | error e => exact .inl ⟨e, rfl, rfl⟩

theorem OnText.eq_ok {o : Outcome (Bytes × ℕ × Bool)} {x : Bytes} {matched : Bool}
    (h : OnText o (.ok (x, matched))) : ∃ rest, o = .ok (x ++ 0 :: rest, x.length, matched) := by
  cases h with
  | ok x rest matched => exact ⟨rest, rfl⟩

theorem OnText.eq_error {o : Outcome (Bytes × ℕ × Bool)} {e : Fault} (h : OnText o (.error e)) :
    o = .error e := by
  cases h with
  | error e => rfl

/-! ### One round -/

/-- The offsets of a group that takes part in a match are in order, and inside the subject. -/
def CapturesWithin (m : PcreMatcher) : Prop :=
  ∀ s a b, m.exec s = some (some (a, b)) → a ≤ b ∧ b ≤ s.length

/-- The group takes part in every match, with offsets in order and inside the subject. -/
def WithinSubject (m : PcreMatcher) : Prop :=
  ∀ s group, m.exec s = some group → ∃ a b, group = some (a, b) ∧ a ≤ b ∧ b ≤ s.length

theorem WithinSubject.capturesWithin {m : PcreMatcher} (h : WithinSubject m) :
    CapturesWithin m := by
  intro s a b hs
  obtain ⟨a', b', heq, hab, hb⟩ := h s _ hs
  obtain ⟨rfl, rfl⟩ := Prod.mk.inj (Option.some.inj heq)
  exact ⟨hab, hb⟩

/-- The string with a text in place of its bytes from `a` to `b`; `apply_regex` asserts that its
buffer holds it, with the bytes that are copied too much: as many as there are before `a`. -/
def spliced (reach : Reach) (replace x : Bytes) (a b : ℕ) : Outcome Bytes :=
  if a + replace.length + (x.length - (b - a)) < pathSize then
    if reach = .length ∧ 1 < a then .error .outOfBounds
    else .ok (strAt (x.take a ++ replace ++ x.drop b))
  else .error .crash

section Round

variable {reach : Reach} {replace x : Bytes} {a b : ℕ}

/-- What is copied from behind the capture: the rest of the string, and if it is more, the
terminator and bytes behind it. -/
theorem strAt_temp (s rest : Bytes) (hab : a ≤ b) (hb : b ≤ x.length) :
    strAt (s ++ ((x ++ 0 :: rest).drop b).take (x.length - (b - a))) = strAt (s ++ x.drop b) := by
  have hlen : (x.drop b).length = x.length - b := List.length_drop ..
  rw [List.drop_append_of_le_length hb]
  obtain ⟨k, hk⟩ : ∃ k, x.length - (b - a) = (x.drop b).length + k := ⟨a, by omega⟩
  rw [hk, List.take_length_add_append]
  cases k with
  | zero => rw [List.take_zero, List.append_nil]
  | succ k => rw [List.take_succ_cons, ← List.append_assoc, strAt_append_zero]

/-- One round on a buffer that holds a string. -/
theorem replaceFirstIn_eq (rest : Bytes) (hab : a ≤ b) (hb : b ≤ x.length) :
    replaceFirstIn reach replace (x ++ 0 :: rest) x.length a b =
      (spliced reach replace x a b).map fun t =>
        t ++ 0 :: (x ++ 0 :: rest).drop (t.length + 1) := by
  simp only [replaceFirstIn, spliced]
  by_cases hfit : a + replace.length + (x.length - (b - a)) < pathSize
  · rw [if_pos hfit, if_neg (by omega), if_neg (by omega), if_neg (by omega), memcpyFrom]
    -- the copy goes `a` bytes past the end of the string
    have hfar : x.length + 1 < b + (x.length - (b - a)) ↔ 1 < a := by omega
    simp only [hfar]
    split_ifs with hreach
    · rfl
    · show Except.ok (strAt _ ++ 0 :: _) = Except.ok (strAt _ ++ 0 :: _)
      rw [List.take_append_of_le_length (hab.trans hb), strAt_temp _ _ hab hb]
  · rw [if_neg hfit]
    split_ifs with h1 h2 h3
    · omega
    · rfl
    · rfl
    · rfl

/-- A round either fails or keeps the terminator. -/
theorem replaceFirstIn_cases (reach : Reach) (replace rest : Bytes) (hab : a ≤ b)
    (hb : b ≤ x.length) :
    (∃ e, spliced reach replace x a b = .error e ∧
      replaceFirstIn reach replace (x ++ 0 :: rest) x.length a b = .error e) ∨
    ∃ t rest', spliced reach replace x a b = .ok t ∧ strAt t = t ∧
      replaceFirstIn reach replace (x ++ 0 :: rest) x.length a b = .ok (t ++ 0 :: rest') := by
  rw [replaceFirstIn_eq rest hab hb]
  unfold spliced
  split_ifs
  · exact .inl ⟨_, rfl, rfl⟩
  · exact .inr ⟨_, _, rfl, strAt_strAt _, rfl⟩
  · exact .inl ⟨_, rfl, rfl⟩

/-- With all of the buffer in reach, a round returns or ends the process. -/
theorem spliced_buffer (replace x : Bytes) (a b : ℕ) :
    spliced .buffer replace x a b =
      if a + replace.length + (x.length - (b - a)) < pathSize then
        .ok (strAt (x.take a ++ replace ++ x.drop b))
      else .error .crash := by
  simp [spliced]

end Round

/-! ### The loop -/

/-- The loop of `apply_regex` on the string in the buffer. -/
def rewriteText (reach : Reach) (m : PcreMatcher) (attempts : ℕ) (x : Bytes) :
    Outcome (Bytes × Bool) :=
  match m.exec x with
  | none => .ok (x, false)
  | some none => .error .outOfBounds
  | some (some (a, b)) => do
    let x ← spliced reach m.replace x a b
    match attempts with
    | n + 2 => do
      let (x, _) ← rewriteText reach m (n + 1) x
      .ok (x, true)
    | _ => .ok (x, true)

section Loop

variable {reach : Reach} {m : PcreMatcher} {x : Bytes}

theorem rewriteText_none (attempts : ℕ) (h : m.exec x = none) :
    rewriteText reach m attempts x = .ok (x, false) := by
  rw [rewriteText.eq_def, h]

theorem rewriteText_unset (attempts : ℕ) (h : m.exec x = some none) :
    rewriteText reach m attempts x = .error .outOfBounds := by
  rw [rewriteText.eq_def, h]

theorem rewriteText_some {a b : ℕ} (h : m.exec x = some (some (a, b))) :
    rewriteText reach m 1 x = (spliced reach m.replace x a b).map fun t => (t, true) := by
  rw [rewriteText, h]
  show (spliced _ _ _ _ _ >>= fun t => _) = _
  cases spliced reach m.replace x a b <;> rfl

theorem rewriteText_again {a b : ℕ} (h : m.exec x = some (some (a, b))) (n : ℕ) :
    rewriteText reach m (n + 2) x = spliced reach m.replace x a b >>= fun t =>
      (rewriteText reach m (n + 1) t).map fun r => (r.1, true) := by
  rw [rewriteText, h]
  rfl

/-- Whatever is behind the terminator, `apply_regex` works on the string. -/
theorem onText_applyRegexIn (reach : Reach) (hm : CapturesWithin m) (attempts : ℕ) (x rest : Bytes) :
    OnText (applyRegexIn reach m attempts (x ++ 0 :: rest) x.length)
      (rewriteText reach m attempts x) := by
  induction attempts using Nat.strong_induction_on generalizing x rest with
  | _ attempts ih =>
    rw [applyRegexIn.eq_def, rewriteText.eq_def, List.take_left]
    cases hx : m.exec x with
    | none => exact .ok x rest false
    | some group =>
    cases group with
    | none => exact .error _
    | some ab =>
      obtain ⟨a, b⟩ := ab
      obtain ⟨hab, hb⟩ := hm x a b hx
      dsimp only
      rcases replaceFirstIn_cases reach m.replace rest hab hb with
        ⟨e, hs, hr⟩ | ⟨t, rest', hs, ht, hr⟩
      · rw [hs, hr]
        exact .error _
      · rw [hs, hr]
        -- the new length is that of the string up to the terminator
        have hlen : (strAt (t ++ 0 :: rest')).length = t.length := by rw [strAt_append_zero, ht]
        rcases attempts with _ | _ | n
        · show OnText (.ok (t ++ 0 :: rest', (strAt (t ++ 0 :: rest')).length, true)) _
          rw [hlen]
          exact .ok t rest' true
        · show OnText (.ok (t ++ 0 :: rest', (strAt (t ++ 0 :: rest')).length, true)) _
          rw [hlen]
          exact .ok t rest' true
        · show OnText (applyRegexIn reach m (n + 1) (t ++ 0 :: rest')
            (strAt (t ++ 0 :: rest')).length >>= _) (rewriteText reach m (n + 1) t >>= _)
          rw [hlen]
          exact (ih (n + 1) (by omega) t rest').bind fun x rest _ => .ok x rest true

end Loop

/-! ### Strings without zero bytes -/

/-- The string with its first capture replaced again and again, until a match fails or so many
replacements were made, and their number. -/
def replaced (m : PcreMatcher) : ℕ → Bytes → Bytes × ℕ
  | 0, s => (s, 0)
  | n + 1, s =>
    match (m.exec s).join with
    | none => (s, 0)
    | some (a, b) =>
      let (t, count) := replaced m n (s.take a ++ m.replace ++ s.drop b)
      (t, count + 1)

/-- The assertions of one round, for a string of `len` bytes and a capture from `a` to `b`. -/
def AssertionsHold (replace : Bytes) (len a b : ℕ) : Prop :=
  a < pathSize ∧ replace.length < pathSize - a ∧ len - (b - a) < pathSize - a - replace.length

/-- The assertions of all rounds. -/
def AllAssertionsHold (m : PcreMatcher) : ℕ → Bytes → Prop
  | 0, _ => True
  | n + 1, s => ∀ ab ∈ (m.exec s).join, AssertionsHold m.replace s.length ab.1 ab.2 ∧
      AllAssertionsHold m n (s.take ab.1 ++ m.replace ++ s.drop ab.2)

instance (replace : Bytes) (len a b : ℕ) : Decidable (AssertionsHold replace len a b) :=
  inferInstanceAs (Decidable (_ ∧ _ ∧ _))

instance decidableAllAssertionsHold (m : PcreMatcher) :
    ∀ n s, Decidable (AllAssertionsHold m n s)
  | 0, _ => isTrue trivial
  | n + 1, s =>
    have := fun ab : ℕ × ℕ =>
      decidableAllAssertionsHold m n (s.take ab.1 ++ m.replace ++ s.drop ab.2)
    inferInstanceAs (Decidable (∀ ab ∈ (m.exec s).join, _ ∧ _))

section Strings

variable {m : PcreMatcher} {s : Bytes} {a b : ℕ}

theorem replaced_none (n : ℕ) (h : m.exec s = none) : replaced m (n + 1) s = (s, 0) := by
  rw [replaced, h]
  rfl

theorem replaced_some (n : ℕ) (h : m.exec s = some (some (a, b))) :
    replaced m (n + 1) s = ((replaced m n (s.take a ++ m.replace ++ s.drop b)).1,
      (replaced m n (s.take a ++ m.replace ++ s.drop b)).2 + 1) := by
  rw [replaced, h]
  rfl

theorem allAssertionsHold_none (n : ℕ) (h : m.exec s = none) : AllAssertionsHold m (n + 1) s := by
  rw [AllAssertionsHold, h]
  simp

theorem allAssertionsHold_some {n : ℕ} (h : m.exec s = some (some (a, b))) :
    AllAssertionsHold m (n + 1) s ↔ AssertionsHold m.replace s.length a b ∧
      AllAssertionsHold m n (s.take a ++ m.replace ++ s.drop b) := by
  rw [AllAssertionsHold, h]
  simp

theorem assertionsHold_iff {replace : Bytes} {len : ℕ} :
    AssertionsHold replace len a b ↔ a + replace.length + (len - (b - a)) < pathSize := by
  unfold AssertionsHold
  omega

theorem notMem_spliced {replace : Bytes} (hr : (0 : UInt8) ∉ replace) (hs : (0 : UInt8) ∉ s)
    (a b : ℕ) : (0 : UInt8) ∉ s.take a ++ replace ++ s.drop b := by
  simp only [List.mem_append, not_or]
  exact ⟨⟨fun h => hs (List.mem_of_mem_take h), hr⟩, fun h => hs (List.mem_of_mem_drop h)⟩

theorem strAt_of_notMem (hs : (0 : UInt8) ∉ s) : strAt s = s := by
  refine List.takeWhile_eq_self_iff.2 fun c hc => ?_
  simpa using fun h0 : c = 0 => hs (h0 ▸ hc)

theorem notMem_replaced (hr : (0 : UInt8) ∉ m.replace) (n : ℕ) (hs : (0 : UInt8) ∉ s) :
    (0 : UInt8) ∉ (replaced m n s).1 := by
  induction n generalizing s with
  | zero => exact hs
  | succ n ih =>
    rw [replaced]
    cases (m.exec s).join with
    | none => exact hs
    | some ab => exact ih (notMem_spliced hr hs _ _)

theorem WithinSubject.exec_cases (hm : WithinSubject m) (s : Bytes) :
    m.exec s = none ∨ ∃ a b, m.exec s = some (some (a, b)) := by
  cases hx : m.exec s with
  | none => exact .inl rfl
  | some group =>
    obtain ⟨a, b, rfl, -⟩ := hm s group hx
    exact .inr ⟨a, b, rfl⟩

/-- On a string without zero bytes the loop is the repeated replacement. -/
theorem rewriteText_of_hold (hm : WithinSubject m) (hr : (0 : UInt8) ∉ m.replace) (n : ℕ)
    (hs : (0 : UInt8) ∉ s) (h : AllAssertionsHold m (n + 1) s) :
    rewriteText .buffer m (n + 1) s =
      .ok ((replaced m (n + 1) s).1, decide (0 < (replaced m (n + 1) s).2)) := by
  induction n generalizing s with
  | zero =>
    rcases hm.exec_cases s with hx | ⟨a, b, hx⟩
    · rw [rewriteText_none 1 hx, replaced_none 0 hx]
      rfl
    · obtain ⟨hround, -⟩ := (allAssertionsHold_some hx).1 h
      rw [rewriteText_some hx, replaced_some 0 hx, spliced_buffer,
        if_pos (assertionsHold_iff.1 hround), strAt_of_notMem (notMem_spliced hr hs _ _)]
      rfl
  | succ n ih =>
    rcases hm.exec_cases s with hx | ⟨a, b, hx⟩
    · rw [rewriteText_none _ hx, replaced_none _ hx]
      rfl
    · obtain ⟨hround, hrest⟩ := (allAssertionsHold_some hx).1 h
      have hsplice := notMem_spliced hr hs a b
      rw [rewriteText_again hx, replaced_some _ hx, spliced_buffer,
        if_pos (assertionsHold_iff.1 hround), strAt_of_notMem hsplice]
      show (rewriteText .buffer m (n + 1) _).map _ = _
      rw [ih hsplice hrest]
      rfl

/-- An assertion that fails ends the process. -/
theorem rewriteText_of_not_hold (hm : WithinSubject m) (hr : (0 : UInt8) ∉ m.replace) (n : ℕ)
    (hs : (0 : UInt8) ∉ s) (h : ¬ AllAssertionsHold m (n + 1) s) :
    rewriteText .buffer m (n + 1) s = .error .crash := by
  induction n generalizing s with
  | zero =>
    rcases hm.exec_cases s with hx | ⟨a, b, hx⟩
    · exact absurd (allAssertionsHold_none 0 hx) h
    · rw [allAssertionsHold_some hx] at h
      rw [rewriteText_some hx, spliced_buffer,
        if_neg fun hfit => h ⟨assertionsHold_iff.2 hfit, trivial⟩]
      rfl
  | succ n ih =>
    rcases hm.exec_cases s with hx | ⟨a, b, hx⟩
    · exact absurd (allAssertionsHold_none (n + 1) hx) h
    · rw [allAssertionsHold_some hx] at h
      rw [rewriteText_again hx, spliced_buffer]
      split_ifs with hfit
      · have hsplice := notMem_spliced hr hs a b
        rw [strAt_of_notMem hsplice]
        show (rewriteText .buffer m (n + 1) _).map _ = _
        rw [ih hsplice fun hrest => h ⟨assertionsHold_iff.2 hfit, hrest⟩]
        rfl
      · rfl

end Strings

/-- **Rewriting.**  While its assertions hold, `apply_regex` leaves the string in the buffer whose
first capture was replaced again and again, its length, and whether a replacement was made. -/
theorem applyRegex_eq_replaced {m : PcreMatcher} (hm : WithinSubject m)
    (hr : (0 : UInt8) ∉ m.replace) {s : Bytes} (hs : (0 : UInt8) ∉ s) (rest : Bytes)
    {attempts : ℕ} (hattempts : 1 ≤ attempts) (h : AllAssertionsHold m attempts s) :
    ∃ t count rest', replaced m attempts s = (t, count) ∧ (0 : UInt8) ∉ t ∧
      applyRegex m attempts (s ++ 0 :: rest) s.length =
        .ok (t ++ 0 :: rest', t.length, decide (0 < count)) := by
  obtain ⟨n, rfl⟩ : ∃ n, attempts = n + 1 := ⟨attempts - 1, by omega⟩
  have htext := onText_applyRegexIn .buffer hm.capturesWithin (n + 1) s rest
  rw [rewriteText_of_hold hm hr n hs h] at htext
  obtain ⟨rest', hrun⟩ := htext.eq_ok
  exact ⟨(replaced m (n + 1) s).1, (replaced m (n + 1) s).2, rest', rfl, notMem_replaced hr _ hs,
    hrun⟩

/-- The matcher of the byte `a`, whose replacement is `bc`. -/
def byteMatcher : PcreMatcher := ⟨capturing [.byte 97], cstr "bc"⟩

theorem withinSubject_byteMatcher : WithinSubject byteMatcher := by
  intro s group h
  obtain ⟨a, b, hsearch, rfl⟩ := capturing_eq_some.1 h
  obtain ⟨hab, hb, -⟩ := search_spec hsearch
  exact ⟨a, b, rfl, hab, hb⟩

/-- Two replacements of three, with stale bytes behind the terminator. -/
theorem applyRegex_twice :
    ∃ rest, applyRegex byteMatcher 2 (cstr "/a/a/a" ++ 0 :: cstr "stale") 6 =
      .ok (cstr "/bc/bc/a" ++ 0 :: rest, 8, true) := by
  obtain ⟨t, count, rest, hreplaced, -, hrun⟩ :=
    @applyRegex_eq_replaced byteMatcher withinSubject_byteMatcher (by decide) (cstr "/a/a/a")
      (by decide) (cstr "stale") 2 (by decide) (by decide)
  have hvalue : replaced byteMatcher 2 (cstr "/a/a/a") = (cstr "/bc/bc/a", 2) := by decide
  obtain ⟨rfl, rfl⟩ := Prod.mk.inj (hreplaced.symm.trans hvalue)
  exact ⟨rest, hrun⟩

/-- Otherwise it ends the process. -/
theorem applyRegex_crash {m : PcreMatcher} (hm : WithinSubject m) (hr : (0 : UInt8) ∉ m.replace)
    {s : Bytes} (hs : (0 : UInt8) ∉ s) (rest : Bytes) {attempts : ℕ} (hattempts : 1 ≤ attempts)
    (h : ¬ AllAssertionsHold m attempts s) :
    applyRegex m attempts (s ++ 0 :: rest) s.length = .error .crash := by
  obtain ⟨n, rfl⟩ : ∃ n, attempts = n + 1 := ⟨attempts - 1, by omega⟩
  have htext := onText_applyRegexIn .buffer hm.capturesWithin (n + 1) s rest
  rw [rewriteText_of_not_hold hm hr n hs h] at htext
  exact htext.eq_error

/-! ### The assertions -/

section Assertions

variable {replace s : Bytes} {a b : ℕ}

theorem length_spliced (hab : a ≤ b) (hb : b ≤ s.length) :
    (s.take a ++ replace ++ s.drop b).length + a = a + replace.length + (s.length - (b - a)) := by
  simp only [List.length_append, List.length_take, List.length_drop]
  omega

/-- A round returns exactly if the new string would fit with its first part counted twice. -/
theorem exists_replaceFirst_iff (rest : Bytes) (hab : a ≤ b) (hb : b ≤ s.length) :
    (∃ copy, replaceFirst replace (s ++ 0 :: rest) s.length a b = .ok copy) ↔
      (s.take a ++ replace ++ s.drop b).length + a < pathSize := by
  rw [replaceFirst, replaceFirstIn_eq rest hab hb, spliced_buffer, length_spliced hab hb]
  split_ifs with hfit
  · exact iff_of_true ⟨_, rfl⟩ hfit
  · exact iff_of_false (by rintro ⟨copy, h⟩; cases h) hfit

/-- **The assertions.**  A match whose new string fits does not end the process exactly if the
string would fit with its first part counted twice. -/
theorem assertions_hold_iff (rest : Bytes) (hab : a ≤ b) (hb : b ≤ s.length) :
    ((s.take a ++ replace ++ s.drop b).length < pathSize →
        ∃ copy, replaceFirst replace (s ++ 0 :: rest) s.length a b = .ok copy) ↔
      (pathSize ≤ (s.take a ++ replace ++ s.drop b).length ∨
        (s.take a ++ replace ++ s.drop b).length + a < pathSize) := by
  rw [exists_replaceFirst_iff rest hab hb]
  constructor
  · intro h
    by_cases hfit : (s.take a ++ replace ++ s.drop b).length < pathSize
    · exact .inr (h hfit)
    · exact .inl (not_lt.1 hfit)
  · rintro (h | h) hfit
    · exact absurd hfit (not_lt.2 h)
    · exact h

end Assertions

/-- An early match in a short path. -/
theorem replaceFirst_shortPath :
    ∃ copy, replaceFirst (cstr "/n") (cstr "/v1/7/x" ++ [0]) 7 3 5 = .ok copy :=
  (@assertions_hold_iff (cstr "/n") (cstr "/v1/7/x") 3 5 [] (by decide) (by decide)).2
    (.inr (by decide)) (by decide)

/-- A capture at the end of a path of 2050 bytes, with a replacement of the same length. -/
theorem late_match_crashes :
    ¬ ∀ (replace s rest : Bytes) (a b : ℕ), s.length < pathSize → a ≤ b → b ≤ s.length →
      (s.take a ++ replace ++ s.drop b).length < pathSize →
        ∃ copy, replaceFirst replace (s ++ 0 :: rest) s.length a b = .ok copy := by
  intro h
  have hlen : (List.replicate 2050 (97 : UInt8)).length = 2050 := List.length_replicate ..
  have hnew : ((List.replicate 2050 (97 : UInt8)).take 2048 ++ cstr "/n" ++
      (List.replicate 2050 (97 : UInt8)).drop 2050).length = 2050 := by
    rw [List.take_replicate, List.drop_replicate]
    simp only [List.length_append, List.length_replicate]
    decide
  have := (exists_replaceFirst_iff [] (by omega) (by omega)).1
    (h (cstr "/n") (List.replicate 2050 97) [] 2048 2050 (by rw [hlen]; decide) (by omega)
      (by omega) (by rw [hnew]; decide))
  rw [hnew] at this
  exact absurd this (by decide)

end Tracemate
