import Tracemate.Url.Replacement

/-!
# Generic paths

What `genericize_path` makes of a path, told on strings.

* `chopperText`, `initPathRegex`: the pattern that `init_path_regex` compiles;
* `untrimmed`: the path after the rewrites; `trimmed`: without its query and a trailing slash;
* `genericizePathIn_eq`: `genericize_path` is these two, one after the other;
* `EndsClean`, `Replacing`, `StaysClean`: the paths for which that does what it should;
* `clean_iff`: for these, and no others, all indices are inside the current length, and no `?` and
  no trailing slash is left;
* `count_slashes_le`: how long a path may be that nothing has matched.
-/

namespace Tracemate

open CStr COutcome Pattern Squasher

/-! ### The chopper -/

/-- The pattern of `init_path_regex`. -/
def chopperText : Bytes := cstr "^\\/[^\\/]+\\/[^\\/]+\\/[^\\/]+(\\/.*)$"

/-- `init_path_regex`: the static variable `chopper`. -/
def initPathRegex (pcre : Engine) : Option PcreMatcher :=
  (pcre chopperText).map fun exec => ⟨exec, cstr "/\x7b...\x7d"⟩

/-- The items before the group: three segments, each behind a slash. -/
def threeSegments : List Item :=
  [.escaped 47, .manyExcept 47, .escaped 47, .manyExcept 47, .escaped 47, .manyExcept 47]

/-- The items of the group. -/
def fromSlash : List Item := [.escaped 47, .rest]

theorem chopperText_eq : chopperText = printAnchored threeSegments fromSlash := by decide

/-! ### The functions on strings -/

/-- The loop over the configured rewrites. -/
def rewriteMatchers (reach : Reach) (x : Bytes) : List PcreMatcher → Outcome (Bytes × Bool)
  | [] => .ok (x, false)
  | m :: ms => do
    let (x, matched) ← rewriteText reach m 3 x
    let (x, others) ← rewriteMatchers reach x ms
    .ok (x, matched || others)

/-- The loop over the regular expressions of the service. -/
def rewriteSquashers (reach : Reach) (x : Bytes) : List PcreMatcher → Outcome (Bytes × Bool)
  | [] => .ok (x, false)
  | m :: ms => do
    let (x, matched) ← rewriteText reach m 1 x
    if matched then .ok (x, true) else rewriteSquashers reach x ms

/-- The regular expressions of a service, in the order of their table. -/
def squashersOf (serviceName : Bytes) (td : TeamData) : List PcreMatcher :=
  (td.urls.squashRegexes.lookup serviceName).elim [] fun t => t.entries.map fun e => e.2

/-- The last resort, for a path that nothing has matched. -/
def chopText (reach : Reach) (chopper : Option PcreMatcher) (x : Bytes) : Outcome Bytes :=
  match chopper with
  | none => .ok x
  | some m => do
    let (x, matched) ← rewriteText reach m 1 x
    if matched = false ∧ x.length > 35 then .ok (x.take 32 ++ cstr "...") else .ok x

/-- The path before its end is cut off, and whether a rewrite or a squasher has matched. -/
def untrimmed (reach : Reach) (chopper : Option PcreMatcher) (serviceName : Bytes) (td : TeamData)
    (x : Bytes) : Outcome (Bytes × Bool) := do
  let (x, matched) ← rewriteMatchers reach x td.matcher
  if matched then .ok (x, true)
  else
    let (x, squashed) ← rewriteSquashers reach x (squashersOf serviceName td)
    if squashed then .ok (x, true)
    else
      let x ← chopText reach chopper x
      .ok (x, false)

/-- The part before the first `?`, if the string in the buffer has one. -/
def beforeQuery (x : Bytes) : Bytes :=
  if (63 : UInt8) ∈ strAt x then (strAt x).takeWhile (· ≠ 63) else x

/-- The end of `genericize_path`. -/
def trimmed (x : Bytes) : Outcome Bytes :=
  let p := beforeQuery x
  if p = [] then .error .outOfBounds
  else if p.getLast? = some 47 then .ok (strAt p.dropLast)
  else .ok (strAt p)

/-- What `strncpy` makes of the decoded path: from its first zero byte on, zeros. -/
def copied (decoded : Bytes) : Bytes :=
  strAt decoded ++ List.replicate (decoded.length - (strAt decoded).length) 0

/-! ### The code follows them -/

section Follows

variable {reach : Reach}

theorem onText_applyMatchersIn {ms : List PcreMatcher} (hms : ∀ m ∈ ms, CapturesWithin m)
    (x rest : Bytes) :
    OnText (applyMatchersIn reach (x ++ 0 :: rest) x.length ms) (rewriteMatchers reach x ms) := by
  induction ms generalizing x rest with
  | nil => exact .ok x rest false
  | cons m ms ih =>
    obtain ⟨hm, hms⟩ := List.forall_mem_cons.1 hms
    rw [applyMatchersIn, rewriteMatchers]
    refine (onText_applyRegexIn reach hm 3 x rest).bind fun x rest matched => ?_
    exact (ih hms x rest).bind fun x rest others => .ok x rest (matched || others)

theorem onText_applySquashersIn {ms : List PcreMatcher} (hms : ∀ m ∈ ms, CapturesWithin m)
    (x rest : Bytes) :
    OnText (applySquashersIn reach (x ++ 0 :: rest) x.length ms)
      (rewriteSquashers reach x ms) := by
  induction ms generalizing x rest with
  | nil => exact .ok x rest false
  | cons m ms ih =>
    obtain ⟨hm, hms⟩ := List.forall_mem_cons.1 hms
    rw [applySquashersIn, rewriteSquashers]
    refine (onText_applyRegexIn reach hm 1 x rest).bind fun x rest matched => ?_
    dsimp only
    cases matched with
    | true => exact .ok x rest true
    | false => exact ih hms x rest

theorem onText_applyPathSquasherIn {serviceName : Bytes} {td : TeamData}
    (h : ∀ m ∈ squashersOf serviceName td, CapturesWithin m) (x rest : Bytes) :
    OnText (applyPathSquasherIn reach serviceName td (x ++ 0 :: rest) x.length)
      (rewriteSquashers reach x (squashersOf serviceName td)) := by
  revert h
  unfold applyPathSquasherIn squashersOf
  cases td.urls.squashRegexes.lookup serviceName with
  | none => exact fun _ => .ok x rest false
  | some t => exact fun h => onText_applySquashersIn h x rest

theorem chopIn_eq {chopper : Option PcreMatcher} (h : ∀ m ∈ chopper, CapturesWithin m)
    (x rest : Bytes) :
    (∃ e, chopText reach chopper x = .error e ∧
      chopIn reach chopper (x ++ 0 :: rest) x.length = .error e) ∨
      ∃ y rest', chopText reach chopper x = .ok y ∧
        chopIn reach chopper (x ++ 0 :: rest) x.length = .ok (y ++ 0 :: rest', y.length) := by
  cases chopper with
  | none => exact .inr ⟨x, rest, rfl, rfl⟩
  | some m =>
    have hrun := onText_applyRegexIn reach (h m rfl) 1 x rest
    rw [chopText, chopIn]
    cases htext : rewriteText reach m 1 x with
    | error e =>
      rw [htext] at hrun
      exact .inl ⟨e, rfl, by rw [hrun.eq_error]; rfl⟩
    | ok r =>
      obtain ⟨y, matched⟩ := r
      rw [htext] at hrun
      obtain ⟨rest', hrun⟩ := hrun.eq_ok
      refine .inr ?_
      rw [hrun]
      show ∃ z rest'', (if matched = false ∧ y.length > 35 then _ else _) = _ ∧
        (if matched = false ∧ y.length > 35 then _ else _) = _
      split_ifs with hlong
      · refine ⟨y.take 32 ++ cstr "...", (y ++ 0 :: rest').drop 36, rfl, ?_⟩
        rw [List.take_append_of_le_length (by omega)]
        have hlen : (y.take 32 ++ cstr "...").length = 35 := by
          rw [List.length_append, List.length_take, Nat.min_eq_left (by omega)]
          rfl
        rw [hlen]
      · exact ⟨y, rest', rfl, rfl⟩

/-- The last byte of the string in a buffer, and the string without it. -/
theorem dropSlash_eq (p rest : Bytes) :
    (if p.length = 0 then Except.error Fault.outOfBounds
      else if (p ++ 0 :: rest)[p.length - 1]? = some 47 then
        .ok (strAt ((p ++ 0 :: rest).take (p.length - 1)))
      else .ok (strAt p)) =
    if p = [] then .error .outOfBounds
    else if p.getLast? = some 47 then .ok (strAt p.dropLast)
    else .ok (strAt p) := by
  by_cases hp : p = []
  · rw [if_pos hp, if_pos (by rw [hp]; rfl)]
  · have hlen : 0 < p.length := List.length_pos_iff.2 hp
    rw [if_neg hp, if_neg (by omega), List.getElem?_append_left (by omega),
      List.getLast?_eq_getElem?, List.take_append_of_le_length (by omega),
      List.dropLast_eq_take]

theorem dropQuery_eq (x rest : Bytes) : dropQuery (x ++ 0 :: rest) x.length = trimmed x := by
  unfold dropQuery trimmed beforeQuery
  by_cases hq : (63 : UInt8) ∈ strAt x
  · simp only [strAt_append_zero, if_pos hq]
    exact dropSlash_eq _ _
  · simp only [strAt_append_zero, if_neg hq]
    exact dropSlash_eq x rest

theorem length_copied (decoded : Bytes) : (copied decoded).length = decoded.length := by
  have : (strAt decoded).length ≤ decoded.length := (List.takeWhile_prefix _).length_le
  simp only [copied, List.length_append, List.length_replicate]
  omega

/-- The buffer after `strncpy` and `copy[len] = 0`. -/
theorem copy_decoded (decoded : Bytes) :
    strAt decoded ++ List.replicate (decoded.length + 1 - (strAt decoded).length) 0 =
      copied decoded ++ [0] := by
  have : (strAt decoded).length ≤ decoded.length := (List.takeWhile_prefix _).length_le
  rw [copied, List.append_assoc, ← List.replicate_succ',
    show decoded.length - (strAt decoded).length + 1 =
      decoded.length + 1 - (strAt decoded).length by omega]

/-- The groups that the matchers of `genericize_path` report lie inside their subjects. -/
structure MatchersWithin (chopper : Option PcreMatcher) (serviceName : Bytes) (td : TeamData) :
    Prop where
  matcher : ∀ m ∈ td.matcher, CapturesWithin m
  squashers : ∀ m ∈ squashersOf serviceName td, CapturesWithin m
  chopper : ∀ m ∈ chopper, CapturesWithin m

/-- `genericize_path`: the rewrites, and then the end of the path. -/
theorem genericizePathIn_eq {curlEasyUnescape : Bytes → Option Bytes}
    {chopper : Option PcreMatcher} {serviceName str decoded : Bytes} {td : TeamData}
    (h : MatchersWithin chopper serviceName td) (hdecoded : curlEasyUnescape str = some decoded)
    (hlen : decoded.length < pathSize) :
    genericizePathIn reach curlEasyUnescape chopper serviceName (some str) td =
      untrimmed reach chopper serviceName td (copied decoded) >>= fun r =>
        (trimmed r.1).map fun path => (path, if r.2 ∨ str = [] then none else some str) := by
  unfold genericizePathIn untrimmed
  simp only [hdecoded, Option.getD_some, if_neg (not_le.2 hlen), copy_decoded]
  rw [← length_copied]
  rcases (onText_applyMatchersIn h.matcher (copied decoded) []).error_or_ok with
    ⟨e, htext, hcode⟩ | ⟨x, rest, matched, htext, hcode⟩
  · rw [htext, hcode]
    rfl
  rw [htext, hcode]
  cases matched with
  | true =>
    show dropQuery (x ++ 0 :: rest) x.length >>= _ = (trimmed x).map _
    rw [dropQuery_eq]
    cases trimmed x <;> rfl
  | false =>
    show applyPathSquasherIn reach serviceName td (x ++ 0 :: rest) x.length >>= _ =
      (rewriteSquashers reach x (squashersOf serviceName td) >>= _) >>= _
    rcases (onText_applyPathSquasherIn h.squashers x rest).error_or_ok with
      ⟨e, htext, hcode⟩ | ⟨x, rest, squashed, htext, hcode⟩
    · rw [htext, hcode]
      rfl
    rw [htext, hcode]
    cases squashed with
    | true =>
      show dropQuery (x ++ 0 :: rest) x.length >>= _ = (trimmed x).map _
      rw [dropQuery_eq]
      cases trimmed x <;> rfl
    | false =>
      show chopIn reach chopper (x ++ 0 :: rest) x.length >>= _ =
        (chopText reach chopper x >>= _) >>= _
      rcases chopIn_eq h.chopper x rest with ⟨e, htext, hcode⟩ | ⟨y, rest', htext, hcode⟩
      · rw [htext, hcode]
        rfl
      rw [htext, hcode]
      show dropQuery (y ++ 0 :: rest') y.length >>= _ = (trimmed y).map _
      rw [dropQuery_eq]
      cases trimmed y with
      | error e => rfl
      | ok path =>
        show Except.ok (path, _) = Except.ok (path, _)
        simp

end Follows

/-! ### Ends of paths -/

/-- The path neither contains a `?` nor ends in a slash. -/
def Clean (path : Bytes) : Prop := (63 : UInt8) ∉ path ∧ path.getLast? ≠ some 47

instance (path : Bytes) : Decidable (Clean path) := inferInstanceAs (Decidable (_ ∧ _))

/-- What stands before a query, or before a zero byte. -/
def pathPart (x : Bytes) : Bytes := x.takeWhile fun c => c ≠ 63 ∧ c ≠ 0

/-- Before its query the path is not empty, and does not end in two slashes; before a zero byte
it does not end in one. -/
def EndsClean (x : Bytes) : Prop :=
  if x[(pathPart x).length]? = some 0 then (pathPart x).getLast? ≠ some 47
  else pathPart x ≠ [] ∧ ¬ cstr "//" <:+ pathPart x

instance (x : Bytes) : Decidable (EndsClean x) := by
  unfold EndsClean
  infer_instance

theorem twoSlashes_suffix_iff {q : Bytes} : cstr "//" <:+ q ++ [47] ↔ q.getLast? = some 47 := by
  constructor
  · rintro ⟨t, ht⟩
    have hq : t ++ [47] = q := by
      have hright : t ++ [47] ++ [47] = q ++ [47] := by
        rw [← ht, List.append_assoc]
        rfl
      exact List.append_cancel_right hright
    rw [← hq, List.getLast?_concat]
  · intro h
    obtain ⟨t, rfl⟩ := List.getLast?_eq_some_iff.1 h
    exact ⟨t, by rw [List.append_assoc]; rfl⟩

theorem not_twoSlashes_suffix {p : Bytes} (h : p.getLast? ≠ some 47) : ¬ cstr "//" <:+ p := by
  rintro ⟨t, rfl⟩
  exact h (by rw [show cstr "//" = [47] ++ [47] by rfl, ← List.append_assoc, List.getLast?_concat])

/-- A string ends, or goes on with a query or a zero byte. -/
theorem pathPart_cases (x : Bytes) :
    (63 : UInt8) ∉ pathPart x ∧ (0 : UInt8) ∉ pathPart x ∧
      (x = pathPart x ∨ (∃ t, x = pathPart x ++ 63 :: t) ∨ ∃ t, x = pathPart x ++ 0 :: t) := by
  induction x with
  | nil => exact ⟨List.not_mem_nil, List.not_mem_nil, .inl rfl⟩
  | cons c x ih =>
    obtain ⟨hquery, hzero, hx⟩ := ih
    by_cases h63 : c = 63
    · subst h63
      exact ⟨List.not_mem_nil, List.not_mem_nil, .inr (.inl ⟨x, rfl⟩)⟩
    by_cases h0 : c = 0
    · subst h0
      exact ⟨List.not_mem_nil, List.not_mem_nil, .inr (.inr ⟨x, rfl⟩)⟩
    have hpart : pathPart (c :: x) = c :: pathPart x := List.takeWhile_cons_of_pos (by simp [h63, h0])
    rw [hpart]
    refine ⟨by simp [hquery, Ne.symm h63], by simp [hzero, Ne.symm h0], ?_⟩
    exact hx.imp (congrArg (c :: ·)) (.imp (fun ⟨t, ht⟩ => ⟨t, congrArg (c :: ·) ht⟩)
      fun ⟨t, ht⟩ => ⟨t, congrArg (c :: ·) ht⟩)

theorem strAt_append_of_mem {q : Bytes} (h : (0 : UInt8) ∈ q) (r : Bytes) :
    strAt (q ++ r) = strAt q := by
  obtain ⟨u, v, rfl⟩ := List.append_of_mem h
  rw [List.append_assoc, List.cons_append, strAt_append_zero, strAt_append_zero]

/-- A path without a query and without zero bytes loses one slash at its end. -/
theorem trimSlash_clean_iff {p : Bytes} (hquery : (63 : UInt8) ∉ p) (hzero : (0 : UInt8) ∉ p) :
    Outcome.Safe Clean (if p = [] then .error .outOfBounds
      else if p.getLast? = some 47 then .ok (strAt p.dropLast) else .ok (strAt p)) ↔
      p ≠ [] ∧ ¬ cstr "//" <:+ p := by
  by_cases hp : p = []
  · simp [hp]
  rw [if_neg hp, and_iff_right hp]
  by_cases hslash : p.getLast? = some 47
  · obtain ⟨q, rfl⟩ := List.getLast?_eq_some_iff.1 hslash
    have hq : (63 : UInt8) ∉ q := fun h => hquery (List.mem_append_left _ h)
    have hq0 : (0 : UInt8) ∉ q := fun h => hzero (List.mem_append_left _ h)
    rw [if_pos hslash, List.dropLast_concat, Outcome.safe_ok, Clean, twoSlashes_suffix_iff,
      strAt_of_notMem hq0]
    simp [hq]
  · rw [if_neg hslash, Outcome.safe_ok, strAt_of_notMem hzero]
    exact iff_of_true ⟨hquery, hslash⟩ (not_twoSlashes_suffix hslash)

/-- The end of `genericize_path` leaves a clean path exactly if the path ends clean. -/
theorem trimmed_clean_iff (x : Bytes) : (trimmed x).Safe Clean ↔ EndsClean x := by
  obtain ⟨hquery, hzero, hx⟩ := pathPart_cases x
  unfold EndsClean
  generalize pathPart x = p at hquery hzero hx
  rcases hx with rfl | ⟨t, rfl⟩ | ⟨t, rfl⟩
  · -- neither a query nor a zero byte
    have hpart : beforeQuery x = x := by
      rw [beforeQuery, if_neg (by rwa [strAt_of_notMem hzero])]
    rw [List.getElem?_eq_none le_rfl, if_neg (by exact nofun), trimmed, hpart]
    exact trimSlash_clean_iff hquery hzero
  · have hstr : strAt (p ++ 63 :: t) = p ++ 63 :: strAt t := by
      unfold strAt
      rw [List.takeWhile_append_of_pos fun c hc => by simpa using fun h : c = 0 => hzero (h ▸ hc)]
      rfl
    have hpart : beforeQuery (p ++ 63 :: t) = p := by
      rw [beforeQuery, hstr, if_pos (by simp)]
      exact takeWhile_run hquery (by simp)
    rw [List.getElem?_append_right le_rfl, Nat.sub_self, if_neg (by simp), trimmed, hpart]
    exact trimSlash_clean_iff hquery hzero
  · -- the slash that is looked for is behind the zero byte
    have hstr : strAt (p ++ 0 :: t) = p := by rw [strAt_append_zero, strAt_of_notMem hzero]
    have hpart : beforeQuery (p ++ 0 :: t) = p ++ 0 :: t := by
      rw [beforeQuery, if_neg (by rwa [hstr])]
    have hclean : Clean p ↔ p.getLast? ≠ some 47 := and_iff_right hquery
    rw [List.getElem?_append_right le_rfl, Nat.sub_self, if_pos (by simp), trimmed, hpart,
      ← hclean]
    rw [if_neg (by simp)]
    split_ifs with hslash
    · obtain ⟨q, hq⟩ := List.getLast?_eq_some_iff.1 hslash
      have hmem : (0 : UInt8) ∈ q := by
        have h0 : (0 : UInt8) ∈ q ++ [47] := hq ▸ List.mem_append_right _ List.mem_cons_self
        simpa using h0
      rw [hq, List.dropLast_concat, Outcome.safe_ok, ← strAt_append_of_mem hmem [47], ← hq, hstr]
    · rw [Outcome.safe_ok, hstr]

/-! ### Clean paths -/

/-- The matcher matches the path. -/
def hits (x : Bytes) (m : PcreMatcher) : Bool := (m.exec x).isSome

/-- The matchers that rewrite a path: the configured ones, three times each, if one of them
matches it; or else the first squasher that does, or else the chopper. -/
def rewritesOf (chopper : Option PcreMatcher) (serviceName : Bytes) (td : TeamData) (x : Bytes) :
    List PcreMatcher :=
  if td.matcher.any (hits x) then td.matcher.flatMap (List.replicate 3)
  else (((squashersOf serviceName td).find? (hits x)).or (chopper.filter (hits x))).toList

/-- Without a rewrite a long path is cut short, if there is a chopper. -/
def cutShort (chopper : Option PcreMatcher) (x : Bytes) : Bytes :=
  if chopper.isSome ∧ 35 < x.length then x.take 32 ++ cstr "..." else x

/-- The matchers replace their groups in turn, and what is left satisfies `P`.  Every group that is
replaced takes part in its match, and starts at one of the first two bytes; with an assertion that
does not hold the process ends. -/
def Replacing (P : Bytes → Prop) : List PcreMatcher → Bytes → Prop
  | [], x => P x
  | m :: ms, x =>
    match m.exec x with
    | none => Replacing P ms x
    | some none => False
    | some (some (a, b)) => AssertionsHold m.replace x.length a b →
        a ≤ 1 ∧ Replacing P ms (strAt (x.take a ++ m.replace ++ x.drop b))

/-- A path that nothing rewrites ends clean where it is cut; of one that is rewritten, only groups
at its start are replaced, and it ends clean after that. -/
def StaysClean (chopper : Option PcreMatcher) (serviceName : Bytes) (td : TeamData) (x : Bytes) :
    Prop :=
  if rewritesOf chopper serviceName td x = [] then EndsClean (cutShort chopper x)
  else Replacing EndsClean (rewritesOf chopper serviceName td x) x

section Clean

variable {P : Bytes → Prop} {m : PcreMatcher} {ms : List PcreMatcher} {x : Bytes}

theorem replacing_none (h : m.exec x = none) : Replacing P (m :: ms) x ↔ Replacing P ms x := by
  rw [Replacing, h]

theorem not_replacing_unset (h : m.exec x = some none) : ¬ Replacing P (m :: ms) x := by
  rw [Replacing, h]
  exact id

theorem replacing_some {a b : ℕ} (h : m.exec x = some (some (a, b))) :
    Replacing P (m :: ms) x ↔ (AssertionsHold m.replace x.length a b →
      a ≤ 1 ∧ Replacing P ms (strAt (x.take a ++ m.replace ++ x.drop b))) := by
  rw [Replacing, h]

instance decidableReplacing (P : Bytes → Prop) [DecidablePred P] :
    ∀ ms x, Decidable (Replacing P ms x)
  | [], x => inferInstanceAs (Decidable (P x))
  | m :: ms, x =>
    match h : m.exec x with
    | none =>
      have := decidableReplacing P ms x
      decidable_of_iff _ (replacing_none h).symm
    | some none => isFalse (not_replacing_unset h)
    | some (some (a, b)) =>
      have := decidableReplacing P ms (strAt (x.take a ++ m.replace ++ x.drop b))
      decidable_of_iff (AssertionsHold m.replace x.length a b → a ≤ 1 ∧ _) (replacing_some h).symm

instance (chopper : Option PcreMatcher) (serviceName : Bytes) (td : TeamData) (x : Bytes) :
    Decidable (StaysClean chopper serviceName td x) := by
  unfold StaysClean
  infer_instance

theorem replacing_append {ns : List PcreMatcher} :
    Replacing P (ms ++ ns) x ↔ Replacing (Replacing P ns) ms x := by
  induction ms generalizing x with
  | nil => rfl
  | cons m ms ih =>
    rw [List.cons_append]
    rcases hx : m.exec x with _ | _ | ⟨a, b⟩
    · rw [replacing_none hx, replacing_none hx, ih]
    · exact iff_of_false (not_replacing_unset hx) (not_replacing_unset hx)
    · rw [replacing_some hx, replacing_some hx, ih]

theorem replacing_replicate_none (h : m.exec x = none) (n : ℕ) :
    Replacing P (List.replicate n m) x ↔ P x := by
  induction n with
  | zero => rfl
  | succ n ih => rw [List.replicate_succ, replacing_none h, ih]

/-- A round that reads no further than the current length. -/
theorem safe_spliced_iff (replace : Bytes) (a b : ℕ) :
    (spliced .length replace x a b).Safe P ↔ (AssertionsHold replace x.length a b →
      a ≤ 1 ∧ P (strAt (x.take a ++ replace ++ x.drop b))) := by
  rw [assertionsHold_iff, spliced]
  split_ifs with hfit hfar
  · have hnot : ¬ a ≤ 1 := not_le.2 hfar.2
    simp [hfit, hnot]
  · have hnear : a ≤ 1 := not_lt.1 fun h => hfar ⟨rfl, h⟩
    simp [hfit, hnear]
  · simp [hfit]

theorem safe_rewriteText_iff (n : ℕ) :
    (rewriteText .length m (n + 1) x).Safe (fun r => P r.1) ↔
      Replacing P (List.replicate (n + 1) m) x := by
  induction n generalizing x with
  | zero =>
    rcases hx : m.exec x with _ | _ | ⟨a, b⟩
    · rw [rewriteText_none 1 hx, replacing_replicate_none hx, Outcome.safe_ok]
    · rw [rewriteText_unset 1 hx]
      exact iff_of_false id (not_replacing_unset hx)
    · rw [rewriteText_some hx, Outcome.safe_map_iff, safe_spliced_iff, List.replicate_succ,
        replacing_some hx]
      rfl
  | succ n ih =>
    rcases hx : m.exec x with _ | _ | ⟨a, b⟩
    · rw [rewriteText_none _ hx, replacing_replicate_none hx, Outcome.safe_ok]
    · rw [rewriteText_unset _ hx]
      exact iff_of_false id (not_replacing_unset hx)
    · rw [rewriteText_again hx, Outcome.safe_bind_iff, safe_spliced_iff, List.replicate_succ,
        replacing_some hx, Outcome.safe_map_iff, ih]

theorem safe_rewriteMatchers_iff :
    (rewriteMatchers .length x ms).Safe (fun r => P r.1) ↔
      Replacing P (ms.flatMap (List.replicate 3)) x := by
  induction ms generalizing P x with
  | nil => rfl
  | cons m ms ih =>
    have hrest : ∀ y, (rewriteMatchers .length y ms).Safe (fun r => P r.1) ↔
        Replacing P (ms.flatMap (List.replicate 3)) y := fun y => ih
    rw [rewriteMatchers, List.flatMap_cons, replacing_append, Outcome.safe_bind_iff,
      ← safe_rewriteText_iff]
    simp only [Outcome.safe_bind_iff, Outcome.safe_ok, hrest]

/-! Which of the loops has matched. -/

variable {reach : Reach}

theorem hits_eq_true : hits x m = true ↔ ∃ group, m.exec x = some group :=
  Option.isSome_iff_exists

theorem hits_eq_false : hits x m = false ↔ m.exec x = none := by
  rw [hits, Option.isSome_eq_false_iff, Option.isNone_iff_eq_none]

theorem yields_rewriteText (n : ℕ) (h : hits x m = true) :
    (rewriteText reach m n x).Yields fun r => r.2 = true := by
  rw [rewriteText.eq_def]
  obtain ⟨group, hgroup⟩ := hits_eq_true.1 h
  rw [hgroup]
  cases group with
  | none => exact Outcome.yields_error
  | some ab =>
    refine Outcome.yields_bind fun y _ => ?_
    rcases n with _ | _ | n
    · exact Outcome.yields_ok.2 rfl
    · exact Outcome.yields_ok.2 rfl
    · exact Outcome.yields_bind fun r _ => Outcome.yields_ok.2 rfl

theorem rewriteMatchers_none (h : ms.any (hits x) = false) :
    rewriteMatchers reach x ms = .ok (x, false) := by
  induction ms with
  | nil => rfl
  | cons m ms ih =>
    rw [List.any_cons, Bool.or_eq_false_iff] at h
    rw [rewriteMatchers, rewriteText_none 3 (hits_eq_false.1 h.1)]
    show rewriteMatchers reach x ms >>= _ = _
    rw [ih h.2]
    rfl

theorem yields_rewriteMatchers (h : ms.any (hits x) = true) :
    (rewriteMatchers reach x ms).Yields fun r => r.2 = true := by
  induction ms with
  | nil => cases h
  | cons m ms ih =>
    rw [rewriteMatchers]
    cases hm : hits x m with
    | true =>
      refine Outcome.yields_bind ?_
      rintro ⟨y, matched⟩ hr
      obtain rfl : matched = true := yields_rewriteText 3 hm _ hr
      exact Outcome.yields_bind fun r _ => Outcome.yields_ok.2 (Bool.true_or r.2)
    | false =>
      rw [List.any_cons, hm, Bool.false_or] at h
      rw [rewriteText_none 3 (hits_eq_false.1 hm)]
      show Outcome.Yields _ (rewriteMatchers reach x ms >>= _)
      refine Outcome.yields_bind ?_
      rintro ⟨y, others⟩ hr
      obtain rfl : others = true := ih h _ hr
      exact Outcome.yields_ok.2 rfl

/-- The loop over the table stops at the first one that matches. -/
theorem rewriteSquashers_eq :
    rewriteSquashers reach x ms =
      (ms.find? (hits x)).elim (.ok (x, false)) fun m => rewriteText reach m 1 x := by
  induction ms with
  | nil => rfl
  | cons m ms ih =>
    rw [rewriteSquashers]
    cases hm : hits x m with
    | true =>
      rw [List.find?_cons_of_pos hm, Option.elim_some]
      have hflag : (rewriteText reach m 1 x).Yields _ := yields_rewriteText 1 hm
      cases hrun : rewriteText reach m 1 x with
      | error e => rfl
      | ok r =>
        obtain ⟨y, matched⟩ := r
        obtain rfl : matched = true := hflag _ hrun
        rfl
    | false =>
      rw [List.find?_cons_of_neg (by simp [hm]), rewriteText_none 1 (hits_eq_false.1 hm), ← ih]
      rfl

theorem chopText_eq (chopper : Option PcreMatcher) :
    chopText reach chopper x =
      (chopper.filter (hits x)).elim (.ok (cutShort chopper x))
        fun m => (rewriteText reach m 1 x).map Prod.fst := by
  cases chopper with
  | none => rfl
  | some m =>
    rw [chopText]
    cases hm : hits x m with
    | true =>
      rw [Option.filter_some_pos hm, Option.elim_some]
      have hflag : (rewriteText reach m 1 x).Yields _ := yields_rewriteText 1 hm
      cases hrun : rewriteText reach m 1 x with
      | error e => rfl
      | ok r =>
        obtain ⟨y, matched⟩ := r
        obtain rfl : matched = true := hflag _ hrun
        rfl
    | false =>
      rw [Option.filter_some_neg (by simp [hm]), rewriteText_none 1 (hits_eq_false.1 hm), cutShort]
      show (if false = false ∧ x.length > 35 then (.ok _ : Outcome Bytes) else _) = _
      simp only [true_and, Option.isSome_some]
      split_ifs <;> rfl

/-- The rewrites read no further than the current length, and leave a path that satisfies `P`. -/
theorem safe_untrimmed_iff {chopper : Option PcreMatcher} {serviceName : Bytes} {td : TeamData} :
    (untrimmed .length chopper serviceName td x).Safe (fun r => P r.1) ↔
      if rewritesOf chopper serviceName td x = [] then P (cutShort chopper x)
      else Replacing P (rewritesOf chopper serviceName td x) x := by
  unfold untrimmed rewritesOf
  cases hany : td.matcher.any (hits x) with
  | true =>
    have hne : td.matcher.flatMap (List.replicate 3) ≠ [] := by
      obtain ⟨m, hm, -⟩ := List.any_eq_true.1 hany
      exact List.ne_nil_of_mem (List.mem_flatMap.2 ⟨m, hm, List.mem_replicate.2 ⟨by decide, rfl⟩⟩)
    rw [if_pos rfl, if_neg hne, ← safe_rewriteMatchers_iff]
    have hflag : (rewriteMatchers .length x td.matcher).Yields _ := yields_rewriteMatchers hany
    cases hrun : rewriteMatchers .length x td.matcher with
    | error e => cases e <;> rfl
    | ok r =>
      obtain ⟨y, matched⟩ := r
      obtain rfl : matched = true := hflag _ hrun
      rfl
  | false =>
    rw [rewriteMatchers_none hany]
    show Outcome.Safe _ (rewriteSquashers .length x (squashersOf serviceName td) >>= _) ↔ _
    rw [rewriteSquashers_eq]
    cases hfind : (squashersOf serviceName td).find? (hits x) with
    | some m =>
      have hm : hits x m = true := List.find?_some hfind
      have hflag : (rewriteText .length m 1 x).Yields _ := yields_rewriteText 1 hm
      have hone := safe_rewriteText_iff (P := P) (m := m) (x := x) 0
      show Outcome.Safe _ (rewriteText .length m 1 x >>= _) ↔ Replacing P [m] x
      rw [show [m] = List.replicate (0 + 1) m from rfl, ← hone]
      cases hrun : rewriteText .length m 1 x with
      | error e => cases e <;> rfl
      | ok r =>
        obtain ⟨y, matched⟩ := r
        obtain rfl : matched = true := hflag _ hrun
        rfl
    | none =>
      show Outcome.Safe _ (chopText .length chopper x >>= _) ↔
        if (chopper.filter (hits x)).toList = [] then _ else Replacing P _ x
      rw [chopText_eq]
      cases chopper.filter (hits x) with
      | none => rfl
      | some m =>
        have hone := safe_rewriteText_iff (P := P) (m := m) (x := x) 0
        show Outcome.Safe _ ((rewriteText .length m 1 x).map Prod.fst >>= _) ↔ Replacing P [m] x
        rw [show [m] = List.replicate (0 + 1) m from rfl, ← hone, Outcome.safe_bind_iff,
          Outcome.safe_map_iff]
        rfl

end Clean

/-- The chopper as the engine reads its pattern. -/
def referenceChopper : PcreMatcher :=
  ⟨fun s => (searchAnchored threeSegments fromSlash s).map some, cstr "/{...}"⟩

theorem anchoredAt_referenceChopper {s : Bytes} {group : Option (ℕ × ℕ)}
    (h : referenceChopper.exec s = some group) :
    ∃ a b, group = some (a, b) ∧ AnchoredAt threeSegments fromSlash s a b := by
  obtain ⟨⟨a, b⟩, hsearch, rfl⟩ := Option.map_eq_some_iff.1 h
  exact ⟨a, b, rfl, searchAnchored_sound hsearch⟩

theorem withinSubject_referenceChopper : WithinSubject referenceChopper := by
  intro s group h
  obtain ⟨a, b, rfl, hat⟩ := anchoredAt_referenceChopper h
  exact ⟨a, b, rfl, hat.le⟩

/-- A team with the rewrite of `(\/7)` to `/n`. -/
def rewritingTeam : TeamData :=
  { TeamData.new with matcher := [⟨capturing [.escaped 47, .byte 55], cstr "/n"⟩] }

theorem matchersWithin_rewritingTeam (serviceName : Bytes) :
    MatchersWithin (some referenceChopper) serviceName rewritingTeam where
  matcher := by
    intro m hm
    rw [List.mem_singleton.1 hm]
    intro s a b h
    obtain ⟨_, _, hsearch, heq⟩ := capturing_eq_some.1 h
    obtain ⟨rfl, rfl⟩ := Prod.mk.inj (Option.some.inj heq)
    obtain ⟨hab, hb, -⟩ := search_spec hsearch
    exact ⟨hab, hb⟩
  squashers := by
    have : squashersOf serviceName rewritingTeam = [] := rfl
    simp [this]
  chopper := by
    rintro m ⟨⟩
    exact withinSubject_referenceChopper.capturesWithin

/-- The chopper replaces a group behind three segments; five bytes behind the terminator are
copied along. -/
example : genericizePathIn .length some (some referenceChopper) (cstr "a-b")
    (some (cstr "/a/b/c/d")) .new = .error .outOfBounds := by decide

/-! ### Paths that nothing matches -/

section Unmatched

variable {x path : Bytes} {ms : List PcreMatcher}

variable {reach : Reach}

theorem applyMatchersIn_none (h : ∀ m ∈ ms, m.exec x = none) (rest : Bytes) :
    applyMatchersIn reach (x ++ rest) x.length ms = .ok (x ++ rest, x.length, false) := by
  induction ms with
  | nil => rfl
  | cons m ms ih =>
    obtain ⟨hm, hms⟩ := List.forall_mem_cons.1 h
    rw [applyMatchersIn, applyRegexIn, List.take_left, hm]
    show applyMatchersIn reach (x ++ rest) x.length ms >>= _ = _
    rw [ih hms]
    rfl

theorem applySquashersIn_none (h : ∀ m ∈ ms, m.exec x = none) (rest : Bytes) :
    applySquashersIn reach (x ++ rest) x.length ms = .ok (x ++ rest, x.length, false) := by
  induction ms with
  | nil => rfl
  | cons m ms ih =>
    obtain ⟨hm, hms⟩ := List.forall_mem_cons.1 h
    rw [applySquashersIn, applyRegexIn, List.take_left, hm]
    exact ih hms

theorem applyPathSquasherIn_none {serviceName : Bytes} {td : TeamData}
    (h : ∀ m ∈ squashersOf serviceName td, m.exec x = none) (rest : Bytes) :
    applyPathSquasherIn reach serviceName td (x ++ rest) x.length =
      .ok (x ++ rest, x.length, false) := by
  revert h
  unfold applyPathSquasherIn squashersOf
  cases td.urls.squashRegexes.lookup serviceName with
  | none => exact fun _ => rfl
  | some t => exact fun h => applySquashersIn_none h rest

/-- The end only cuts off. -/
theorem trimmed_prefix (h : trimmed x = .ok path) : path <+: x := by
  have hstr : ∀ s : Bytes, strAt s <+: s := fun s => List.takeWhile_prefix _
  have hbefore : beforeQuery x <+: x := by
    unfold beforeQuery
    split_ifs
    · exact (List.takeWhile_prefix _).trans (hstr x)
    · exact List.prefix_rfl
  unfold trimmed at h
  dsimp only at h
  split_ifs at h
  · obtain rfl := Except.ok.inj h
    exact ((hstr _).trans (List.dropLast_prefix _)).trans hbefore
  · obtain rfl := Except.ok.inj h
    exact (hstr _).trans hbefore

theorem count_threeSegments {p : Bytes} (h : Matches threeSegments p) : p.count 47 = 3 := by
  obtain ⟨_, _, rfl, rfl, _, _, rfl, ⟨-, h₁⟩, _, _, rfl, rfl, _, _, rfl, ⟨-, h₂⟩, _, _, rfl, rfl,
    _, _, rfl, ⟨-, h₃⟩, rfl⟩ := h
  simp [List.count_eq_zero_of_not_mem h₁, List.count_eq_zero_of_not_mem h₂,
    List.count_eq_zero_of_not_mem h₃]

/-- What the chopper leaves: three segments and its replacement, or a string that is short. -/
theorem chopText_short {pcre : Engine} (hpcre : ReadsAnchored pcre threeSegments fromSlash)
    {chopper : PcreMatcher} (hchopper : initPathRegex pcre = some chopper) {y : Bytes}
    (h : chopText .buffer (some chopper) x = .ok y) : y.count 47 ≤ 4 ∨ y.length ≤ 35 := by
  obtain ⟨exec, hexec, rfl⟩ := Option.map_eq_some_iff.1 hchopper
  rw [chopperText_eq] at hexec
  obtain ⟨⟨z, matched⟩, hz, h⟩ := Outcome.bind_eq_ok.1 h
  cases hx : exec x with
  | none =>
    rw [rewriteText_none 1 hx] at hz
    obtain ⟨rfl, rfl⟩ := Prod.mk.inj (Except.ok.inj hz)
    right
    dsimp only at h
    split_ifs at h with hlong
    · obtain rfl := Except.ok.inj h
      have hdots : (cstr "...").length = 3 := rfl
      rw [List.length_append, List.length_take, hdots]
      omega
    · obtain rfl := Except.ok.inj h
      exact not_lt.1 fun hlt => hlong ⟨rfl, hlt⟩
  | some group =>
    obtain ⟨_, _, rfl, p, g, e, rfl, hp, -, he, rfl, rfl⟩ := hpcre exec hexec x group hx
    left
    rw [rewriteText_some hx, spliced_buffer] at hz
    split_ifs at hz
    · obtain ⟨rfl, rfl⟩ := Prod.mk.inj (Except.ok.inj hz)
      dsimp only at h
      rw [if_neg (by simp)] at h
      obtain rfl := Except.ok.inj h
      refine ((List.takeWhile_prefix _).sublist.count_le 47).trans ?_
      have htake : (p ++ g ++ e).take p.length = p := by
        rw [List.append_assoc, List.take_left]
      have hdrop : (p ++ g ++ e).drop (p.length + g.length) = e := by
        rw [← List.length_append, List.drop_left]
      rw [htake, hdrop, List.count_append, List.count_append, count_threeSegments hp]
      rcases he with rfl | rfl <;> decide
    · cases hz

end Unmatched

/-- **Bounded paths.**  A path that no rewrite and no squasher has matched has at most four slashes,
or at most 35 bytes. -/
theorem count_slashes_le {pcre : Engine} (hpcre : ReadsAnchored pcre threeSegments fromSlash)
    {chopper : PcreMatcher} (hchopper : initPathRegex pcre = some chopper)
    {curlEasyUnescape : Bytes → Option Bytes} {serviceName str decoded : Bytes} {td : TeamData}
    (hdecoded : curlEasyUnescape str = some decoded) (hlen : decoded.length < pathSize)
    (hmatcher : ∀ m ∈ td.matcher, m.exec (copied decoded) = none)
    (hsquashers : ∀ m ∈ squashersOf serviceName td, m.exec (copied decoded) = none)
    {path : Bytes} {sent : Option Bytes}
    (h : genericizePath curlEasyUnescape (some chopper) serviceName (some str) td =
      .ok (path, sent)) : path.count 47 ≤ 4 ∨ path.length ≤ 35 := by
  have hwithin : ∀ m ∈ some chopper, CapturesWithin m := by
    rintro m ⟨⟩ s a b hs
    obtain ⟨exec, hexec, rfl⟩ := Option.map_eq_some_iff.1 hchopper
    obtain ⟨_, _, heq, hat⟩ := hpcre exec (chopperText_eq ▸ hexec) s _ hs
    obtain ⟨rfl, rfl⟩ := Prod.mk.inj (Option.some.inj heq)
    exact hat.le
  unfold genericizePath genericizePathIn at h
  simp only [hdecoded, Option.getD_some, if_neg (not_le.2 hlen), copy_decoded] at h
  rw [← length_copied, applyMatchersIn_none hmatcher] at h
  replace h : (applyPathSquasherIn .buffer serviceName td (copied decoded ++ [0]) (copied decoded).length >>=
    _) = _ := h
  rw [applyPathSquasherIn_none hsquashers] at h
  replace h : (chopIn .buffer (some chopper) (copied decoded ++ 0 :: []) (copied decoded).length >>=
    _) = _ := h
  rcases chopIn_eq hwithin (copied decoded) [] with ⟨e, -, hcode⟩ | ⟨y, rest, htext, hcode⟩
  · rw [hcode] at h
    cases h
  rw [hcode] at h
  replace h : (dropQuery (y ++ 0 :: rest) y.length >>= _) = _ := h
  rw [dropQuery_eq] at h
  obtain ⟨path', htrimmed, h⟩ := Outcome.bind_eq_ok.1 h
  obtain ⟨rfl, -⟩ := Prod.mk.inj (Except.ok.inj h)
  have hcut := trimmed_prefix htrimmed
  rcases chopText_short hpcre hchopper htext with hcount | hshort
  · exact .inl ((hcut.sublist.count_le 47).trans hcount)
  · exact .inr (hcut.length_le.trans hshort)

/-- The engine that knows the pattern of the chopper only. -/
def chopperEngine : Engine := fun text =>
  if text = chopperText then some referenceChopper.exec else none

theorem readsAnchored_chopperEngine : ReadsAnchored chopperEngine threeSegments fromSlash := by
  intro m hm s group h
  unfold chopperEngine at hm
  split_ifs at hm
  obtain rfl := Option.some.inj hm
  exact anchoredAt_referenceChopper h

/-- Five segments are cut off after three. -/
theorem fiveSegments_chopped :
    ∃ path sent, genericizePath some (some referenceChopper) (cstr "a-b")
        (some (cstr "/a/b/c/d/e?q=1")) .new = .ok (path, sent) ∧
      (path.count 47 ≤ 4 ∨ path.length ≤ 35) := by
  have hrun : genericizePath some (some referenceChopper) (cstr "a-b")
      (some (cstr "/a/b/c/d/e?q=1")) .new =
        .ok (cstr "/a/b/c/{...}", some (cstr "/a/b/c/d/e?q=1")) := by decide
  have hchopper : initPathRegex chopperEngine = some referenceChopper := rfl
  have hnone : squashersOf (cstr "a-b") .new = [] := rfl
  exact ⟨_, _, hrun, count_slashes_le readsAnchored_chopperEngine hchopper rfl (by decide)
    (by simp [TeamData.new]) (by simp [hnone]) hrun⟩

end Tracemate
