import Tracemate.Squasher.Occurrences
import Tracemate.Squasher.RegexTable
import Tracemate.Url.Replacement

/-!
# What the regular expressions make of a URL

`apply_path_squasher` tries the regular expressions of a service in the order of a hash table,
and `apply_regex` puts the names of the leaf in place of what the first one matches.

* `onString_applyRegex`, `onString_applySquashers`: what one and all regular expressions do;
* `Takes`, `PlacesAgree`: the bytes of a URL that the regular expression of a leaf takes, and when
  the names of two leaves say the same in their places;
* `orderFree_iff`: when the order of the table does not matter;
* `hitsFamily_iff`: when one regular expression rewrites only URLs that start with its names.
-/

namespace Tracemate.Squasher

open CStr COutcome Wildcard Pattern

/-! ### One rewrite -/

/-- The string in the buffer after a function has worked on that of `url`, and its result. -/
def onString (run : Bytes → ℕ → Outcome (Bytes × ℕ × Bool)) (url : Bytes) :
    Outcome (Bytes × Bool) := do
  let (copy, _, matched) ← run (url ++ [0]) url.length
  .ok (strAt copy, matched)

section

variable {m : PcreMatcher} {url : Bytes}

theorem applyRegex_none (h : m.exec url = none) :
    applyRegex m 1 (url ++ [0]) url.length = .ok (url ++ [0], url.length, false) := by
  rw [applyRegex, applyRegexIn, List.take_left, h]

/-- A match whose group takes no part. -/
theorem onString_applyRegex_unset (h : m.exec url = some none) :
    onString (applyRegex m 1) url = .error .outOfBounds := by
  unfold onString
  rw [applyRegex, applyRegexIn, List.take_left, h]
  rfl

/-- `apply_regex` on a string that matches. -/
theorem onString_applyRegex (hm : CapturesWithin m) {a b : ℕ}
    (h : m.exec url = some (some (a, b))) :
    onString (applyRegex m 1) url =
      (spliced .buffer m.replace url a b).map fun s => (s, true) := by
  have htext := onText_applyRegexIn .buffer hm 1 url []
  rw [rewriteText_some h] at htext
  unfold onString applyRegex
  rcases htext.error_or_ok with ⟨e, htext, hcode⟩ | ⟨x, rest, matched, htext, hcode⟩
  · rw [hcode, htext]
    rfl
  · have hx : strAt x = x := by
      rw [spliced_buffer] at htext
      split_ifs at htext
      · rw [← (Prod.mk.inj (Except.ok.inj htext)).1]
        exact strAt_strAt _
      · cases htext
    rw [hcode, htext]
    show Except.ok (strAt (x ++ 0 :: rest), matched) = _
    rw [strAt_append_zero, hx]

end

/-! ### The loop over the table -/

/-- After a match the result is positive. -/
theorem yields_applyRegex {m : PcreMatcher} {url : Bytes} (h : (m.exec url).isSome) :
    (applyRegex m 1 (url ++ [0]) url.length).Yields fun r => r.2.2 = true := by
  rw [applyRegex, applyRegexIn, List.take_left]
  obtain ⟨group, hgroup⟩ := Option.isSome_iff_exists.1 h
  rw [hgroup]
  cases group with
  | none => exact Outcome.yields_error
  | some ab => exact Outcome.yields_bind fun copy _ => Outcome.yields_ok.2 rfl

/-- The loop stops at the first regular expression that matches. -/
theorem onString_applySquashers (ms : List PcreMatcher) (url : Bytes) :
    onString (fun copy len => applySquashersIn .buffer copy len ms) url =
      match ms.find? fun m => (m.exec url).isSome with
      | none => .ok (strAt url, false)
      | some m => onString (applyRegex m 1) url := by
  induction ms with
  | nil =>
    show Except.ok (strAt (url ++ [0]), false) = _
    rw [strAt_append_zero]
    rfl
  | cons m ms ih =>
    cases hm : m.exec url with
    | none =>
      rw [List.find?_cons_of_neg (by simp [hm]), ← ih]
      unfold onString
      show applySquashersIn _ _ _ _ >>= _ = _
      rw [applySquashersIn, ← applyRegex, applyRegex_none hm]
      rfl
    | some group =>
      have hmatched := @yields_applyRegex m url (by rw [hm]; rfl)
      rw [List.find?_cons_of_pos (by simp [hm])]
      unfold onString
      show applySquashersIn _ _ _ _ >>= _ = applyRegex m 1 _ _ >>= _
      rw [applySquashersIn, ← applyRegex]
      cases hrun : applyRegex m 1 (url ++ [0]) url.length with
      | error e => rfl
      | ok r =>
        obtain ⟨copy, len, matched⟩ := r
        obtain rfl : matched = true := hmatched _ hrun
        rfl

/-! ### The order of the table -/

/-- The team has the entries of `t` for the service, in whatever order. -/
def HoldsTable (td : TeamData) (serviceName : Bytes) (t : RegexTable) : Prop :=
  ∃ t', td.urls.squashRegexes.lookup serviceName = some t' ∧ t'.entries.Perm t.entries

/-- `apply_path_squasher` makes the same of the URL in every order of the table. -/
def OrderFree (t : RegexTable) (url : Bytes) : Prop :=
  ∀ serviceName td td', HoldsTable td serviceName t → HoldsTable td' serviceName t →
    onString (applyPathSquasher serviceName td) url =
      onString (applyPathSquasher serviceName td') url

/-- The regular expression of the leaf matches the URL, with its group at these offsets.  Where a
name has a byte that means something to PCRE, it is PCRE that decides; the group may then take no
part in a match. -/
def Takes (pcre : Engine) (w : List Bytes) (url : Bytes) (group : Option (ℕ × ℕ)) : Prop :=
  if ∀ name ∈ w, RegularName name then
    ∃ pre hit post, FoundAs w url pre hit post ∧
      group = some (pre.length, pre.length + hit.length)
  else ∃ exec, pcre (regexText w) = some exec ∧ exec url = some group

/-- The bytes of `s` from `i` to `j`. -/
def between (s : Bytes) (i j : ℕ) : Bytes := (s.drop i).take (j - i)

/-- The names that are seen in place of the bytes of `s` from `a` on; behind the terminator they
are not seen. -/
def seen (w : List Bytes) (s : Bytes) (a : ℕ) : Bytes :=
  if a ≤ s.length then replaceText w else []

/-- The assertions of `apply_regex`, for a subject of `len` bytes and a group from `a` to `b`. -/
def Fits (w : List Bytes) (len a b : ℕ) : Prop :=
  AssertionsHold (replaceText w) len a b

instance (w : List Bytes) (len a b : ℕ) : Decidable (Fits w len a b) :=
  inferInstanceAs (Decidable (AssertionsHold (replaceText w) len a b))

/-- The names of two leaves say the same in their places: with the bytes that the other place
leaves standing, they read alike.  Or both end the process, or both leave the buffer. -/
def PlacesAgree (w w' : List Bytes) (s : Bytes) (len : ℕ) : Option (ℕ × ℕ) → Option (ℕ × ℕ) → Prop
  | none, none => True
  | some (a, b), some (a', b') =>
    (Fits w len a b ↔ Fits w' len a' b') ∧
      (Fits w len a b →
        between s a' a ++ seen w s a ++ between s b b' =
          between s a a' ++ seen w' s a' ++ between s b' b)
  | _, _ => False

/-- The leaf has the entry of its text in the table. -/
def HasEntry (root : Node) (t : RegexTable) (w : List Bytes) : Prop :=
  LeafBelowSquash root w ∧ (t.lookup (regexText w)).map PcreMatcher.replace = some (replaceText w)

/-- Any two leaves with entries whose regular expressions match the URL agree on it.  The URL is
the string `s`; its length counts zero bytes behind it. -/
def RewritesAgree (pcre : Engine) (root : Node) (t : RegexTable) (s : Bytes) (zeros : ℕ) : Prop :=
  ∀ w w', HasEntry root t w → HasEntry root t w' → ∀ group group',
    Takes pcre w (s ++ List.replicate zeros 0) group →
      Takes pcre w' (s ++ List.replicate zeros 0) group' →
        PlacesAgree w w' s (s.length + zeros) group group'

/-- The search for the first matching element gives the same in every order exactly if all
matching elements give the same. -/
theorem forall_perm_find?_iff {α β : Type*} (p : α → Bool) (f : Option α → β) (l : List α) :
    (∀ l₁ l₂ : List α, l₁.Perm l → l₂.Perm l → f (l₁.find? p) = f (l₂.find? p)) ↔
      ∀ x ∈ l, ∀ y ∈ l, p x = true → p y = true → f (some x) = f (some y) := by
  classical
  constructor
  · intro h x hx y hy hpx hpy
    have := h _ _ (List.perm_cons_erase hx).symm (List.perm_cons_erase hy).symm
    rwa [List.find?_cons_of_pos hpx, List.find?_cons_of_pos hpy] at this
  · intro h l₁ l₂ h₁ h₂
    cases hx : l₁.find? p with
    | none =>
      have hnone : l₂.find? p = none := by
        rw [List.find?_eq_none] at hx ⊢
        exact fun x hmem => hx x ((h₁.trans h₂.symm).mem_iff.2 hmem)
      rw [hnone]
    | some x =>
      have hmem := List.mem_of_find?_eq_some hx
      have hsome : (l₂.find? p).isSome := by
        rw [List.find?_isSome]
        exact ⟨x, (h₁.trans h₂.symm).mem_iff.1 hmem, List.find?_some hx⟩
      obtain ⟨y, hy⟩ := Option.isSome_iff_exists.1 hsome
      rw [hy]
      exact h x (h₁.mem_iff.1 hmem) y (h₂.mem_iff.1 (List.mem_of_find?_eq_some hy))
        (List.find?_some hx) (List.find?_some hy)

/-- What the loop makes of the URL, from the entry that it stops at. -/
def rewriteBy (url : Bytes) : Option (Σ _ : Bytes, PcreMatcher) → Outcome (Bytes × Bool)
  | none => .ok (strAt url, false)
  | some e => onString (applyRegex e.2 1) url

theorem onString_applyPathSquasher {serviceName : Bytes} {td : TeamData} {t : RegexTable}
    (h : td.urls.squashRegexes.lookup serviceName = some t) (url : Bytes) :
    onString (applyPathSquasher serviceName td) url =
      rewriteBy url (t.entries.find? fun e => (e.2.exec url).isSome) := by
  have hrun : onString (applyPathSquasher serviceName td) url =
      onString (fun copy len => applySquashersIn .buffer copy len (t.entries.map fun e => e.2))
        url := by
    unfold onString applyPathSquasher applyPathSquasherIn
    rw [h]
  rw [hrun, onString_applySquashers, List.find?_map]
  show (match ((t.entries.find? fun e => (e.2.exec url).isSome).map fun e => e.2) with
    | none => _ | some m => _) = _
  cases t.entries.find? fun e => (e.2.exec url).isSome <;> rfl

/-- The table in another order. -/
def inOrder (t : RegexTable) (es : List (Σ _ : Bytes, PcreMatcher)) (h : es.Perm t.entries) :
    RegexTable := ⟨es, (List.perm_nodupKeys h).2 t.nodupKeys⟩

theorem orderFree_iff_find? (t : RegexTable) (url : Bytes) :
    OrderFree t url ↔ ∀ l₁ l₂ : List (Σ _ : Bytes, PcreMatcher), l₁.Perm t.entries →
      l₂.Perm t.entries → rewriteBy url (l₁.find? fun e => (e.2.exec url).isSome) =
        rewriteBy url (l₂.find? fun e => (e.2.exec url).isSome) := by
  constructor
  · intro h l₁ l₂ h₁ h₂
    -- a team with the table in a given order
    let team := fun t' : RegexTable =>
      ({ TeamData.new with urls := ⟨∅, AList.insert (cstr "service") t' ∅⟩ } : TeamData)
    have hteam : ∀ t', (team t').urls.squashRegexes.lookup (cstr "service") = some t' :=
      fun t' => AList.lookup_insert _
    have := h (cstr "service") (team (inOrder t l₁ h₁)) (team (inOrder t l₂ h₂))
      ⟨_, hteam _, h₁⟩ ⟨_, hteam _, h₂⟩
    rwa [onString_applyPathSquasher (hteam _), onString_applyPathSquasher (hteam _)] at this
  · rintro h serviceName td td' ⟨t₁, ht₁, h₁⟩ ⟨t₂, ht₂, h₂⟩
    rw [onString_applyPathSquasher ht₁, onString_applyPathSquasher ht₂]
    exact h _ _ h₁ h₂

/-! ### Texts and places -/

section

variable {s : Bytes} {w w' : List Bytes}

theorem take_eq_between (s : Bytes) (i j : ℕ) : s.take j = s.take (min i j) ++ between s i j := by
  unfold between
  rcases le_total i j with h | h
  · rw [Nat.min_eq_left h, ← List.take_add, Nat.add_sub_cancel' h]
  · rw [Nat.min_eq_right h, Nat.sub_eq_zero_of_le h, List.take_zero, List.append_nil]

theorem drop_eq_between (s : Bytes) (i j : ℕ) : s.drop i = between s i j ++ s.drop (max i j) := by
  unfold between
  rcases le_total i j with h | h
  · have hdrop : s.drop j = (s.drop i).drop (j - i) := by
      rw [List.drop_drop, Nat.add_sub_cancel' h]
    rw [Nat.max_eq_right h, hdrop, List.take_append_drop]
  · rw [Nat.max_eq_left h, Nat.sub_eq_zero_of_le h, List.take_zero, List.nil_append]

/-- Two texts in two places give one string exactly if they read alike with the bytes that the
other place leaves standing. -/
theorem placed_eq_iff {r r' : Bytes} {a b a' b' : ℕ} :
    s.take a ++ r ++ s.drop b = s.take a' ++ r' ++ s.drop b' ↔
      between s a' a ++ r ++ between s b b' = between s a a' ++ r' ++ between s b' b := by
  rw [take_eq_between s a' a, take_eq_between s a a', drop_eq_between s b b',
    drop_eq_between s b' b, Nat.min_comm a a', Nat.max_comm b' b]
  simp only [List.append_assoc]
  rw [List.append_cancel_left_eq]
  simp only [← List.append_assoc]
  rw [List.append_cancel_right_eq]

/-- Zero bytes at the end are behind the terminator. -/
theorem strAt_append_replicate (hs : (0 : UInt8) ∉ s) (n : ℕ) :
    strAt (s ++ List.replicate n 0) = s := by
  cases n with
  | zero => rw [List.replicate_zero, List.append_nil, strAt_of_notMem hs]
  | succ n => rw [List.replicate_succ, strAt_append_zero, strAt_of_notMem hs]

/-- What is seen of the names in place of the bytes of a string that zero bytes follow. -/
theorem strAt_placed (hs : (0 : UInt8) ∉ s) (hw : (0 : UInt8) ∉ replaceText w) {zeros a b : ℕ}
    (hab : a ≤ b) (hb : b ≤ s.length + zeros) :
    strAt ((s ++ List.replicate zeros 0).take a ++ replaceText w ++
      (s ++ List.replicate zeros 0).drop b) = s.take a ++ seen w s a ++ s.drop b := by
  unfold seen
  rw [List.take_append, List.drop_append, List.take_replicate, List.drop_replicate]
  split_ifs with ha
  · rw [Nat.sub_eq_zero_of_le ha, Nat.zero_min, List.replicate_zero, List.append_nil,
      ← List.append_assoc]
    exact strAt_append_replicate (notMem_spliced hw hs a b) _
  · obtain ⟨n, hn⟩ : ∃ n, min (a - s.length) zeros = n + 1 :=
      ⟨min (a - s.length) zeros - 1, by omega⟩
    rw [hn, List.replicate_succ, List.append_assoc, List.append_assoc, List.cons_append,
      strAt_append_zero, List.take_of_length_le (by omega), List.drop_of_length_le (by omega),
      strAt_of_notMem hs, List.append_nil, List.append_nil]

theorem spliced_eq_iff (hs : (0 : UInt8) ∉ s) (hw : (0 : UInt8) ∉ replaceText w)
    (hw' : (0 : UInt8) ∉ replaceText w') {zeros a b a' b' : ℕ} (hab : a ≤ b)
    (hb : b ≤ s.length + zeros) (hab' : a' ≤ b') (hb' : b' ≤ s.length + zeros) :
    spliced .buffer (replaceText w) (s ++ List.replicate zeros 0) a b =
        spliced .buffer (replaceText w') (s ++ List.replicate zeros 0) a' b' ↔
      PlacesAgree w w' s (s.length + zeros) (some (a, b)) (some (a', b')) := by
  rw [PlacesAgree, ← placed_eq_iff, Fits, Fits, assertionsHold_iff, assertionsHold_iff,
    spliced_buffer, spliced_buffer, strAt_placed hs hw hab hb, strAt_placed hs hw' hab' hb',
    List.length_append, List.length_replicate]
  split_ifs with h h' h'
  · simp [h, h']
  · simp [h, h']
  · simp [h, h']
  · simp [h, h']

end

/-- What PCRE reports for the regular expression of a leaf. -/
theorem takes_iff {pcre : Engine} (hpcre : Follows pcre) {w : List Bytes} {exec : Matcher}
    (hexec : pcre (regexText w) = some exec) {url : Bytes} {group : Option (ℕ × ℕ)} :
    Takes pcre w url group ↔ exec url = some group := by
  unfold Takes
  split_ifs with hreg
  · rw [← print_itemsOf, hpcre _ (regular_itemsOf hreg)] at hexec
    rw [← Option.some.inj hexec, capturing_eq_some]
    constructor
    · rintro ⟨pre, hit, post, h, rfl⟩
      exact ⟨_, _, search_itemsOf_iff.2 ⟨pre, hit, post, h, rfl, rfl⟩, rfl⟩
    · rintro ⟨a, b, hsearch, rfl⟩
      obtain ⟨pre, hit, post, h, rfl, rfl⟩ := search_itemsOf_iff.1 hsearch
      exact ⟨pre, hit, post, h, rfl⟩
  · rw [hexec]
    simp

theorem map_matched_injective :
    Function.Injective (Except.map (ε := Fault) fun s : Bytes => (s, true)) := by
  rintro (x | x) (y | y) h
  · exact congrArg Except.error (Except.error.inj h)
  · cases h
  · cases h
  · exact congrArg Except.ok (Prod.mk.inj (Except.ok.inj h)).1

/-- The entries of two leaves make the same of a URL exactly if the leaves agree on it. -/
theorem rewriteBy_eq_iff {w w' : List Bytes} {exec exec' : Matcher} {key key' s : Bytes}
    {zeros : ℕ} (hm : CapturesWithin ⟨exec, replaceText w⟩)
    (hm' : CapturesWithin ⟨exec', replaceText w'⟩) (hs : (0 : UInt8) ∉ s)
    (hw : (0 : UInt8) ∉ replaceText w) (hw' : (0 : UInt8) ∉ replaceText w')
    {group group' : Option (ℕ × ℕ)} (hexec : exec (s ++ List.replicate zeros 0) = some group)
    (hexec' : exec' (s ++ List.replicate zeros 0) = some group') :
    rewriteBy (s ++ List.replicate zeros 0) (some ⟨key, ⟨exec, replaceText w⟩⟩) =
        rewriteBy (s ++ List.replicate zeros 0) (some ⟨key', ⟨exec', replaceText w'⟩⟩) ↔
      PlacesAgree w w' s (s.length + zeros) group group' := by
  have hset : ∀ {v : List Bytes} {e : Matcher} {k : Bytes} {a b : ℕ},
      CapturesWithin ⟨e, replaceText v⟩ → e (s ++ List.replicate zeros 0) = some (some (a, b)) →
        (a ≤ b ∧ b ≤ s.length + zeros) ∧
        rewriteBy (s ++ List.replicate zeros 0) (some ⟨k, ⟨e, replaceText v⟩⟩) =
          (spliced .buffer (replaceText v) (s ++ List.replicate zeros 0) a b).map
            fun t => (t, true) := by
    intro v e k a b hv he
    have hab := hv _ a b he
    rw [List.length_append, List.length_replicate] at hab
    exact ⟨hab, onString_applyRegex hv he⟩
  have hunset : ∀ {v : List Bytes} {e : Matcher} {k : Bytes},
      e (s ++ List.replicate zeros 0) = some none →
        rewriteBy (s ++ List.replicate zeros 0) (some ⟨k, ⟨e, replaceText v⟩⟩) =
          .error .outOfBounds := fun he => onString_applyRegex_unset he
  -- a match that sets its group returns or ends the process
  have hcrash : ∀ (v : List Bytes) (a b : ℕ),
      (spliced .buffer (replaceText v) (s ++ List.replicate zeros 0) a b).map
        (fun t => (t, true)) ≠ .error .outOfBounds := by
    intro v a b
    rw [spliced_buffer]
    split_ifs
    · exact nofun
    · exact nofun
  rcases group with _ | ⟨a, b⟩ <;> rcases group' with _ | ⟨a', b'⟩
  · rw [hunset hexec, hunset hexec']
    exact iff_of_true rfl trivial
  · rw [hunset hexec, (hset hm' hexec').2]
    exact iff_of_false (hcrash w' a' b').symm id
  · rw [(hset hm hexec).2, hunset hexec']
    exact iff_of_false (hcrash w a b) id
  · obtain ⟨⟨hab, hb⟩, hrun⟩ := hset (k := key) hm hexec
    obtain ⟨⟨hab', hb'⟩, hrun'⟩ := hset (k := key') hm' hexec'
    rw [hrun, hrun', map_matched_injective.eq_iff, spliced_eq_iff hs hw hw' hab hb hab' hb']

theorem notMem_replaceText {w : List Bytes} (h : ∀ name ∈ w, (0 : UInt8) ∉ name) :
    (0 : UInt8) ∉ replaceText w := by
  unfold replaceText
  induction w with
  | nil => exact List.not_mem_nil
  | cons x w ih =>
    obtain ⟨hx, hw⟩ := List.forall_mem_cons.1 h
    cases w with
    | nil => simpa using hx
    | cons y w =>
      rw [List.intercalate_cons_cons, List.mem_append, List.mem_append]
      rintro ((h0 | h0) | h0)
      · exact hx h0
      · exact absurd h0 (by decide)
      · exact ih hw h0

/-- The names of a leaf are pieces of paths that were added, or `{...}`. -/
theorem notMem_leaf (cf : Int32) {calls : List Call} (h : ∀ call ∈ calls, (0 : UInt8) ∉ call.urlPath)
    {w : List Bytes} (hw : LeafBelowSquash ((tmPathSquasherAlloc cf).addPaths calls).rootNode w) :
    (0 : UInt8) ∉ replaceText w := by
  have hsegments : ∀ call ∈ calls, ∀ x ∈ segments call.urlPath, (0 : UInt8) ∉ x := by
    intro call hcall x hx h0
    have hmem := (infix_of_mem_strtok hx).subset h0
    split_ifs at hmem
    · exact h call hcall (List.mem_of_mem_dropLast hmem)
    · exact h call hcall hmem
  have hroot : (tmPathSquasherAlloc cf).rootNode.NamesBelow fun x => (0 : UInt8) ∉ x := by
    rw [namesBelow_iff]
    simp [tmPathSquasherAlloc, createNode]
  obtain ⟨-, m, hwalk, -⟩ := hw.leafBelow
  exact notMem_replaceText
    (namesBelow_addPaths (P := fun x => (0 : UInt8) ∉ x) (by decide) calls hsegments hroot w
      ⟨m, hwalk⟩)

/-- **The order of the table.**  Over the regular expressions of a tree, `apply_path_squasher`
makes the same of a URL in every order of the table exactly if any two leaves whose regular
expressions match it have their names say the same in their places. -/
theorem orderFree_iff {pcre : Engine} (hspans : Spans pcre) (hpcre : Follows pcre) {o : IterOrder}
    {cf : Int32} {calls : List Call} (hcalls : ∀ call ∈ calls, (0 : UInt8) ∉ call.urlPath)
    {t : RegexTable}
    (ht : tmPathSquasherGetRegexes pcre o ((tmPathSquasherAlloc cf).addPaths calls) = some t)
    {s : Bytes} (hs : (0 : UInt8) ∉ s) (zeros : ℕ) :
    OrderFree t (s ++ List.replicate zeros 0) ↔
      RewritesAgree pcre ((tmPathSquasherAlloc cf).addPaths calls).rootNode t s zeros := by
  rw [orderFree_iff_find?, forall_perm_find?_iff]
  have hwithin : ∀ {w : List Bytes} {exec : Matcher}, pcre (regexText w) = some exec →
      CapturesWithin ⟨exec, replaceText w⟩ := fun hexec x a b hx => hspans _ _ x a b hexec hx
  constructor
  · rintro h w w' ⟨hw, hentry⟩ ⟨hw', hentry'⟩ group group' htakes htakes'
    obtain ⟨⟨exec, _⟩, hm, rfl⟩ := Option.map_eq_some_iff.1 hentry
    obtain ⟨⟨exec', _⟩, hm', rfl⟩ := Option.map_eq_some_iff.1 hentry'
    obtain ⟨hsound, -⟩ := mem_getRegexes_iff ht
    have hpcrew := hsound _ _ hm
    have hpcrew' := hsound _ _ hm'
    have hexec := (takes_iff hpcre hpcrew).1 htakes
    have hexec' := (takes_iff hpcre hpcrew').1 htakes'
    have heq := h ⟨_, _⟩ (AList.mem_lookup_iff.1 hm) ⟨_, _⟩ (AList.mem_lookup_iff.1 hm')
      (by rw [hexec]; rfl) (by rw [hexec']; rfl)
    exact (rewriteBy_eq_iff (hwithin hpcrew) (hwithin hpcrew') hs (notMem_leaf cf hcalls hw)
      (notMem_leaf cf hcalls hw') hexec hexec').1 heq
  · rintro h ⟨key, m⟩ hx ⟨key', m'⟩ hy hp hp'
    obtain ⟨group, hexec⟩ := Option.isSome_iff_exists.1 hp
    obtain ⟨group', hexec'⟩ := Option.isSome_iff_exists.1 hp'
    have hm := AList.mem_lookup_iff.2 hx
    have hm' := AList.mem_lookup_iff.2 hy
    obtain ⟨w, hw, rfl, hpcrew, hr⟩ := exists_leaf_of_lookup ht hm
    obtain ⟨w', hw', rfl, hpcrew', hr'⟩ := exists_leaf_of_lookup ht hm'
    obtain ⟨exec, replace⟩ := m
    obtain ⟨exec', replace'⟩ := m'
    obtain rfl : replace = replaceText w := hr
    obtain rfl : replace' = replaceText w' := hr'
    have hagree := h w w' ⟨hw, by rw [hm]; rfl⟩ ⟨hw', by rw [hm']; rfl⟩ group group'
      ((takes_iff hpcre hpcrew).2 hexec) ((takes_iff hpcre hpcrew').2 hexec')
    exact (rewriteBy_eq_iff (hwithin hpcrew) (hwithin hpcrew') hs (notMem_leaf cf hcalls hw)
      (notMem_leaf cf hcalls hw') hexec hexec').2 hagree

/-- The squasher after `/a/b/x`, and two paths below `b`, with the factor `6`: the names of the
leaf `b/{...}` are the last ones of the leaf `a/b/{...}`. -/
def nestedNames : PathSquasher :=
  (tmPathSquasherAlloc 6).addPaths [.listed "/a/b/x", .listed "/b/x", .listed "/b/y"]

theorem leafBelowSquash_nestedNames {w : List Bytes} :
    LeafBelowSquash nestedNames.rootNode w ↔
      w = [cstr "a", cstr "b", squashedName] ∨ w = [cstr "b", squashedName] := by
  have hchains : nestedNames.rootNode.leafChains =
      [[(cstr "<ROOT>", false), (cstr "b", true), (squashedName, false)],
        [(cstr "<ROOT>", false), (cstr "a", false), (cstr "b", true), (squashedName, false)]] := rfl
  rw [LeafBelowSquash, ← exists_leafChain_belowSquash, hchains]
  constructor
  · rintro ⟨chain, hchain, hnames, -⟩
    rcases List.mem_cons.1 hchain with rfl | hchain
    · exact .inr (List.cons.inj hnames).2.symm
    · rw [List.mem_singleton.1 hchain] at hnames
      exact .inl (List.cons.inj hnames).2.symm
  · rintro (rfl | rfl)
    · exact ⟨_, List.mem_cons_of_mem _ (List.mem_singleton_self _), rfl, rfl⟩
    · exact ⟨_, List.mem_cons_self, rfl, rfl⟩

/-- Both leaves match the URL `/a/b/x`, and make `/a/b/{...}` of it. -/
theorem orderFree_nestedNames :
    ∃ t, tmPathSquasherGetRegexes reference .listed nestedNames = some t ∧ t.entries.length = 2 ∧
      OrderFree t (cstr "/a/b/x") := by
  refine ⟨_, rfl, rfl, (orderFree_iff spans_reference follows_reference (by decide)
    (show tmPathSquasherGetRegexes reference .listed ((tmPathSquasherAlloc 6).addPaths
      [.listed "/a/b/x", .listed "/b/x", .listed "/b/y"]) = some _ from rfl)
    (s := cstr "/a/b/x") (by decide) 0).2 ?_⟩
  have hplace : ∀ w group, LeafBelowSquash nestedNames.rootNode w →
      Takes reference w (cstr "/a/b/x") group →
        w = [cstr "a", cstr "b", squashedName] ∧ group = some (1, 6) ∨
          w = [cstr "b", squashedName] ∧ group = some (3, 6) := by
    intro w group hw htakes
    have hreg : ∀ name ∈ w, RegularName name := by
      rcases leafBelowSquash_nestedNames.1 hw with rfl | rfl <;> decide
    have hexec : reference (regexText w) = some (capturing (itemsOf w)) := by
      rw [← print_itemsOf]
      exact follows_reference _ (regular_itemsOf hreg)
    rw [takes_iff follows_reference hexec, capturing_eq_some] at htakes
    obtain ⟨a, b, hsearch, rfl⟩ := htakes
    rcases leafBelowSquash_nestedNames.1 hw with rfl | rfl
    · have hfirst : search (itemsOf [cstr "a", cstr "b", squashedName]) (cstr "/a/b/x") =
          some (1, 6) := by decide
      rw [hfirst] at hsearch
      exact .inl ⟨rfl, congrArg some (Option.some.inj hsearch).symm⟩
    · have hfirst : search (itemsOf [cstr "b", squashedName]) (cstr "/a/b/x") =
          some (3, 6) := by decide
      rw [hfirst] at hsearch
      exact .inr ⟨rfl, congrArg some (Option.some.inj hsearch).symm⟩
  rintro w w' ⟨hw, -⟩ ⟨hw', -⟩ group group' htakes htakes'
  rcases hplace w group hw htakes with ⟨rfl, rfl⟩ | ⟨rfl, rfl⟩ <;>
    rcases hplace w' group' hw' htakes' with ⟨rfl, rfl⟩ | ⟨rfl, rfl⟩
  · exact ⟨Iff.rfl, fun _ => rfl⟩
  · exact ⟨by decide, fun _ => by decide⟩
  · exact ⟨by decide, fun _ => by decide⟩
  · exact ⟨Iff.rfl, fun _ => rfl⟩

/-- The squasher after two paths below `a` and two below `q`, with the factor `6`: both levels
are squashed. -/
def twoLevels : PathSquasher :=
  (tmPathSquasherAlloc 6).addPaths
    [.listed "/a/x", .listed "/a/y", .listed "/q/x", .listed "/q/y"]

/-- The URL `/q/a/x` becomes `/q/{...}` or `/q/a/{...}`, as the order of the table has it. -/
theorem order_decides_rewrite :
    ∃ t, tmPathSquasherGetRegexes reference .listed twoLevels = some t ∧
      ¬ OrderFree t (cstr "/q/a/x") := by
  refine ⟨_, rfl, fun h => ?_⟩
  have hboth := (orderFree_iff_find? _ _).1 h _ _ (.refl _) (List.reverse_perm _)
  exact absurd hboth (by decide)

/-! ### One regular expression -/

theorem escaped_notMem_itemsOfName (name : Bytes) : Item.escaped 47 ∉ itemsOfName name := by
  unfold itemsOfName literalItems
  split_ifs
  · simp
  · rw [List.mem_map]
    rintro ⟨c, -, hc⟩
    split_ifs at hc

theorem itemsOfName_injective : Function.Injective itemsOfName := by
  have hliteral : Function.Injective literalItems := by
    refine List.map_injective_iff.2 fun c d hcd => ?_
    beta_reduce at hcd
    split_ifs at hcd with hc hd hd
    · exact hc.trans hd.symm
    · exact Item.byte.inj hcd
  have hwild : ∀ name, literalItems name ≠ [.manyExcept 47] := by
    intro name h
    have hmem : Item.manyExcept 47 ∈ literalItems name := by rw [h]; exact List.mem_singleton_self _
    obtain ⟨c, -, hc⟩ := List.mem_map.1 hmem
    split_ifs at hc
  intro name name' h
  unfold itemsOfName at h
  split_ifs at h with h₁ h₂ h₂
  · exact h₁.trans h₂.symm
  · exact absurd h.symm (hwild _)
  · exact absurd h (hwild _)
  · exact hliteral h

/-- Two leaves with regular names have different regular expressions. -/
theorem regexText_injective {w w' : List Bytes} (hne : w ≠ []) (hne' : w' ≠ [])
    (hreg : ∀ name ∈ w, RegularName name) (hreg' : ∀ name ∈ w', RegularName name)
    (h : regexText w = regexText w') : w = w' := by
  rw [← print_itemsOf, ← print_itemsOf] at h
  have hitems := print_injective (regular_itemsOf hreg) (regular_itemsOf hreg') h
  have hjoined := List.append_cancel_right hitems
  have hsplit : ∀ v : List Bytes, v ≠ [] →
      ([Item.escaped 47].intercalate (v.map itemsOfName)).splitOn (.escaped 47) =
        v.map itemsOfName := by
    intro v hv
    refine List.splitOn_intercalate _ (fun l hl => ?_) (by simpa using hv)
    obtain ⟨name, -, rfl⟩ := List.mem_map.1 hl
    exact escaped_notMem_itemsOfName name
  have hmap : w.map itemsOfName = w'.map itemsOfName := by
    rw [← hsplit w hne, ← hsplit w' hne', hjoined]
  exact List.map_injective_iff.2 itemsOfName_injective hmap

theorem LeafBelowSquash.ne_nil {root : Node} {w : List Bytes} (h : LeafBelowSquash root w) :
    w ≠ [] := by
  rintro rfl
  obtain ⟨m, hm, -⟩ := h
  exact not_belowSquash_nil hm

/-- The entry of a leaf, when no name has a byte that means anything to PCRE. -/
theorem entry_of_regular {pcre : Engine} (hpcre : Follows pcre) {o : IterOrder}
    {ps : PathSquasher} {t : RegexTable} (ht : tmPathSquasherGetRegexes pcre o ps = some t)
    (hreg : ∀ w, LeafBelowSquash ps.rootNode w → ∀ name ∈ w, RegularName name) {w : List Bytes}
    (hw : LeafBelowSquash ps.rootNode w) {m : PcreMatcher} (hm : t.lookup (regexText w) = some m) :
    m = ⟨capturing (itemsOf w), replaceText w⟩ := by
  obtain ⟨w', hw', hkey, hexec, hreplace⟩ := exists_leaf_of_lookup ht hm
  obtain rfl := regexText_injective hw.ne_nil hw'.ne_nil (hreg w hw) (hreg w' hw') hkey
  rw [← print_itemsOf, hpcre _ (regular_itemsOf (hreg w hw))] at hexec
  obtain ⟨exec, replace⟩ := m
  obtain rfl : replace = replaceText w := hreplace
  rw [Option.some.inj hexec]

/-- `apply_regex` makes another string of the URL. -/
def Rewrites (m : PcreMatcher) (url : Bytes) : Prop :=
  ∃ url', onString (applyRegex m 1) url = .ok (url', true) ∧ url' ≠ url

/-- The URL is rewritten only if its first segments are the names of the leaf, one for one;
`{...}` stands for any segment. -/
def HitsFamily (w : List Bytes) (m : PcreMatcher) (url : Bytes) : Prop :=
  Rewrites m url → Covers squashedName w ((strtok 47 url).take w.length)

/-- What is taken of the URL is the names themselves, or they do not fit in its place. -/
def SpellsNames (w : List Bytes) (url : Bytes) : Prop :=
  ∃ pre hit post, FoundAs w url pre hit post ∧
    ((0 ∉ url ∧ hit = replaceText w) ∨ ¬ Fits w url.length pre.length (pre.length + hit.length))

theorem withinSubject_capturing (is : List Item) (replace : Bytes) :
    WithinSubject ⟨capturing is, replace⟩ := by
  intro s group h
  obtain ⟨a, b, hsearch, rfl⟩ := capturing_eq_some.1 h
  obtain ⟨hab, hb, -⟩ := search_spec hsearch
  exact ⟨a, b, rfl, hab, hb⟩

/-- The names in place of what is taken give the URL as it is exactly if they are spelled there. -/
theorem strAt_eq_self_iff {pre hit post r : Bytes} (hr : (0 : UInt8) ∉ r) :
    strAt (pre ++ r ++ post) = pre ++ hit ++ post ↔ 0 ∉ pre ++ hit ++ post ∧ hit = r := by
  constructor
  · intro h
    have h0 : (0 : UInt8) ∉ pre ++ hit ++ post := h ▸ notMem_strAt _
    refine ⟨h0, ?_⟩
    rw [strAt_of_notMem (by simp_all)] at h
    exact (List.append_cancel_left (List.append_cancel_right h)).symm
  · rintro ⟨h0, rfl⟩
    exact strAt_of_notMem h0

theorem rewrites_iff {w : List Bytes} {url : Bytes} (hw : (0 : UInt8) ∉ replaceText w) :
    Rewrites ⟨capturing (itemsOf w), replaceText w⟩ url ↔
      NamesOccur w url ∧ ¬ SpellsNames w url := by
  rw [← occurs_itemsOf_iff, ← search_isSome_iff]
  cases hs : search (itemsOf w) url with
  | none =>
    have hnone : capturing (itemsOf w) url = none := by rw [capturing, hs]; rfl
    have hrun : onString (applyRegex ⟨capturing (itemsOf w), replaceText w⟩ 1) url =
        .ok (strAt (url ++ [0]), false) := by
      unfold onString
      rw [applyRegex_none hnone]
      rfl
    simp [Rewrites, hrun]
  | some ab =>
    obtain ⟨a, b⟩ := ab
    obtain ⟨pre, hit, post, h, rfl, rfl⟩ := search_itemsOf_iff.1 hs
    have hexec : capturing (itemsOf w) url = some (some (pre.length, pre.length + hit.length)) := by
      rw [capturing, hs]
      rfl
    -- there is no other place
    have hspells : SpellsNames w url ↔ ((0 ∉ url ∧ hit = replaceText w) ∨
        ¬ Fits w url.length pre.length (pre.length + hit.length)) := by
      constructor
      · rintro ⟨pre', hit', post', h', hsame⟩
        obtain ⟨rfl, rfl, -⟩ := h.unique h'
        exact hsame
      · exact fun hsame => ⟨pre, hit, post, h, hsame⟩
    have hwithin := (withinSubject_capturing (itemsOf w) (replaceText w)).capturesWithin
    have htext : url.take pre.length ++ replaceText w ++ url.drop (pre.length + hit.length) =
        pre ++ replaceText w ++ post := by
      rw [h.parts, ← List.length_append, List.drop_left, List.append_assoc pre hit post,
        List.take_left]
    rw [hspells, Rewrites, onString_applyRegex hwithin hexec, spliced_buffer, htext, Fits,
      assertionsHold_iff]
    simp only [Option.isSome_some, true_and, not_or, not_not]
    split_ifs with hfit
    · have hsame := @strAt_eq_self_iff pre hit post _ hw
      rw [← h.parts] at hsame
      rw [← hsame, and_iff_left hfit]
      constructor
      · rintro ⟨url', heq, hne⟩
        rwa [(Prod.mk.inj (Except.ok.inj heq)).1]
      · exact fun hne => ⟨_, rfl, hne⟩
    · refine iff_of_false ?_ fun hboth => hfit hboth.2
      rintro ⟨url', heq, -⟩
      cases heq

theorem notMem_regularName {name : Bytes} (h : RegularName name) : (0 : UInt8) ∉ name := by
  rcases h with rfl | h
  · decide
  · intro h0
    exact absurd (h 0 h0 (by decide)) (by decide)

/-- **What a regular expression hits.**  In a tree whose names are regular, the regular
expression of a leaf rewrites only URLs that start with its names exactly when the names do not
occur in the URL, or are spelled there already, or the URL does start with them. -/
theorem hitsFamily_iff {pcre : Engine} (hpcre : Follows pcre) {o : IterOrder} {cf : Int32}
    {calls : List Call} {t : RegexTable}
    (ht : tmPathSquasherGetRegexes pcre o ((tmPathSquasherAlloc cf).addPaths calls) = some t)
    (hreg : ∀ w, LeafBelowSquash ((tmPathSquasherAlloc cf).addPaths calls).rootNode w →
      ∀ name ∈ w, RegularName name) {w : List Bytes}
    (hw : LeafBelowSquash ((tmPathSquasherAlloc cf).addPaths calls).rootNode w) {m : PcreMatcher}
    (hm : t.lookup (regexText w) = some m) (url : Bytes) :
    HitsFamily w m url ↔ ¬ NamesOccur w url ∨ SpellsNames w url ∨
      Covers squashedName w ((strtok 47 url).take w.length) := by
  obtain rfl := entry_of_regular hpcre ht hreg hw hm
  unfold HitsFamily
  rw [rewrites_iff (notMem_replaceText fun name hname => notMem_regularName (hreg w hw name hname))]
  tauto

/-- The squasher after `/a/x` and `/a/y` with the factor `6`. -/
def oneLevel : PathSquasher := (tmPathSquasherAlloc 6).addPaths [.listed "/a/x", .listed "/a/y"]

theorem leafBelowSquash_oneLevel {w : List Bytes} :
    LeafBelowSquash oneLevel.rootNode w ↔ w = [cstr "a", squashedName] := by
  have hchains : oneLevel.rootNode.leafChains =
      [[(cstr "<ROOT>", false), (cstr "a", true), (squashedName, false)]] := rfl
  rw [LeafBelowSquash, ← exists_leafChain_belowSquash, hchains]
  constructor
  · rintro ⟨chain, hchain, hnames, -⟩
    rw [List.mem_singleton.1 hchain] at hnames
    exact (List.cons.inj hnames).2.symm
  · rintro rfl
    exact ⟨_, List.mem_singleton_self _, rfl, rfl⟩

/-- The URL `/a/z` is in the family. -/
theorem hitsFamily_oneLevel :
    ∃ t m, tmPathSquasherGetRegexes reference .listed oneLevel = some t ∧
      t.lookup (regexText [cstr "a", squashedName]) = some m ∧
      HitsFamily [cstr "a", squashedName] m (cstr "/a/z") := by
  refine ⟨_, _, rfl, rfl, (hitsFamily_iff follows_reference
    (show tmPathSquasherGetRegexes reference .listed ((tmPathSquasherAlloc 6).addPaths
      [.listed "/a/x", .listed "/a/y"]) = some _ from rfl) ?_ ?_ rfl _).2 (.inr (.inr ?_))⟩
  · intro w hw name hname
    rw [leafBelowSquash_oneLevel.1 hw] at hname
    revert name
    decide
  · exact leafBelowSquash_oneLevel.2 rfl
  · exact .cons (.inl rfl) (.cons (.inr rfl) .nil)

/-- The URL `/ba/z` is not, and becomes `/ba/{...}` all the same: the match begins inside its
first segment. -/
theorem other_family_rewritten :
    ∃ t m, tmPathSquasherGetRegexes reference .listed oneLevel = some t ∧
      t.lookup (regexText [cstr "a", squashedName]) = some m ∧
      (∀ w, LeafBelowSquash oneLevel.rootNode w → ∀ name ∈ w, RegularName name) ∧
      ¬ HitsFamily [cstr "a", squashedName] m (cstr "/ba/z") := by
  have hreg : ∀ w, LeafBelowSquash oneLevel.rootNode w → ∀ name ∈ w, RegularName name := by
    intro w hw
    rw [leafBelowSquash_oneLevel.1 hw]
    decide
  refine ⟨_, _, rfl, rfl, hreg, fun h => ?_⟩
  rw [entry_of_regular follows_reference (o := .listed) rfl hreg
    (leafBelowSquash_oneLevel.2 rfl) rfl] at h
  have hcovers := h ⟨cstr "/ba/{...}", by decide, by decide⟩
  exact absurd hcovers (by decide)

end Tracemate.Squasher
