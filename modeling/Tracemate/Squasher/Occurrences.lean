import Tracemate.Squasher.Matching

/-!
# Where the names of a leaf are found

The regular expression of a leaf is not anchored and ends in `.*`.  What it takes of a URL, told
without a search:

* `NamesStart w s`: the string starts with the names `w`, joined by `/`;
* `FoundAs w url pre hit post`: they occur behind `pre` first, and `hit` is what they and `.*`
  take there;
* `FoundAs.unique`: there is at most one such place;
* `search_itemsOf_iff`: it is the one that a search for the regular expression of `w` finds.
-/

namespace Tracemate.Squasher

open CStr Wildcard Pattern

/-- The string starts with the names joined by `/`. -/
def NamesStart (w : List Bytes) (s : Bytes) : Prop :=
  ∃ bs, List.Forall₂ NameMatches w bs ∧ ([47] : Bytes).intercalate bs <+: s

/-- The names occur in the URL behind `pre`, and nowhere further to the left.  Behind them the
rest of the line is taken; a last `{...}` takes everything up to a slash first. -/
structure FoundAs (w : List Bytes) (url pre hit post : Bytes) : Prop where
  parts : url = pre ++ hit ++ post
  names : ∃ bs tail, List.Forall₂ NameMatches w bs ∧ hit = ([47] : Bytes).intercalate bs ++ tail ∧
    10 ∉ tail ∧ (w.getLast? = some squashedName → ∀ c ∈ (tail ++ post).head?, c = 47)
  line : ∀ c ∈ post.head?, c = 10
  first : ∀ u v, url = u ++ v → u.length < pre.length → ¬ NamesStart w v

variable {w : List Bytes} {url pre hit post : Bytes}

theorem FoundAs.namesStart (h : FoundAs w url pre hit post) : NamesStart w (hit ++ post) := by
  obtain ⟨bs, tail, hbs, rfl, -⟩ := h.names
  exact ⟨bs, hbs, tail ++ post, by rw [List.append_assoc]⟩

theorem FoundAs.namesOccur (h : FoundAs w url pre hit post) : NamesOccur w url := by
  obtain ⟨bs, tail, hbs, hhit, -⟩ := h.names
  exact ⟨bs, hbs, pre, tail ++ post, by rw [h.parts, hhit]; simp⟩

/-! ### At most one place -/

/-- A name takes one prefix of a string only, if `{...}` has to go on up to a slash. -/
theorem nameMatches_unique {x b b' r r' : Bytes} (hb : NameMatches x b) (hb' : NameMatches x b')
    (hr : x = squashedName → ∀ c ∈ r.head?, c = 47)
    (hr' : x = squashedName → ∀ c ∈ r'.head?, c = 47) (h : b ++ r = b' ++ r') :
    b = b' ∧ r = r' := by
  unfold NameMatches at hb hb'
  split_ifs at hb hb' with hsq
  · exact run_unique hb.2 hb'.2 (hr hsq) (hr' hsq) h
  · exact List.append_inj h (hb.length_eq.symm.trans hb'.length_eq)

/-- Where joined names start, they take one prefix only. -/
theorem namesMatch_unique {bs bs' : List Bytes} {r r' : Bytes}
    (hbs : List.Forall₂ NameMatches w bs) (hbs' : List.Forall₂ NameMatches w bs')
    (hr : w.getLast? = some squashedName → ∀ c ∈ r.head?, c = 47)
    (hr' : w.getLast? = some squashedName → ∀ c ∈ r'.head?, c = 47)
    (h : ([47] : Bytes).intercalate bs ++ r = ([47] : Bytes).intercalate bs' ++ r') :
    bs = bs' ∧ r = r' := by
  induction w generalizing bs bs' with
  | nil =>
    cases hbs
    cases hbs'
    exact ⟨rfl, by simpa using h⟩
  | cons x w ih =>
    cases hbs with
    | @cons _ b _ bs hb hbs =>
    cases hbs' with
    | @cons _ b' _ bs' hb' hbs' =>
    cases w with
    | nil =>
      cases hbs
      cases hbs'
      simp only [List.intercalate_singleton] at h
      obtain ⟨rfl, rfl⟩ := nameMatches_unique hb hb' (fun hx => hr (by rw [hx]; rfl))
        (fun hx => hr' (by rw [hx]; rfl)) h
      exact ⟨rfl, rfl⟩
    | cons y w =>
      cases hbs with
      | @cons _ d _ ds hd hds =>
      cases hbs' with
      | @cons _ d' _ ds' hd' hds' =>
      simp only [List.intercalate_cons_cons, List.append_assoc] at h
      obtain ⟨hb, hrest⟩ := nameMatches_unique hb hb' (fun _ => by simp) (fun _ => by simp) h
      obtain ⟨hds, rfl⟩ := ih (.cons hd hds) (.cons hd' hds') (by simpa using hr)
        (by simpa using hr') (List.append_cancel_left hrest)
      exact ⟨by rw [hb, hds], rfl⟩

theorem FoundAs.not_length_lt {pre' hit' post' : Bytes} (h : FoundAs w url pre hit post)
    (h' : FoundAs w url pre' hit' post') : ¬ pre.length < pre'.length := fun hlt =>
  h'.first pre (hit ++ post) (by rw [h.parts, List.append_assoc]) hlt h.namesStart

/-- The names are found in one place at most. -/
theorem FoundAs.unique {pre' hit' post' : Bytes} (h : FoundAs w url pre hit post)
    (h' : FoundAs w url pre' hit' post') : pre = pre' ∧ hit = hit' ∧ post = post' := by
  have hlen : pre.length = pre'.length :=
    le_antisymm (not_lt.1 (h'.not_length_lt h)) (not_lt.1 (h.not_length_lt h'))
  have hparts : pre ++ (hit ++ post) = pre' ++ (hit' ++ post') := by
    rw [← List.append_assoc, ← List.append_assoc, ← h.parts, ← h'.parts]
  obtain ⟨rfl, hhit⟩ := List.append_inj hparts hlen
  obtain ⟨bs, tail, hbs, rfl, htail, hlast⟩ := h.names
  obtain ⟨bs', tail', hbs', rfl, htail', hlast'⟩ := h'.names
  rw [List.append_assoc, List.append_assoc] at hhit
  obtain ⟨rfl, hbehind⟩ := namesMatch_unique hbs hbs' hlast hlast' hhit
  obtain ⟨rfl, rfl⟩ := run_unique htail htail' h.line h'.line hbehind
  exact ⟨rfl, rfl, rfl⟩

/-! ### What the search finds -/

/-- The items of the last name come last. -/
theorem exists_items_last {x : Bytes} (h : w.getLast? = some x) :
    ∃ is, [Item.escaped 47].intercalate (w.map itemsOfName) = is ++ itemsOfName x := by
  induction w with
  | nil => cases h
  | cons y w ih =>
    cases w with
    | nil =>
      obtain rfl : y = x := by simpa using h
      exact ⟨[], by simp⟩
    | cons z w =>
      obtain ⟨is, his⟩ := ih (by simpa using h)
      refine ⟨itemsOfName y ++ [.escaped 47] ++ is, ?_⟩
      rw [List.map_cons, List.map_cons, List.intercalate_cons_cons, ← List.map_cons, his]
      simp

/-- What the items of the names take of the start of a string. -/
theorem matchHere_itemsOf {s : Bytes} {n : ℕ} (h : matchHere (itemsOf w) s = some n) :
    ∃ bs tail post, List.Forall₂ NameMatches w bs ∧
      s = ([47] : Bytes).intercalate bs ++ tail ++ post ∧
      n = (([47] : Bytes).intercalate bs ++ tail).length ∧ 10 ∉ tail ∧
      (w.getLast? = some squashedName → ∀ c ∈ (tail ++ post).head?, c = 47) ∧
      ∀ c ∈ post.head?, c = 10 := by
  by_cases hlast : w.getLast? = some squashedName
  · -- the run of a last `{...}`, and then the rest of the line
    obtain ⟨is, his⟩ := exists_items_last hlast
    rw [itemsOf, his, List.append_assoc] at h
    obtain ⟨a, t, k, rfl, ha, hk, rfl⟩ := matchHere_append h
    rw [itemsOfName, if_pos rfl] at hk his
    obtain ⟨hne, rfl⟩ := matchHere_manyExcept_rest hk
    have hmatch : Matches ([Item.escaped 47].intercalate (w.map itemsOfName))
        (a ++ t.takeWhile (· ≠ 47)) := by
      rw [his]
      exact matches_append.2 ⟨a, _, rfl, ha, _, [], (List.append_nil _).symm,
        ⟨hne, notMem_takeWhile_ne 47 t⟩, rfl⟩
    obtain ⟨bs, hbs, hjoined⟩ := matches_intercalate.1 hmatch
    refine ⟨bs, (t.dropWhile (· ≠ 47)).takeWhile (· ≠ 10), (t.dropWhile (· ≠ 47)).dropWhile (· ≠ 10),
      hbs, ?_, ?_, notMem_takeWhile_ne 10 _, fun _ => ?_, head?_dropWhile_ne 10 _⟩
    · rw [← hjoined, List.append_assoc, List.takeWhile_append_dropWhile, List.append_assoc,
        List.takeWhile_append_dropWhile]
    · rw [← hjoined, List.length_append, List.length_append, Nat.add_assoc]
    · rw [List.takeWhile_append_dropWhile]
      exact head?_dropWhile_ne 47 t
  · obtain ⟨a, t, k, rfl, ha, hk, rfl⟩ := matchHere_append h
    rw [matchHere_rest] at hk
    obtain rfl := Option.some.inj hk
    obtain ⟨bs, hbs, rfl⟩ := matches_intercalate.1 ha
    refine ⟨bs, t.takeWhile (· ≠ 10), t.dropWhile (· ≠ 10), hbs, ?_, ?_, notMem_takeWhile_ne 10 t,
      fun h => absurd h hlast, head?_dropWhile_ne 10 t⟩
    · rw [List.append_assoc, List.takeWhile_append_dropWhile]
    · rw [List.length_append]

/-- The items of the names take something where the names start. -/
theorem matchHere_itemsOf_isSome {s : Bytes} (h : NamesStart w s) :
    (matchHere (itemsOf w) s).isSome := by
  obtain ⟨bs, hbs, t, rfl⟩ := h
  refine matchHere_complete (matches_append.2 ⟨_, [], (List.append_nil _).symm, ?_, ?_⟩)
  · exact matches_intercalate.2 ⟨bs, hbs, rfl⟩
  · exact ⟨[], [], rfl, List.not_mem_nil, rfl⟩

theorem foundAs_of_search {a b : ℕ} (h : search (itemsOf w) url = some (a, b)) :
    ∃ pre hit post, FoundAs w url pre hit post ∧ a = pre.length ∧ b = pre.length + hit.length := by
  obtain ⟨hab, -, -⟩ := search_spec h
  obtain ⟨ha, hhere, hfirst⟩ := search_first h
  obtain ⟨bs, tail, post, hbs, hrest, hlen, htail, hlast, hline⟩ := matchHere_itemsOf hhere
  have hpre : (url.take a).length = a := by rw [List.length_take, Nat.min_eq_left ha]
  refine ⟨url.take a, _, post, ⟨?_, ⟨bs, tail, hbs, rfl, htail, hlast⟩, hline, ?_⟩, hpre.symm, ?_⟩
  · rw [List.append_assoc, ← hrest, List.take_append_drop]
  · rintro u v rfl hlt hstart
    rw [hpre] at hlt
    have hnone := hfirst u.length hlt
    rw [List.drop_left] at hnone
    have := matchHere_itemsOf_isSome hstart
    rw [hnone] at this
    cases this
  · rw [hpre]
    omega

/-- A search for the regular expression of the names finds the place where they are found. -/
theorem search_itemsOf_iff {a b : ℕ} :
    search (itemsOf w) url = some (a, b) ↔
      ∃ pre hit post, FoundAs w url pre hit post ∧ a = pre.length ∧
        b = pre.length + hit.length := by
  constructor
  · exact foundAs_of_search
  · rintro ⟨pre, hit, post, h, rfl, rfl⟩
    have hsome : (search (itemsOf w) url).isSome :=
      search_isSome_iff.2 (occurs_itemsOf_iff.2 h.namesOccur)
    obtain ⟨⟨a, b⟩, hsearch⟩ := Option.isSome_iff_exists.1 hsome
    obtain ⟨pre', hit', post', h', rfl, rfl⟩ := foundAs_of_search hsearch
    obtain ⟨rfl, rfl, -⟩ := h.unique h'
    exact hsearch

end Tracemate.Squasher
