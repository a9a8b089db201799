import Tracemate.Squasher.Regexes

/-!
# Which added paths the regular expressions match

A regular expression is written for every leaf below a squash, and only for leaves.

* `NamesOccur w p`: the names `w`, joined by `/`, occur in `p`, where `{...}` stands for a
  non-empty run of bytes other than `/`;
* `occurs_itemsOf_iff`: this is what a search for the regular expression of `w` looks for, when
  no name has a byte that means something to PCRE;
* `regexesCover_iff`: when the table has a regular expression that matches a path;
* `namesOccur_of_covers`: it has one for a path whose own walk ends at a leaf, and whose
  segments are separated by single slashes.
-/

namespace Tracemate.Squasher

open CStr Wildcard Pattern

/-! ### Occurrences of names -/

/-- `{...}` stands for a non-empty run of bytes other than `/`, and `.` for any byte but a
newline; every other byte stands for itself. -/
def NameMatches (name b : Bytes) : Prop :=
  if name = squashedName then b ≠ [] ∧ 47 ∉ b
  else List.Forall₂ (fun c d => c = d ∨ (c = 46 ∧ d ≠ 10)) name b

instance (name b : Bytes) : Decidable (NameMatches name b) := by
  unfold NameMatches
  infer_instance

/-- Some part of `p` is the names joined by `/`. -/
def NamesOccur (w : List Bytes) (p : Bytes) : Prop :=
  ∃ bs, List.Forall₂ NameMatches w bs ∧ ([47] : Bytes).intercalate bs <:+: p

/-- No byte of the name means anything to PCRE, but for `.`; or the name is `{...}`. -/
def RegularName (name : Bytes) : Prop := name = squashedName ∨ ∀ b ∈ name, b ∈ metaBytes → b = 46

instance (name : Bytes) : Decidable (RegularName name) :=
  haveI : Decidable (∀ b ∈ name, b ∈ metaBytes → b = 46) := List.decidableBAll _ name
  inferInstanceAs (Decidable (name = squashedName ∨ ∀ b ∈ name, b ∈ metaBytes → b = 46))

/-! ### The items of a regular expression -/

/-- The items of a segment name that is spliced into the pattern as it is. -/
def literalItems (name : Bytes) : List Item := name.map fun c => if c = 46 then .any else .byte c

/-- The items of `regexSegment`. -/
def itemsOfName (name : Bytes) : List Item :=
  if name = squashedName then [.manyExcept 47] else literalItems name

/-- The items of `regexText`. -/
def itemsOf (names : List Bytes) : List Item :=
  [Item.escaped 47].intercalate (names.map itemsOfName) ++ [.rest]

theorem flatMap_print_literalItems (name : Bytes) :
    (literalItems name).flatMap Item.print = name := by
  induction name with
  | nil => rfl
  | cons c name ih =>
    have hc : (if c = 46 then Item.any else Item.byte c).print = [c] := by
      split_ifs with h
      · rw [h]
        rfl
      · rfl
    rw [literalItems, List.map_cons, List.flatMap_cons, hc]
    exact congrArg (c :: ·) ih

theorem flatMap_print_itemsOfName (name : Bytes) :
    (itemsOfName name).flatMap Item.print = regexSegment name := by
  unfold itemsOfName regexSegment
  split_ifs
  · rfl
  · exact flatMap_print_literalItems name

theorem print_itemsOf (names : List Bytes) : print (itemsOf names) = regexText names := by
  have h : ([Item.escaped 47].intercalate (names.map itemsOfName)).flatMap Item.print =
      (cstr "\\/").intercalate (names.map regexSegment) := by
    induction names with
    | nil => rfl
    | cons x names ih =>
      cases names with
      | nil => simp [flatMap_print_itemsOfName]
      | cons y names =>
        simp only [List.map_cons] at ih ⊢
        rw [List.intercalate_cons_cons, List.intercalate_cons_cons, List.flatMap_append,
          List.flatMap_append, ih, flatMap_print_itemsOfName]
        rfl
  rw [print, itemsOf, List.flatMap_append, h, regexText, List.cons_append, List.append_assoc,
    List.append_assoc]
  rfl

theorem regular_literalItems {name : Bytes} (h : ∀ b ∈ name, b ∈ metaBytes → b = 46) :
    ∀ i ∈ literalItems name, i.Regular := by
  intro i hi
  obtain ⟨c, hc, rfl⟩ := List.mem_map.1 hi
  split_ifs with h46
  · trivial
  · exact fun hmeta => h46 (h c hc hmeta)

theorem regular_itemsOf {names : List Bytes} (h : ∀ name ∈ names, RegularName name) :
    ∀ i ∈ itemsOf names, i.Regular := by
  have hname : ∀ name ∈ names, ∀ i ∈ itemsOfName name, i.Regular := by
    intro name hmem
    unfold itemsOfName
    split_ifs with hsq
    · simp [Item.Regular]
    · exact regular_literalItems ((h name hmem).resolve_left hsq)
  have hjoined : ∀ i ∈ [Item.escaped 47].intercalate (names.map itemsOfName), i.Regular := by
    clear h
    induction names with
    | nil => simp
    | cons x names ih =>
      cases names with
      | nil => simpa using hname x List.mem_cons_self
      | cons y names =>
        intro i hi
        simp only [List.map_cons, List.intercalate_cons_cons, List.mem_append] at hi ih
        rcases hi with (hi | hi) | hi
        · exact hname x List.mem_cons_self i hi
        · rw [List.mem_singleton.1 hi]
          rfl
        · exact ih (fun name hmem => hname name (List.mem_cons_of_mem _ hmem)) i hi
  intro i hi
  rcases List.mem_append.1 hi with hi | hi
  · exact hjoined i hi
  · rw [List.mem_singleton.1 hi]
    trivial

theorem matches_literalItems {name b : Bytes} :
    Matches (literalItems name) b ↔
      List.Forall₂ (fun c d => c = d ∨ (c = 46 ∧ d ≠ 10)) name b := by
  induction name generalizing b with
  | nil => simp [literalItems, Matches]
  | cons c name ih =>
    have hone : ∀ a, Item.Matches (if c = 46 then .any else .byte c) a ↔
        ∃ d, a = [d] ∧ (c = d ∨ (c = 46 ∧ d ≠ 10)) := by
      intro a
      by_cases h46 : c = 46
      · subst h46
        simp only [if_true, Item.Matches, true_and]
        constructor
        · rintro ⟨d, hd, rfl⟩
          exact ⟨d, rfl, .inr hd⟩
        · rintro ⟨d, rfl, rfl | hd⟩
          · exact ⟨46, by decide, rfl⟩
          · exact ⟨d, hd, rfl⟩
      · simp [h46, Item.Matches]
    rw [List.forall₂_cons_left_iff]
    constructor
    · rintro ⟨a, e, rfl, ha, he⟩
      obtain ⟨d, rfl, hd⟩ := (hone a).1 ha
      exact ⟨d, e, hd, ih.1 he, rfl⟩
    · rintro ⟨d, e, hd, he, rfl⟩
      exact ⟨[d], e, rfl, (hone _).2 ⟨d, rfl, hd⟩, ih.2 he⟩

theorem matches_itemsOfName {name b : Bytes} :
    Matches (itemsOfName name) b ↔ NameMatches name b := by
  unfold itemsOfName NameMatches
  split_ifs
  · simp [Matches, Item.Matches]
  · exact matches_literalItems

theorem matches_intercalate {names : List Bytes} {b : Bytes} :
    Matches ([Item.escaped 47].intercalate (names.map itemsOfName)) b ↔
      ∃ bs, List.Forall₂ NameMatches names bs ∧ b = ([47] : Bytes).intercalate bs := by
  induction names generalizing b with
  | nil => simp [Matches]
  | cons x names ih =>
    cases names with
    | nil => simp [List.forall₂_cons_left_iff, matches_itemsOfName]
    | cons y names =>
      simp only [List.map_cons] at ih ⊢
      rw [List.intercalate_cons_cons, matches_append]
      constructor
      · rintro ⟨_, d, rfl, hl, hd⟩
        obtain ⟨a, s, rfl, ha, hs⟩ := matches_append.1 hl
        obtain rfl : s = [47] := by simpa [Matches, Item.Matches] using hs
        obtain ⟨bs, hbs, rfl⟩ := ih.1 hd
        cases hbs with
        | @cons _ b' _ bs' hb hbs =>
          refine ⟨a :: b' :: bs', .cons (matches_itemsOfName.1 ha) (.cons hb hbs), ?_⟩
          rw [List.intercalate_cons_cons]
      · rintro ⟨bs, hbs, rfl⟩
        cases hbs with
        | @cons _ a _ bs ha hbs =>
        cases hbs with
        | @cons _ b' _ bs' hb hbs =>
          rw [List.intercalate_cons_cons]
          refine ⟨a ++ [47], _, rfl, matches_append.2 ⟨a, [47], rfl, ?_, ?_⟩, ?_⟩
          · exact matches_itemsOfName.2 ha
          · exact ⟨[47], [], rfl, rfl, rfl⟩
          · exact ih.2 ⟨b' :: bs', .cons hb hbs, rfl⟩

/-- What a search for the regular expression of the names looks for. -/
theorem occurs_itemsOf_iff {names : List Bytes} {p : Bytes} :
    Occurs (itemsOf names) p ↔ NamesOccur names p := by
  constructor
  · rintro ⟨a, b, c, rfl, hb⟩
    obtain ⟨d, e, rfl, hd, -⟩ := matches_append.1 hb
    obtain ⟨bs, hbs, rfl⟩ := matches_intercalate.1 hd
    exact ⟨bs, hbs, a, e ++ c, by simp⟩
  · rintro ⟨bs, hbs, a, c, rfl⟩
    refine ⟨a, _, c, rfl, matches_append.2 ⟨_, [], (List.append_nil _).symm, ?_, ?_⟩⟩
    · exact matches_intercalate.2 ⟨bs, hbs, rfl⟩
    · exact ⟨[], [], rfl, List.not_mem_nil, rfl⟩

/-! ### Coverage -/

/-- What PCRE makes of the regular expression of the names matches the path. -/
def PcreMatches (pcre : Engine) (w : List Bytes) (p : Bytes) : Prop :=
  ∃ m, pcre (regexText w) = some m ∧ (m p).isSome

/-- The names occur in the path; where one of them has a byte that means something to PCRE, it
is PCRE that decides. -/
def NamesMatch (pcre : Engine) (w : List Bytes) (p : Bytes) : Prop :=
  if ∀ name ∈ w, RegularName name then NamesOccur w p else PcreMatches pcre w p

/-- If a walk that covers the path passes below a squash, the table that is returned has a
regular expression that matches the path. -/
def RegexesCover (pcre : Engine) (o : IterOrder) (ps : PathSquasher) (p : Bytes) : Prop :=
  ∀ w n, Covers squashedName w ((segments p).take 5) → BelowSquash ps.rootNode w n →
    ∃ t, tmPathSquasherGetRegexes pcre o ps = some t ∧
      ∃ key m, t.lookup key = some m ∧ (m.exec p).isSome

/-- On regular names an engine that agrees with the fragment decides by their occurrence. -/
theorem namesMatch_iff {pcre : Engine} (hpcre : Agrees pcre) (w : List Bytes) (p : Bytes) :
    NamesMatch pcre w p ↔ PcreMatches pcre w p := by
  unfold NamesMatch
  split_ifs with hreg
  · obtain ⟨m, hm, hexec⟩ := hpcre (itemsOf w) (regular_itemsOf hreg)
    rw [print_itemsOf] at hm
    rw [← occurs_itemsOf_iff, ← hexec p]
    constructor
    · exact fun h => ⟨m, hm, h⟩
    · rintro ⟨m', hm', h⟩
      rw [hm] at hm'
      cases hm'
      exact h
  · rfl

/-- The returned table has a regular expression that matches the path exactly if the buffers
hold the texts of all leaves below a squash and the names of one of them match. -/
theorem exists_regex_iff {pcre : Engine} (o : IterOrder) (ps : PathSquasher) (p : Bytes) :
    (∃ t, tmPathSquasherGetRegexes pcre o ps = some t ∧
      ∃ key m, t.lookup key = some m ∧ (m.exec p).isSome) ↔
    (∀ w, LeafBelowSquash ps.rootNode w → TextsFit w) ∧
      ∃ w, LeafBelowSquash ps.rootNode w ∧ PcreMatches pcre w p := by
  rw [← isSome_getRegexes_iff pcre o ps]
  constructor
  · rintro ⟨t, ht, key, m, hkey, hexec⟩
    obtain ⟨hsound, hkeys⟩ := mem_getRegexes_iff ht
    obtain ⟨w, hw, rfl, -⟩ := (hkeys key).1 (AList.lookup_isSome.1 (by rw [hkey]; rfl))
    exact ⟨by rw [ht]; rfl, w, hw, m.exec, hsound _ m hkey, hexec⟩
  · rintro ⟨ht, w, hw, m, hm, hexec⟩
    obtain ⟨t, ht⟩ := Option.isSome_iff_exists.1 ht
    obtain ⟨hsound, hkeys⟩ := mem_getRegexes_iff ht
    have hmem : regexText w ∈ t := (hkeys _).2 ⟨w, hw, rfl, by rw [hm]; rfl⟩
    obtain ⟨m', hm'⟩ := Option.isSome_iff_exists.1 (AList.lookup_isSome.2 hmem)
    refine ⟨t, ht, _, m', hm', ?_⟩
    have := hsound _ _ hm'
    rw [hm] at this
    rwa [← Option.some.inj this]

/-- The names of a walk that covers a path occur in it, when single slashes separate its first
five segments. -/
theorem namesOccur_of_covers {w : List Bytes} {p : Bytes}
    (hc : Covers squashedName w ((segments p).take 5))
    (hp : ([47] : Bytes).intercalate ((segments p).take 5) <:+: p) : NamesOccur w p := by
  refine ⟨_, ?_, hp⟩
  have hseg : ∀ s ∈ (segments p).take 5, s ≠ [] ∧ 47 ∉ s := fun s hs =>
    ⟨ne_nil_of_mem_strtok (List.mem_of_mem_take hs),
      notMem_of_mem_strtok (List.mem_of_mem_take hs)⟩
  generalize (segments p).take 5 = segs at hc hseg
  unfold Covers at hc
  induction hc with
  | nil => exact .nil
  | @cons x s w segs h _ ih =>
    refine .cons ?_ (ih fun s hs => hseg s (List.mem_cons_of_mem _ hs))
    unfold NameMatches
    split_ifs with hsq
    · exact hseg s List.mem_cons_self
    · obtain rfl := h.resolve_right hsq
      exact List.forall₂_same.2 fun c _ => .inl rfl

/-- A path is covered when its own walk ends at a leaf below a squash, single slashes separate
its first five segments, the names are regular and the texts fit. -/
theorem regexesCover_of_leaf {pcre : Engine} (hpcre : Agrees pcre) (o : IterOrder)
    (ps : PathSquasher) {p : Bytes} {w : List Bytes}
    (hc : Covers squashedName w ((segments p).take 5))
    (hp : ([47] : Bytes).intercalate ((segments p).take 5) <:+: p)
    (hleaf : LeafBelowSquash ps.rootNode w) (hreg : ∀ name ∈ w, RegularName name)
    (hfit : ∀ w, LeafBelowSquash ps.rootNode w → TextsFit w) : RegexesCover pcre o ps p := by
  intro _ _ _ _
  refine (exists_regex_iff o ps p).2 ⟨hfit, w, hleaf, (namesMatch_iff hpcre w p).1 ?_⟩
  rw [NamesMatch, if_pos hreg]
  exact namesOccur_of_covers hc hp

/-- **Coverage.**  After any sequence of calls, the regular expressions cover a path exactly if
no walk that covers it passes below a squash, or the texts of the leaves below a squash fit the
buffers and the names of one of these leaves match the path. -/
theorem regexesCover_iff {pcre : Engine} (hpcre : Agrees pcre) (o : IterOrder) (cf : Int32)
    (calls : List Call) (p : Bytes) :
    RegexesCover pcre o ((tmPathSquasherAlloc cf).addPaths calls) p ↔
      (∀ w n, Covers squashedName w ((segments p).take 5) →
        ¬ BelowSquash ((tmPathSquasherAlloc cf).addPaths calls).rootNode w n) ∨
      ((∀ w, LeafBelowSquash ((tmPathSquasherAlloc cf).addPaths calls).rootNode w → TextsFit w) ∧
        ∃ w, LeafBelowSquash ((tmPathSquasherAlloc cf).addPaths calls).rootNode w ∧
          NamesMatch pcre w p) := by
  simp only [RegexesCover, exists_regex_iff, namesMatch_iff hpcre]
  constructor
  · intro h
    by_cases hw : ∃ w n, Covers squashedName w ((segments p).take 5) ∧
        BelowSquash ((tmPathSquasherAlloc cf).addPaths calls).rootNode w n
    · obtain ⟨w, n, hc, hb⟩ := hw
      exact .inr (h w n hc hb)
    · exact .inl fun w n hc hb => hw ⟨w, n, hc, hb⟩
  · rintro (h | h) w n hc hb
    · exact absurd hb (h w n hc)
    · exact h

/-- The tree after `/a/x/1` and `/a/y` with the factor `6`. -/
def squashedTree : Node :=
  .set (cstr "<ROOT>") [.squashed (cstr "a") (.set squashedName [createNode squashedName])]

/-- The squasher after `/a/x/1` and `/a/y` with the factor `6`. -/
def twoPaths : PathSquasher :=
  (tmPathSquasherAlloc 6).addPaths [.listed "/a/x/1", .listed "/a/y"]

theorem leafBelowSquash_twoPaths {w : List Bytes} :
    LeafBelowSquash twoPaths.rootNode w ↔ w = [cstr "a", squashedName, squashedName] := by
  have hroot : twoPaths.rootNode = squashedTree := rfl
  rw [hroot, LeafBelowSquash, ← exists_leafChain_belowSquash]
  have hchains : squashedTree.leafChains =
      [[(cstr "<ROOT>", false), (cstr "a", true), (squashedName, false), (squashedName, false)]] :=
    rfl
  rw [hchains]
  constructor
  · rintro ⟨chain, hchain, hnames, -⟩
    rw [List.mem_singleton.1 hchain] at hnames
    exact (List.cons.inj hnames).2.symm
  · rintro rfl
    exact ⟨_, List.mem_singleton_self _, rfl, rfl⟩

/-- The first of the two paths ends at the leaf, and is covered. -/
theorem regexesCover_leaf_path : RegexesCover reference .listed twoPaths (cstr "/a/x/1") := by
  refine (regexesCover_iff agrees_reference .listed 6 _ _).2 (.inr ⟨fun w hw => ?_, ?_⟩)
  · rw [leafBelowSquash_twoPaths.1 hw]
    decide
  · refine ⟨_, leafBelowSquash_twoPaths.2 rfl, ?_⟩
    rw [NamesMatch, if_pos (by decide)]
    exact ⟨[cstr "a", cstr "x", cstr "1"], by decide, [47], [], rfl⟩

/-- The second of the two paths ends at an inner node: its walk passes below the squash, and the
only regular expression, `(a\/[^\/]+\/[^\/]+.*)`, does not match it. -/
theorem inner_path_not_covered :
    cstr "/a/y" ∈ ([.listed "/a/x/1", .listed "/a/y"] : List Call).map Call.urlPath ∧
      ¬ RegexesCover reference .listed twoPaths (cstr "/a/y") := by
  refine ⟨by decide, fun h => ?_⟩
  obtain ⟨t, ht, key, m, hkey, hexec⟩ := h [cstr "a", squashedName]
    (.set squashedName [createNode squashedName]) (.cons (.inl rfl) (.cons (.inr rfl) .nil))
    ⟨[cstr "a"], [squashedName], .squashed (cstr "a") _, rfl, by simp,
      ⟨_, List.mem_singleton_self _, rfl, rfl⟩, rfl, _, List.mem_singleton_self _, rfl, rfl⟩
  have hkeys := mem_getRegexes_iff ht
  obtain ⟨w, hw, rfl, -⟩ := (hkeys.2 key).1 (AList.lookup_isSome.1 (by rw [hkey]; rfl))
  rw [leafBelowSquash_twoPaths.1 hw] at hkey
  have hm := hkeys.1 _ m hkey
  have hsearch : (reference (regexText [cstr "a", squashedName, squashedName])).map
      (fun exec => exec (cstr "/a/y")) = some none := by decide
  rw [hm] at hsearch
  simp [Option.some.inj hsearch] at hexec

end Tracemate.Squasher
