import Mathlib.Data.List.AList
import Tracemate.Lib.Pattern
import Tracemate.Squasher.Paths

/-!
# The regular expressions of a path tree

`tm_path_squasher_get_regexes` writes one regular expression for every leaf that lies below a
node with squashed children.  `pcre_compile` is a parameter, an `Engine`.

* `regexText`, `replaceText`: the two texts of a leaf, from the names on the way to it;
* `recurseRegex`, `tmPathSquasherGetRegexes`: the traversal; `none` is a write past the end of
  one of the buffers `regex[512]` and `replace[512]`;
* `mem_getRegexes_iff`: the table holds exactly the texts of the leaves below a squash that the
  engine compiles.
-/

namespace Tracemate.Squasher

open CStr Wildcard Pattern

/-- A `pcre_matcher`: the compiled pattern and the replacement. -/
structure PcreMatcher where
  exec : Matcher
  replace : Bytes

/-- The table from regex strings to matchers. -/
abbrev RegexTable := AList fun _ : Bytes => PcreMatcher

/-- `mtev_hash_store`, which leaves an entry of the same key alone. -/
def RegexTable.store (t : RegexTable) (key : Bytes) (m : PcreMatcher) : RegexTable :=
  if key ∈ t then t else t.insert key m

/-! ### The texts of a leaf -/

/-- What the loop over the stack appends to `regex` for a segment name. -/
def regexSegment (segmentName : Bytes) : Bytes :=
  if segmentName = squashedName then cstr "[^\\/]+" else segmentName

/-- The text in `regex`, for the names below the root. -/
def regexText (names : List Bytes) : Bytes :=
  cstr "(" ++ (cstr "\\/").intercalate (names.map regexSegment) ++ cstr ".*)"

/-- The text in `replace`, for the names below the root. -/
def replaceText (names : List Bytes) : Bytes := (cstr "/").intercalate names

/-- The size of the buffers `regex` and `replace`. -/
def bufferSize : ℕ := 512

/-- The texts and their terminators fit the buffers. -/
def TextsFit (names : List Bytes) : Prop :=
  (regexText names).length < bufferSize ∧ (replaceText names).length < bufferSize

instance (names : List Bytes) : Decidable (TextsFit names) := by
  unfold TextsFit
  infer_instance

/-! ### The traversal -/

/-- The names and the flags `children_squashed` from the root down to a node. -/
abbrev Chain := List (Bytes × Bool)

/-- The names below the root. -/
def Chain.names (chain : Chain) : List Bytes := (chain.map Prod.fst).tail

/-- `produce_regex`: some node of the chain has its children squashed. -/
def Chain.produceRegex (chain : Chain) : Bool := chain.any Prod.snd

/-- The end of the line in `recurse_regex`, with the chain that the `parent` pointers give. -/
def endOfLine (pcre : Engine) (t : RegexTable) (chain : Chain) : Option RegexTable :=
  if chain.produceRegex then
    if TextsFit chain.names then
      match pcre (regexText chain.names) with
      | none => some t
      | some m => some (t.store (regexText chain.names) ⟨m, replaceText chain.names⟩)
    else none
  else some t

mutual
/-- `recurse_regex` on a node below the chain `up`, and on everything it pushes. -/
def recurseRegex (pcre : Engine) (up : Chain) : Node → RegexTable → Option RegexTable
  | .squashed name child, t => recurseRegex pcre (up ++ [(name, true)]) child t
  | .set name [], t => endOfLine pcre t (up ++ [(name, false)])
  | .set name (c :: cs), t => recurseRegexAll pcre (up ++ [(name, false)]) (c :: cs) t
/-- The nodes pushed on the stack one after the other: the last one, with everything below it,
is popped first. -/
def recurseRegexAll (pcre : Engine) (up : Chain) : List Node → RegexTable → Option RegexTable
  | [], t => some t
  | c :: cs, t => (recurseRegexAll pcre up cs t).bind (recurseRegex pcre up c)
end

/-- `tm_path_squasher_get_regexes`. -/
def tmPathSquasherGetRegexes (pcre : Engine) (o : IterOrder) (ps : PathSquasher) :
    Option RegexTable :=
  let root := ps.rootNode.reorder o []
  recurseRegexAll pcre [(root.segmentName, root.childrenSquashed)] root.childNodes ∅

/-! ### The leaves -/

mutual
/-- The chains from a node to the leaves below it, in the order of the traversal. -/
def Node.leafChains : Node → List Chain
  | .squashed name child => child.leafChains.map ((name, true) :: ·)
  | .set name [] => [[(name, false)]]
  | .set name (c :: cs) => (Node.leafChainsAll (c :: cs)).map ((name, false) :: ·)
/-- The same for the nodes of a child set. -/
def Node.leafChainsAll : List Node → List Chain
  | [] => []
  | c :: cs => Node.leafChainsAll cs ++ c.leafChains
end

mutual
/-- The traversal runs `endOfLine` for every leaf. -/
theorem recurseRegex_eq (pcre : Engine) (up : Chain) : ∀ (n : Node) (t : RegexTable),
    recurseRegex pcre up n t =
      (n.leafChains.map (up ++ ·)).foldlM (endOfLine pcre) t
  | .squashed name child, t => by
    rw [recurseRegex, recurseRegex_eq pcre _ child, Node.leafChains, List.map_map]
    simp [Function.comp_def]
  | .set name [], t => by
    simp [recurseRegex, Node.leafChains]
  | .set name (c :: cs), t => by
    rw [recurseRegex, recurseRegexAll_eq pcre _ (c :: cs), Node.leafChains, List.map_map]
    simp [Function.comp_def]
theorem recurseRegexAll_eq (pcre : Engine) (up : Chain) : ∀ (cs : List Node) (t : RegexTable),
    recurseRegexAll pcre up cs t =
      ((Node.leafChainsAll cs).map (up ++ ·)).foldlM (endOfLine pcre) t
  | [], t => by
    rw [recurseRegexAll, Node.leafChainsAll]
    rfl
  | c :: cs, t => by
    rw [recurseRegexAll, recurseRegexAll_eq pcre up cs, Node.leafChainsAll, List.map_append,
      List.foldlM_append]
    congr 1
    funext t'
    exact recurseRegex_eq pcre up c t'
end

theorem mem_leafChainsAll {cs : List Node} {chain : Chain} :
    chain ∈ Node.leafChainsAll cs ↔ ∃ c ∈ cs, chain ∈ c.leafChains := by
  induction cs with
  | nil => simp [Node.leafChainsAll]
  | cons c cs ih => simp [Node.leafChainsAll, ih, or_comm]

/-- A leaf's chain is itself; the others start with the node and go on below it. -/
theorem mem_leafChains {n : Node} {chain : Chain} :
    chain ∈ n.leafChains ↔
      (n.childNodes = [] ∧ chain = [(n.segmentName, n.childrenSquashed)]) ∨
        ∃ c ∈ n.childNodes, ∃ rest ∈ c.leafChains,
          chain = (n.segmentName, n.childrenSquashed) :: rest := by
  cases n with
  | squashed name c => simp [Node.leafChains, Node.childrenSquashed, eq_comm]
  | set name cs =>
    cases cs with
    | nil => simp [Node.leafChains, Node.childrenSquashed]
    | cons c cs =>
      rw [Node.leafChains, List.mem_map]
      simp only [mem_leafChainsAll, Node.childNodes_set, reduceCtorEq, false_and, false_or,
        Node.segmentName_set, Node.childrenSquashed]
      constructor
      · rintro ⟨rest, ⟨d, hd, hrest⟩, rfl⟩
        exact ⟨d, hd, rest, hrest, rfl⟩
      · rintro ⟨d, hd, rest, hrest, rfl⟩
        exact ⟨rest, ⟨d, hd, hrest⟩, rfl⟩

/-- The order of the visits is irrelevant to the leaves. -/
theorem mem_leafChains_reorder (o : IterOrder) (n : Node) (path : List Bytes) {chain : Chain} :
    chain ∈ (n.reorder o path).leafChains ↔ chain ∈ n.leafChains := by
  induction n using Node.induct generalizing path chain with
  | h n ih =>
    have hperm := childNodes_reorder_perm o path n
    have hflag : (n.reorder o path).childrenSquashed = n.childrenSquashed := by
      cases n <;> rw [Node.reorder] <;> rfl
    rw [mem_leafChains, mem_leafChains, hflag, segmentName_reorder]
    refine or_congr (and_congr_left fun _ => ?_) ?_
    · rw [← List.length_eq_zero_iff, hperm.length_eq, List.length_map, List.length_eq_zero_iff]
    · simp only [hperm.mem_iff, List.mem_map, exists_exists_and_eq_and]
      exact exists_congr fun c => and_congr_right fun hc => by simp only [ih c hc]

/-! ### What the table holds -/

/-- The chain contributes the key to the table. -/
def Chain.Yields (pcre : Engine) (chain : Chain) (key : Bytes) : Prop :=
  chain.produceRegex = true ∧ key = regexText chain.names ∧ (pcre key).isSome

/-- Every entry holds what the engine makes of its key. -/
def RegexTable.Sound (pcre : Engine) (t : RegexTable) : Prop :=
  ∀ key m, t.lookup key = some m → pcre key = some m.exec

theorem RegexTable.mem_store {t : RegexTable} {key k : Bytes} {m : PcreMatcher} :
    k ∈ t.store key m ↔ k = key ∨ k ∈ t := by
  unfold store
  split_ifs with h
  · exact ⟨.inr, fun hk => hk.elim (fun hk => hk ▸ h) id⟩
  · exact AList.mem_insert t

theorem RegexTable.Sound.store {pcre : Engine} {t : RegexTable} (ht : t.Sound pcre) {key : Bytes}
    {m : PcreMatcher} (hm : pcre key = some m.exec) : (t.store key m).Sound pcre := by
  unfold RegexTable.store
  split_ifs with h
  · exact ht
  · intro k m' hk
    by_cases hkey : k = key
    · subst hkey
      rw [AList.lookup_insert] at hk
      obtain rfl : m = m' := Option.some.inj hk
      exact hm
    · rw [AList.lookup_insert_ne hkey] at hk
      exact ht k m' hk

/-- What one leaf adds to the table. -/
theorem endOfLine_spec (pcre : Engine) {t t' : RegexTable} {chain : Chain} (ht : t.Sound pcre)
    (h : endOfLine pcre t chain = some t') :
    t'.Sound pcre ∧ ∀ key, key ∈ t' ↔ key ∈ t ∨ chain.Yields pcre key := by
  unfold endOfLine at h
  unfold Chain.Yields
  split_ifs at h with hp hfit
  · cases hm : pcre (regexText chain.names) with
    | none =>
      obtain rfl : t = t' := by simpa [hm] using h
      refine ⟨ht, fun key => (or_iff_left ?_).symm⟩
      rintro ⟨-, rfl, hkey⟩
      simp [hm] at hkey
    | some m =>
      obtain rfl : t.store _ _ = t' := by simpa [hm] using h
      refine ⟨ht.store hm, fun key => ?_⟩
      rw [RegexTable.mem_store, or_comm]
      refine or_congr_right ⟨?_, fun hy => hy.2.1⟩
      rintro rfl
      exact ⟨hp, rfl, by rw [hm]; rfl⟩
  · obtain rfl : t = t' := Option.some.inj h
    refine ⟨ht, fun key => (or_iff_left fun hy => ?_).symm⟩
    exact absurd hy.1 (by simpa using hp)

/-- The chain contributes the entry to the table. -/
def Chain.Stores (pcre : Engine) (chain : Chain) (key : Bytes) (m : PcreMatcher) : Prop :=
  chain.produceRegex = true ∧ key = regexText chain.names ∧ pcre key = some m.exec ∧
    m.replace = replaceText chain.names

/-- An entry after one leaf is an old one or that of the leaf. -/
theorem lookup_endOfLine {pcre : Engine} {t t' : RegexTable} {chain : Chain}
    (h : endOfLine pcre t chain = some t') {key : Bytes} {m : PcreMatcher}
    (hm : t'.lookup key = some m) : t.lookup key = some m ∨ chain.Stores pcre key m := by
  unfold endOfLine at h
  split_ifs at h with hp hfit
  · cases hexec : pcre (regexText chain.names) with
    | none =>
      obtain rfl : t = t' := by simpa [hexec] using h
      exact .inl hm
    | some exec =>
      obtain rfl : t.store _ _ = t' := by simpa [hexec] using h
      unfold RegexTable.store at hm
      split_ifs at hm with hmem
      · exact .inl hm
      · by_cases hkey : key = regexText chain.names
        · subst hkey
          rw [AList.lookup_insert] at hm
          obtain rfl := Option.some.inj hm
          exact .inr ⟨hp, rfl, hexec, rfl⟩
        · rw [AList.lookup_insert_ne hkey] at hm
          exact .inl hm
  · obtain rfl : t = t' := Option.some.inj h
    exact .inl hm

/-- The leaf overflows no buffer. -/
theorem isSome_endOfLine (pcre : Engine) (t : RegexTable) (chain : Chain) :
    (endOfLine pcre t chain).isSome ↔ (chain.produceRegex = true → TextsFit chain.names) := by
  unfold endOfLine
  split_ifs with hp hfit
  · cases pcre (regexText chain.names) <;> simp [hfit]
  · simp [hp, hfit]
  · simp [hp]

theorem foldlM_endOfLine_spec (pcre : Engine) (chains : List Chain) {t t' : RegexTable}
    (ht : t.Sound pcre) (h : chains.foldlM (endOfLine pcre) t = some t') :
    t'.Sound pcre ∧ ∀ key, key ∈ t' ↔ key ∈ t ∨ ∃ chain ∈ chains, chain.Yields pcre key := by
  induction chains generalizing t with
  | nil =>
    obtain rfl : t = t' := Option.some.inj h
    exact ⟨ht, by simp⟩
  | cons chain chains ih =>
    rw [List.foldlM_cons] at h
    obtain ⟨u, hu, h⟩ := Option.bind_eq_some_iff.1 h
    obtain ⟨husound, hukeys⟩ := endOfLine_spec pcre ht hu
    obtain ⟨hsound, hkeys⟩ := ih husound h
    refine ⟨hsound, fun key => ?_⟩
    rw [hkeys, hukeys, or_assoc]
    simp

theorem lookup_foldlM_endOfLine {pcre : Engine} {chains : List Chain} {t t' : RegexTable}
    (h : chains.foldlM (endOfLine pcre) t = some t') {key : Bytes} {m : PcreMatcher}
    (hm : t'.lookup key = some m) :
    t.lookup key = some m ∨ ∃ chain ∈ chains, chain.Stores pcre key m := by
  induction chains generalizing t with
  | nil =>
    obtain rfl : t = t' := Option.some.inj h
    exact .inl hm
  | cons chain chains ih =>
    rw [List.foldlM_cons] at h
    obtain ⟨u, hu, h⟩ := Option.bind_eq_some_iff.1 h
    rcases ih h with hold | ⟨c, hc, hs⟩
    · refine (lookup_endOfLine hu hold).imp_right fun hs => ?_
      exact ⟨chain, List.mem_cons_self, hs⟩
    · exact .inr ⟨c, List.mem_cons_of_mem _ hc, hs⟩

theorem isSome_foldlM_endOfLine (pcre : Engine) (chains : List Chain) (t : RegexTable) :
    (chains.foldlM (endOfLine pcre) t).isSome ↔
      ∀ chain ∈ chains, chain.produceRegex = true → TextsFit chain.names := by
  induction chains generalizing t with
  | nil => simp
  | cons chain chains ih =>
    rw [List.foldlM_cons, List.forall_mem_cons, ← isSome_endOfLine pcre t chain]
    cases endOfLine pcre t chain with
    | none => simp
    | some u => simpa using ih u

/-! ### Walks below a squash -/

/-- A walk from `n` to `m` along the names `w` that passes below a node with squashed
children. -/
def BelowSquash (n : Node) (w : List Bytes) (m : Node) : Prop :=
  ∃ u v k, w = u ++ v ∧ v ≠ [] ∧ Walk n u k ∧ k.childrenSquashed = true ∧ Walk k v m

theorem BelowSquash.walk {n m : Node} {w : List Bytes} (h : BelowSquash n w m) : Walk n w m := by
  obtain ⟨u, v, k, rfl, -, hu, -, hv⟩ := h
  exact walk_append.2 ⟨k, hu, hv⟩

theorem not_belowSquash_nil {n m : Node} : ¬ BelowSquash n [] m := by
  rintro ⟨u, v, k, h, hv, -⟩
  exact hv (List.append_eq_nil_iff.1 h.symm).2

theorem belowSquash_cons {n m : Node} {x : Bytes} {w : List Bytes} :
    BelowSquash n (x :: w) m ↔ ∃ c ∈ n.childNodes, c.segmentName = x ∧
      ((n.childrenSquashed = true ∧ Walk c w m) ∨ BelowSquash c w m) := by
  constructor
  · rintro ⟨u, v, k, h, hv, hu, hk, hwalk⟩
    cases u with
    | nil =>
      obtain rfl : k = n := hu
      rw [List.nil_append] at h
      subst h
      obtain ⟨c, hc, hx, hw⟩ := hwalk
      exact ⟨c, hc, hx, .inl ⟨hk, hw⟩⟩
    | cons y u =>
      obtain ⟨rfl, rfl⟩ := List.cons.inj h
      obtain ⟨c, hc, hx, hu⟩ := hu
      exact ⟨c, hc, hx, .inr ⟨u, v, k, rfl, hv, hu, hk, hwalk⟩⟩
  · rintro ⟨c, hc, hx, ⟨hn, hw⟩ | ⟨u, v, k, rfl, hv, hu, hk, hwalk⟩⟩
    · exact ⟨[], x :: w, n, rfl, by simp, rfl, hn, c, hc, hx, hw⟩
    · exact ⟨x :: u, v, k, rfl, hv, ⟨c, hc, hx, hu⟩, hk, hwalk⟩

theorem exists_eq_cons_of_mem_leafChains {n : Node} {chain : Chain} (h : chain ∈ n.leafChains) :
    ∃ rest, chain = (n.segmentName, n.childrenSquashed) :: rest := by
  rcases mem_leafChains.1 h with ⟨-, rfl⟩ | ⟨c, -, rest, -, rfl⟩
  · exact ⟨[], rfl⟩
  · exact ⟨rest, rfl⟩

/-- A node without nodes below it has not had its children squashed. -/
theorem childrenSquashed_of_leaf {n : Node} (h : n.childNodes = []) :
    n.childrenSquashed = false := by
  cases n with
  | set name cs => rfl
  | squashed name c => cases h

/-- A chain through a node below: the flag of the node, or that of the rest. -/
theorem exists_leafChain_cons {n : Node} {x : Bytes} {w : List Bytes} {P : Chain → Prop} :
    (∃ chain ∈ n.leafChains, chain.map Prod.fst = n.segmentName :: x :: w ∧ P chain) ↔
      ∃ c ∈ n.childNodes, c.segmentName = x ∧ ∃ rest ∈ c.leafChains,
        rest.map Prod.fst = c.segmentName :: w ∧
          P ((n.segmentName, n.childrenSquashed) :: rest) := by
  constructor
  · rintro ⟨chain, hchain, hnames, hP⟩
    rcases mem_leafChains.1 hchain with ⟨-, rfl⟩ | ⟨c, hc, rest, hrest, rfl⟩
    · simp at hnames
    · obtain ⟨rest', rfl⟩ := exists_eq_cons_of_mem_leafChains hrest
      simp only [List.map_cons, List.cons.injEq, true_and] at hnames
      exact ⟨c, hc, hnames.1, _, hrest, by simp [hnames.2], hP⟩
  · rintro ⟨c, hc, rfl, rest, hrest, hnames, hP⟩
    exact ⟨_, mem_leafChains.2 (.inr ⟨c, hc, rest, hrest, rfl⟩), by simp [hnames], hP⟩

/-- The chains of the leaves are the walks to them. -/
theorem exists_leafChain_walk {n : Node} {w : List Bytes} :
    (∃ chain ∈ n.leafChains, chain.map Prod.fst = n.segmentName :: w) ↔
      ∃ m, Walk n w m ∧ m.childNodes = [] := by
  induction w generalizing n with
  | nil =>
    constructor
    · rintro ⟨chain, hchain, hnames⟩
      rcases mem_leafChains.1 hchain with ⟨hleaf, -⟩ | ⟨c, hc, rest, hrest, rfl⟩
      · exact ⟨n, rfl, hleaf⟩
      · obtain ⟨rest', rfl⟩ := exists_eq_cons_of_mem_leafChains hrest
        simp at hnames
    · rintro ⟨m, hm, hleaf⟩
      obtain rfl : m = n := hm
      exact ⟨_, mem_leafChains.2 (.inl ⟨hleaf, rfl⟩), rfl⟩
  | cons x w ih =>
    have hcons := exists_leafChain_cons (n := n) (x := x) (w := w) (P := fun _ => True)
    simp only [and_true] at hcons
    rw [hcons]
    simp only [ih, Walk]
    constructor
    · rintro ⟨c, hc, hx, m, hm, hleaf⟩
      exact ⟨m, ⟨c, hc, hx, hm⟩, hleaf⟩
    · rintro ⟨m, ⟨c, hc, hx, hm⟩, hleaf⟩
      exact ⟨c, hc, hx, m, hm, hleaf⟩

/-- `produce_regex` is set exactly for the walks that pass below a squash. -/
theorem exists_leafChain_belowSquash {n : Node} {w : List Bytes} :
    (∃ chain ∈ n.leafChains, chain.map Prod.fst = n.segmentName :: w ∧
      Chain.produceRegex chain = true) ↔ ∃ m, BelowSquash n w m ∧ m.childNodes = [] := by
  induction w generalizing n with
  | nil =>
    constructor
    · rintro ⟨chain, hchain, hnames, hp⟩
      rcases mem_leafChains.1 hchain with ⟨hleaf, rfl⟩ | ⟨c, hc, rest, hrest, rfl⟩
      · simp [Chain.produceRegex, childrenSquashed_of_leaf hleaf] at hp
      · obtain ⟨rest', rfl⟩ := exists_eq_cons_of_mem_leafChains hrest
        simp at hnames
    · rintro ⟨m, hm, -⟩
      exact absurd hm not_belowSquash_nil
  | cons x w ih =>
    rw [exists_leafChain_cons]
    simp only [belowSquash_cons, Chain.produceRegex, List.any_cons, Bool.or_eq_true]
    constructor
    · rintro ⟨c, hc, hx, rest, hrest, hnames, hn | hp⟩
      · obtain ⟨m, hm, hleaf⟩ := exists_leafChain_walk.1 ⟨rest, hrest, hnames⟩
        exact ⟨m, ⟨c, hc, hx, .inl ⟨hn, hm⟩⟩, hleaf⟩
      · obtain ⟨m, hm, hleaf⟩ := ih.1 ⟨rest, hrest, hnames, hp⟩
        exact ⟨m, ⟨c, hc, hx, .inr hm⟩, hleaf⟩
    · rintro ⟨m, ⟨c, hc, hx, ⟨hn, hm⟩ | hm⟩, hleaf⟩
      · obtain ⟨rest, hrest, hnames⟩ := exists_leafChain_walk.2 ⟨m, hm, hleaf⟩
        exact ⟨c, hc, hx, rest, hrest, hnames, .inl hn⟩
      · obtain ⟨rest, hrest, hnames, hp⟩ := ih.2 ⟨m, hm, hleaf⟩
        exact ⟨c, hc, hx, rest, hrest, hnames, .inr hp⟩

/-! ### The table -/

/-- A leaf below a squash, by the names on the way to it. -/
def LeafBelowSquash (root : Node) (w : List Bytes) : Prop :=
  ∃ m, BelowSquash root w m ∧ m.childNodes = []

/-- The chains that the traversal runs `endOfLine` for. -/
theorem getRegexes_eq (pcre : Engine) (o : IterOrder) (ps : PathSquasher) :
    tmPathSquasherGetRegexes pcre o ps =
      ((Node.leafChainsAll (ps.rootNode.reorder o []).childNodes).map
        ([((ps.rootNode.reorder o []).segmentName,
          (ps.rootNode.reorder o []).childrenSquashed)] ++ ·)).foldlM (endOfLine pcre) ∅ :=
  recurseRegexAll_eq ..

/-- They are the chains of the leaves, for a root with children. -/
theorem mem_rootChains {o : IterOrder} {root : Node} {w : List Bytes} :
    (∃ chain ∈ (Node.leafChainsAll (root.reorder o []).childNodes).map
        ([((root.reorder o []).segmentName, (root.reorder o []).childrenSquashed)] ++ ·),
      Chain.names chain = w ∧ Chain.produceRegex chain = true) ↔ LeafBelowSquash root w := by
  rw [LeafBelowSquash, ← exists_leafChain_belowSquash]
  simp only [← mem_leafChains_reorder o root []]
  constructor
  · rintro ⟨_, hmem, hnames, hp⟩
    obtain ⟨rest, hrest, rfl⟩ := List.mem_map.1 hmem
    obtain ⟨c, hc, hrest⟩ := mem_leafChainsAll.1 hrest
    refine ⟨_, mem_leafChains.2 (.inr ⟨c, hc, rest, hrest, rfl⟩), ?_, hp⟩
    rw [← hnames]
    simp [Chain.names]
  · rintro ⟨chain, hchain, hnames, hp⟩
    rcases mem_leafChains.1 hchain with ⟨hleaf, rfl⟩ | ⟨c, hc, rest, hrest, rfl⟩
    · simp [Chain.produceRegex, childrenSquashed_of_leaf hleaf] at hp
    · refine ⟨_, List.mem_map.2 ⟨rest, mem_leafChainsAll.2 ⟨c, hc, hrest⟩, rfl⟩, ?_, hp⟩
      simpa [Chain.names] using hnames

/-- The traversal stays within its buffers exactly if the texts of all leaves below a squash
fit. -/
theorem isSome_getRegexes_iff (pcre : Engine) (o : IterOrder) (ps : PathSquasher) :
    (tmPathSquasherGetRegexes pcre o ps).isSome ↔
      ∀ w, LeafBelowSquash ps.rootNode w → TextsFit w := by
  rw [getRegexes_eq, isSome_foldlM_endOfLine]
  simp only [← mem_rootChains (o := o)]
  constructor
  · rintro h w ⟨chain, hmem, rfl, hp⟩
    exact h chain hmem hp
  · intro h chain hmem hp
    exact h _ ⟨chain, hmem, rfl, hp⟩

/-- The table holds exactly the texts of the leaves below a squash that the engine compiles,
each with what the engine makes of it. -/
theorem mem_getRegexes_iff {pcre : Engine} {o : IterOrder} {ps : PathSquasher} {t : RegexTable}
    (h : tmPathSquasherGetRegexes pcre o ps = some t) :
    t.Sound pcre ∧ ∀ key, key ∈ t ↔
      ∃ w, LeafBelowSquash ps.rootNode w ∧ key = regexText w ∧ (pcre key).isSome := by
  rw [getRegexes_eq] at h
  have hempty : (∅ : RegexTable).Sound pcre := fun key m hm => by
    rw [AList.lookup_empty] at hm
    cases hm
  obtain ⟨hsound, hkeys⟩ := foldlM_endOfLine_spec pcre _ hempty h
  refine ⟨hsound, fun key => ?_⟩
  rw [hkeys, or_iff_right (AList.notMem_empty key)]
  simp only [← mem_rootChains (o := o), Chain.Yields]
  constructor
  · rintro ⟨chain, hmem, hp, hkey, hpcre⟩
    exact ⟨_, ⟨chain, hmem, rfl, hp⟩, hkey, hpcre⟩
  · rintro ⟨w, ⟨chain, hmem, rfl, hp⟩, hkey, hpcre⟩
    exact ⟨chain, hmem, hp, hkey, hpcre⟩

/-- Every entry of the table was made for a leaf below a squash. -/
theorem exists_leaf_of_lookup {pcre : Engine} {o : IterOrder} {ps : PathSquasher} {t : RegexTable}
    (h : tmPathSquasherGetRegexes pcre o ps = some t) {key : Bytes} {m : PcreMatcher}
    (hm : t.lookup key = some m) :
    ∃ w, LeafBelowSquash ps.rootNode w ∧ key = regexText w ∧ pcre key = some m.exec ∧
      m.replace = replaceText w := by
  rw [getRegexes_eq] at h
  rcases lookup_foldlM_endOfLine h hm with hempty | ⟨chain, hmem, hp, hs⟩
  · rw [AList.lookup_empty] at hempty
    cases hempty
  · exact ⟨_, mem_rootChains.1 ⟨chain, hmem, rfl, hp⟩, hs⟩

end Tracemate.Squasher
