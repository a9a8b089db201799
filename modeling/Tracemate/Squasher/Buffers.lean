import Tracemate.Squasher.Cardinality
import Tracemate.Squasher.Regexes

/-!
# The buffers of the regular expressions

`recurse_regex` writes the texts of a leaf to buffers of 512 bytes with `strcat`, and no function
bounds the names that a call adds to the tree.

* `textLength`, `textsFit_iff`: how long the texts of a leaf are;
* `TextPath`, `FitAt`: the ways below a squash, and that their texts fit;
* `CallTextsFit`: the texts of whatever a call adds below a squash, or squashes, fit;
* `fitAt_addSegments_iff`: one call keeps the texts within their buffers exactly under that
  condition;
* `regexes_fit_iff`: the same over runs.
-/

namespace Tracemate.Squasher

open CStr Runs Pattern

/-! ### The lengths -/

/-- What a name adds to the text in `regex`, without the separator. -/
def nameLength (name : Bytes) : ℕ := if name = squashedName then 6 else name.length

/-- The length of the text in `regex`: the brackets, the names and the separators. -/
def textLength (names : List Bytes) : ℕ :=
  (names.map nameLength).sum + 2 * (names.length - 1) + 4

theorem length_regexSegment (name : Bytes) : (regexSegment name).length = nameLength name := by
  unfold regexSegment nameLength
  split_ifs
  · rfl
  · rfl

theorem length_intercalate (sep : Bytes) (xs : List Bytes) :
    (sep.intercalate xs).length = (xs.map List.length).sum + sep.length * (xs.length - 1) := by
  induction xs with
  | nil => simp
  | cons x xs ih =>
    cases xs with
    | nil => simp
    | cons y ys =>
      rw [List.intercalate_cons_cons, List.length_append, List.length_append, ih]
      simp only [List.map_cons, List.sum_cons, List.length_cons, Nat.add_sub_cancel]
      ring

theorem length_regexText (names : List Bytes) : (regexText names).length = textLength names := by
  have hsep : (cstr "\\/").length = 2 := rfl
  have hopen : (cstr "(").length = 1 := rfl
  have hclose : (cstr ".*)").length = 3 := rfl
  have hnames : (names.map regexSegment).map List.length = names.map nameLength := by
    rw [List.map_map]
    exact List.map_congr_left fun name _ => length_regexSegment name
  rw [regexText, List.length_append, List.length_append, length_intercalate, hnames, hsep, hopen,
    hclose, List.length_map, textLength]
  omega

theorem length_le_nameLength (name : Bytes) : name.length ≤ nameLength name := by
  unfold nameLength
  split_ifs with h
  · rw [h]
    decide
  · exact le_rfl

/-- The replacement is shorter than the pattern. -/
theorem length_replaceText_le (names : List Bytes) :
    (replaceText names).length ≤ textLength names := by
  have hsep : (cstr "/").length = 1 := rfl
  have hsum : (names.map List.length).sum ≤ (names.map nameLength).sum :=
    List.sum_le_sum fun name _ => length_le_nameLength name
  rw [replaceText, length_intercalate, hsep, textLength]
  omega

/-- The texts fit exactly if the pattern does. -/
theorem textsFit_iff {names : List Bytes} : TextsFit names ↔ textLength names < bufferSize := by
  unfold TextsFit
  rw [length_regexText]
  exact and_iff_left_of_imp fun h => (length_replaceText_le names).trans_lt h

/-- The texts of the start of a way are shorter. -/
theorem TextsFit.of_append {u v : List Bytes} (h : TextsFit (u ++ v)) : TextsFit u := by
  rw [textsFit_iff] at h ⊢
  refine lt_of_le_of_lt ?_ h
  unfold textLength
  rw [List.map_append, List.sum_append, List.length_append]
  omega

/-! ### Ways below a squash -/

/-- The names `w` lead from `n` to a node below a squash; `below` tells that `n` is one. -/
def TextPath : Bool → Node → List Bytes → Prop
  | below, _, [] => below = true
  | below, n, x :: w => ∃ c ∈ n.childNodes, c.segmentName = x ∧
      TextPath (below || n.childrenSquashed) c w

/-- The texts of the ways below a squash fit; the names `up` lead to `n`. -/
def FitAt (below : Bool) (up : List Bytes) (n : Node) : Prop :=
  ∀ w, TextPath below n w → TextsFit (up ++ w)

theorem textPath_true {n : Node} {w : List Bytes} : TextPath true n w ↔ w ∈ n.paths := by
  induction w generalizing n with
  | nil => simp [TextPath]
  | cons x w ih => simp only [TextPath, Bool.true_or, ih, cons_mem_paths]

theorem textPath_false {n : Node} {w : List Bytes} :
    TextPath false n w ↔ ∃ m, BelowSquash n w m := by
  induction w generalizing n with
  | nil => simp [TextPath, not_belowSquash_nil]
  | cons x w ih =>
    simp only [TextPath, Bool.false_or, belowSquash_cons]
    constructor
    · rintro ⟨c, hc, hx, hw⟩
      cases hn : n.childrenSquashed with
      | true =>
        rw [hn] at hw
        obtain ⟨m, hm⟩ := textPath_true.1 hw
        exact ⟨m, c, hc, hx, .inl ⟨rfl, hm⟩⟩
      | false =>
        rw [hn] at hw
        obtain ⟨m, hm⟩ := ih.1 hw
        exact ⟨m, c, hc, hx, .inr hm⟩
    · rintro ⟨m, c, hc, hx, hm⟩
      refine ⟨c, hc, hx, ?_⟩
      cases hn : n.childrenSquashed with
      | true => exact textPath_true.2 (hm.elim (fun h => ⟨m, h.2⟩) fun h => ⟨m, h.walk⟩)
      | false => exact ih.2 ⟨m, hm.resolve_left (by simp [hn])⟩

theorem fitAt_iff {below : Bool} {up : List Bytes} {n : Node} :
    FitAt below up n ↔ (below = true → TextsFit up) ∧
      ∀ c ∈ n.childNodes, FitAt (below || n.childrenSquashed) (up ++ [c.segmentName]) c := by
  constructor
  · intro h
    refine ⟨fun hb => by simpa using h [] hb, fun c hc w hw => ?_⟩
    simpa using h (c.segmentName :: w) ⟨c, hc, rfl, hw⟩
  · rintro ⟨hnil, hbelow⟩ w hw
    cases w with
    | nil => simpa using hnil hw
    | cons x w =>
      obtain ⟨c, hc, rfl, hw⟩ := hw
      simpa using hbelow c hc w hw

theorem fitAt_createNode {below : Bool} {up : List Bytes} {name : Bytes} :
    FitAt below up (createNode name) ↔ (below = true → TextsFit up) := by
  rw [fitAt_iff]
  exact and_iff_left (by simp [createNode])

/-- Every node has a leaf below it. -/
theorem exists_walk_leaf (n : Node) : ∃ w m, Walk n w m ∧ m.childNodes = [] := by
  induction n using Node.induct with
  | h n ih =>
    cases hcs : n.childNodes with
    | nil => exact ⟨[], n, rfl, hcs⟩
    | cons c cs =>
      have hc : c ∈ n.childNodes := hcs ▸ List.mem_cons_self
      obtain ⟨w, m, hw, hm⟩ := ih c hc
      exact ⟨c.segmentName :: w, m, ⟨c, hc, rfl, hw⟩, hm⟩

/-- The texts of all leaves below a squash fit exactly if those of all ways below one do. -/
theorem fitAt_root_iff {root : Node} :
    FitAt false [] root ↔ ∀ w, LeafBelowSquash root w → TextsFit w := by
  constructor
  · rintro h w ⟨m, hm, -⟩
    simpa using h w (textPath_false.2 ⟨m, hm⟩)
  · intro h w hw
    obtain ⟨m, u, v, k, rfl, hv, hu, hk, hwalk⟩ := textPath_false.1 hw
    obtain ⟨v', l, hl, hleaf⟩ := exists_walk_leaf m
    have hlong : LeafBelowSquash root (u ++ v ++ v') :=
      ⟨l, ⟨u, v ++ v', k, by simp, by simp [hv], hu, hk, walk_append.2 ⟨m, hwalk, hl⟩⟩, hleaf⟩
    exact (h _ hlong).of_append

/-! ### Which calls fit -/

/-- The texts of the ways through the nodes `L`, below the names `up`, fit. -/
def MergeTextsFit (up : List Bytes) (L : List Node) : Prop :=
  ∀ l ∈ L, ∀ w ∈ l.paths, TextsFit (up ++ w)

/-- The texts of what a call makes of the merge of the nodes `L`, below the names `up`, fit: of a
set that it squashes in turn, of the names that it leaves alone, and of the one it moves to. -/
def MergedCallTextsFit (cf : Int32) : ℕ → List Bytes → List Bytes → List Node → Prop
  | _, up, [], L => TextsFit up ∧ MergeTextsFit up L
  | depth, up, segment :: rest, L =>
    TextsFit up ∧
      if cardinalityLimit cf depth < (namesWith segment L).length then
        if depth < 4 then
          MergedCallTextsFit cf (depth + 1) (up ++ [squashedName]) rest (levelBelow L)
        else
          TextsFit (up ++ [squashedName]) ∧ MergeTextsFit (up ++ [squashedName]) (levelBelow L)
      else
        (∀ x ≠ segment, MergeTextsFit (up ++ [x]) (under x L)) ∧
          if depth < 4 then
            MergedCallTextsFit cf (depth + 1) (up ++ [segment]) rest (under segment L)
          else TextsFit (up ++ [segment]) ∧ MergeTextsFit (up ++ [segment]) (under segment L)

/-- The texts of whatever the call with these segments adds below a squash, and of what it
squashes, fit; `below` tells that the node is below a squash, and the names `up` lead to it. -/
def CallTextsFit (cf : Int32) : Bool → ℕ → List Bytes → List Bytes → Node → Prop
  | _, _, _, [], _ => True
  | _, depth, up, _ :: rest, .squashed _ child =>
    depth < 4 → CallTextsFit cf true (depth + 1) (up ++ [squashedName]) rest child
  | below, depth, up, segment :: rest, .set _ children =>
    if depth ≠ 0 ∧ cardinalityLimit cf depth < (getOrCreate segment id children).length then
      if depth < 4 then
        MergedCallTextsFit cf (depth + 1) (up ++ [squashedName]) rest children
      else TextsFit (up ++ [squashedName]) ∧ MergeTextsFit (up ++ [squashedName]) children
    else
      (below = true → TextsFit (up ++ [segment])) ∧
        (depth < 4 →
          CallTextsFit cf below (depth + 1) (up ++ [segment]) rest (lookupChild segment children))

/-! ### One call -/

section OneCall

variable {cf : Int32} {orders : ℕ → IterOrder} {up : List Bytes}

/-- The texts of a merged node. -/
theorem fitAt_iff_mergeTextsFit {n : Node} {L : List Node} (hm : IsMerge n L) :
    FitAt true up n ↔ TextsFit up ∧ MergeTextsFit up L := by
  simp only [FitAt, textPath_true, hm _]
  constructor
  · intro h
    exact ⟨by simpa using h [] (.inl rfl), fun l hl w hw => h w (.inr ⟨l, hl, hw⟩)⟩
  · rintro ⟨hup, hL⟩ w (rfl | ⟨l, hl, hw⟩)
    · simpa using hup
    · exact hL l hl w hw

/-- The texts of a node whose children have been squashed. -/
theorem fitAt_squashed {below : Bool} {name : Bytes} {c : Node}
    (hc : c.segmentName = squashedName) :
    FitAt below up (.squashed name c) ↔
      (below = true → TextsFit up) ∧ FitAt true (up ++ [squashedName]) c := by
  rw [fitAt_iff]
  simp [Node.childrenSquashed, hc]

/-- The texts of a node whose children are left as they are: those of the children the call does
not move to, and those of the one it moves to. -/
theorem fitAt_getOrCreate {below : Bool} {k : Node → Node} (hk : KeepsName k) {s name : Bytes}
    {cs : List Node} (hnames : (cs.map Node.segmentName).Nodup) :
    FitAt below up (.set name (getOrCreate s k cs)) ↔
      (below = true → TextsFit up) ∧
        (∀ c ∈ cs, c.segmentName ≠ s → FitAt below (up ++ [c.segmentName]) c) ∧
          FitAt below (up ++ [s]) (k (lookupChild s cs)) := by
  have hname : (k (lookupChild s cs)).segmentName = s := by
    rw [hk]
    exact (lookupChild_spec s cs).elim (fun h => h.2) fun h => by rw [h.2]; rfl
  rw [fitAt_iff, Node.childNodes_set, forall_mem_getOrCreate hnames, hname]
  simp [Node.childrenSquashed]

/-- The names of a merged child set are those with a node below the merged ones. -/
theorem IsMerge.mem_names_iff_under {name : Bytes} {cs L : List Node}
    (hm : IsMerge (.set name cs) L) {x : Bytes} :
    x ∈ cs.map Node.segmentName ↔ ∃ l, l ∈ under x L := by
  rw [hm.mem_names_iff, mem_nextNames]
  constructor
  · intro h
    obtain ⟨l, hl, -⟩ := exists_mem_under.2 h
    exact ⟨l, hl⟩
  · rintro ⟨l, hl⟩
    exact exists_mem_under.1 ⟨l, hl, nil_mem_paths l⟩

/-- The children of a merged node that the call does not move to. -/
theorem forall_fitAt_iff_mergeTextsFit {s name : Bytes} {cs L : List Node}
    (hnames : (cs.map Node.segmentName).Nodup) (hm : IsMerge (.set name cs) L) :
    (∀ c ∈ cs, c.segmentName ≠ s → FitAt true (up ++ [c.segmentName]) c) ↔
      ∀ x ≠ s, MergeTextsFit (up ++ [x]) (under x L) := by
  constructor
  · intro hfit x hx l hl
    obtain ⟨c, hc, rfl⟩ := List.mem_map.1 (hm.mem_names_iff_under.2 ⟨l, hl⟩)
    exact ((fitAt_iff_mergeTextsFit (hm.child hnames hc)).1 (hfit c hc hx)).2 l hl
  · intro hfit c hc hx
    obtain ⟨l, hl⟩ := hm.mem_names_iff_under.1 (List.mem_map_of_mem hc)
    refine (fitAt_iff_mergeTextsFit (hm.child hnames hc)).2 ⟨?_, hfit _ hx⟩
    simpa using hfit _ hx l hl [] (nil_mem_paths l)

/-- What the rest of a call does to the node that it moves to. -/
theorem fitAt_descend {below : Bool} {depth : ℕ} {rest : List Bytes} {n : Node} {P Q : Prop}
    (hP : FitAt below up n ↔ P) (h4 : depth ≤ 4)
    (hQ : depth < 4 → (FitAt below up (addSegments cf orders (depth + 1) rest n) ↔ Q)) :
    FitAt below up (descend cf orders depth rest n) ↔ if depth < 4 then Q else P := by
  unfold descend
  by_cases hd : depth < 4
  · rw [if_neg (by omega), if_pos hd]
    exact hQ hd
  · rw [if_pos (by omega), if_neg hd]
    exact hP

/-- What a call does to a merged node fits exactly under the condition. -/
theorem fitAt_addSegments_merged (segs : List Bytes) {depth : ℕ} {n : Node} {L : List Node}
    (h1 : 1 ≤ depth) (h4 : depth ≤ 4) (hp : n.Plain) (hn : n.WellFormed) (hm : IsMerge n L) :
    FitAt true up (addSegments cf orders depth segs n) ↔ MergedCallTextsFit cf depth up segs L := by
  induction segs generalizing depth up n L with
  | nil => exact fitAt_iff_mergeTextsFit hm
  | cons s rest ih =>
    cases hp with
    | @set name cs hcs =>
    cases hn with
    | set hnames hwf =>
    rw [MergedCallTextsFit, ← hm.length_getOrCreate hnames s]
    by_cases hlt : cardinalityLimit cf depth < (getOrCreate s id cs).length
    · have hms := hm.squashedChild (orders depth) s
      have hname : (descend cf orders depth rest
          (squashedChild (orders depth) name (getOrCreate s id cs))).segmentName = squashedName := by
        rw [keepsName_descend]
        exact segmentName_squashInto _
      rw [if_pos hlt, addSegments_set_of_lt ⟨by omega, hlt⟩, fitAt_squashed hname,
        fitAt_descend (fitAt_iff_mergeTextsFit hms) h4 fun hd =>
          ih (by omega) (by omega) (plain_squashInto _) (wellFormed_squashInto _) hms]
      simp
    · have hml := hm.lookupChild hnames s
      rw [if_neg hlt, addSegments_set_of_not_lt fun h => hlt h.2,
        fitAt_getOrCreate (keepsName_descend _ _ _ _) hnames,
        forall_fitAt_iff_mergeTextsFit hnames hm,
        fitAt_descend (fitAt_iff_mergeTextsFit hml) h4 fun hd =>
          ih (by omega) (by omega) (plain_lookupChild hcs s) (wellFormed_lookupChild hwf s) hml]
      simp

/-- One call keeps the texts within the buffers exactly under the condition. -/
theorem fitAt_addSegments_iff (segs : List Bytes) {below : Bool} {depth : ℕ} {n : Node}
    (h4 : depth ≤ 4) (hn : n.WellFormed) (hfit : FitAt below up n) :
    FitAt below up (addSegments cf orders depth segs n) ↔
      CallTextsFit cf below depth up segs n := by
  induction segs generalizing below depth up n with
  | nil => exact iff_of_true hfit trivial
  | cons s rest ih =>
    -- the rest of the call, on a node whose texts fit
    have hdescend : ∀ {b : Bool} {v : List Bytes} {m : Node}, m.WellFormed → FitAt b v m →
        (FitAt b v (descend cf orders depth rest m) ↔
          (depth < 4 → CallTextsFit cf b (depth + 1) v rest m)) := by
      intro b v m hwf hm
      rw [fitAt_descend (iff_true_intro hm) h4 fun hd => ih (by omega) hwf hm]
      by_cases hd : depth < 4
      · simp [hd]
      · simp [hd]
    cases hn with
    | @squashed name c hc hwf =>
      obtain ⟨hup, hbelow⟩ := (fitAt_squashed hc).1 hfit
      have hname : (descend cf orders depth rest c).segmentName = squashedName := by
        rw [keepsName_descend, hc]
      rw [addSegments_squashed, fitAt_squashed hname, CallTextsFit, and_iff_right hup]
      exact hdescend hwf hbelow
    | @set name cs hnames hwf =>
      obtain ⟨hup, hbelow⟩ := fitAt_iff.1 hfit
      simp only [Node.childNodes_set, Node.childrenSquashed, Bool.or_false] at hbelow
      rw [CallTextsFit]
      by_cases h : depth ≠ 0 ∧ cardinalityLimit cf depth < (getOrCreate s id cs).length
      · have hm := isMerge_squashedChild (orders depth) name s cs
        have hname : (descend cf orders depth rest
            (squashedChild (orders depth) name (getOrCreate s id cs))).segmentName =
              squashedName := by
          rw [keepsName_descend]
          exact segmentName_squashInto _
        rw [if_pos h, addSegments_set_of_lt h, fitAt_squashed hname, and_iff_right hup]
        exact fitAt_descend (fitAt_iff_mergeTextsFit hm) h4 fun hd =>
          fitAt_addSegments_merged rest (by omega) (by omega) (plain_squashInto _)
            (wellFormed_squashInto _) hm
      · rw [if_neg h, addSegments_set_of_not_lt h,
          fitAt_getOrCreate (keepsName_descend _ _ _ _) hnames, and_iff_right hup,
          and_iff_right fun c hc _ => hbelow c hc]
        have hchild (hs : below = true → TextsFit (up ++ [s])) :
            FitAt below (up ++ [s]) (lookupChild s cs) := by
          rcases lookupChild_spec s cs with ⟨hmem, hname⟩ | ⟨-, hnew⟩
          · have := hbelow _ hmem
            rwa [hname] at this
          · rw [hnew]
            exact fitAt_createNode.2 hs
        have hwfl := wellFormed_lookupChild hwf s
        constructor
        · intro hfit'
          have hs := (fitAt_iff.1 hfit').1
          exact ⟨hs, (hdescend hwfl (hchild hs)).1 hfit'⟩
        · rintro ⟨hs, hrest⟩
          exact (hdescend hwfl (hchild hs)).2 hrest

end OneCall

/-! ### Runs -/

/-- `recurse_regex` stays within its buffers for every leaf of the tree. -/
theorem isSome_getRegexes_iff_fitAt {ps : PathSquasher} :
    (∀ (pcre : Engine) (o : IterOrder), (tmPathSquasherGetRegexes pcre o ps).isSome) ↔
      FitAt false [] ps.rootNode := by
  simp only [isSome_getRegexes_iff, fitAt_root_iff]
  exact ⟨fun h => h reference .listed, fun h _ _ => h⟩

/-- **Buffers over runs.**  After every call of a run the texts of every leaf below a squash fit
their buffers, and `recurse_regex` stays within them, exactly if every call keeps what it adds
below a squash, and what it squashes, short enough. -/
theorem regexes_fit_iff {cf : Int32} {tr : List (Event PathSquasher Call)} {ps : PathSquasher}
    (h : Run addPathStep (tmPathSquasherAlloc cf) tr ps) :
    (∀ e ∈ tr, (∀ w, LeafBelowSquash e.after.rootNode w → TextsFit w) ∧
        ∀ (pcre : Engine) (o : IterOrder), (tmPathSquasherGetRegexes pcre o e.after).isSome) ↔
      ∀ e ∈ tr, CallTextsFit cf false 0 [] (segments e.label.urlPath) e.before.rootNode := by
  have hfactor := (cardinalityFactor_of_run h).1
  have hiff := h.forall_iff (fun u => u.cardinalityFactor = cf ∧ FitAt false [] u.rootNode)
    (fun u call => CallTextsFit cf false 0 [] (segments call.urlPath) u.rootNode)
    ⟨rfl, fitAt_createNode.2 (by simp)⟩ (by
      rintro u call _ ⟨hu, hfit⟩ rfl
      subst hu
      exact (and_iff_right rfl).trans (fitAt_addSegments_iff _ (by omega) u.wellFormed hfit))
  rw [← hiff]
  refine forall₂_congr fun e he => ?_
  rw [and_iff_right (hfactor e he).2, isSome_getRegexes_iff_fitAt, ← fitAt_root_iff, and_self_iff]

/-- Two children of a node are squashed; the texts of what is left are short. -/
theorem regexes_fit_two_leaves :
    ∃ tr ps, Run addPathStep (tmPathSquasherAlloc 6) tr ps ∧ tr.length = 2 ∧
      ∀ e ∈ tr, (∀ w, LeafBelowSquash e.after.rootNode w → TextsFit w) ∧
        ∀ (pcre : Engine) (o : IterOrder), (tmPathSquasherGetRegexes pcre o e.after).isSome := by
  have h : Run addPathStep (tmPathSquasherAlloc 6) _ _ :=
    (Run.single (a := .listed "/a/x") rfl).snoc (a := .listed "/a/y") rfl
  refine ⟨_, _, h, rfl, (regexes_fit_iff h).2 fun e he => ?_⟩
  simp only [List.cons_append, List.nil_append, List.mem_cons, List.not_mem_nil, or_false] at he
  rcases he with rfl | rfl
  · show CallTextsFit 6 false 0 [] [cstr "a", cstr "x"] (createNode (cstr "<ROOT>"))
    rw [createNode, CallTextsFit, if_neg (by decide)]
    refine ⟨by simp, fun _ => ?_⟩
    show CallTextsFit 6 false 1 [cstr "a"] [cstr "x"] (createNode (cstr "a"))
    rw [createNode, CallTextsFit, if_neg (by decide)]
    exact ⟨by simp, fun _ => trivial⟩
  · show CallTextsFit 6 false 0 [] [cstr "a", cstr "y"] oneChild
    rw [oneChild, CallTextsFit, if_neg (by decide)]
    refine ⟨by simp, fun _ => ?_⟩
    show CallTextsFit 6 false 1 [cstr "a"] [cstr "y"]
      (.set (cstr "a") [createNode (cstr "x")])
    rw [CallTextsFit, if_pos (by decide), if_pos (by decide)]
    refine ⟨by decide, fun l hl w hw => ?_⟩
    obtain rfl := List.mem_singleton.1 hl
    obtain rfl : w = [] := by simpa using hw
    decide

/-- A name of 600 bytes. -/
def longName : Bytes := List.replicate 600 120

theorem length_longName : longName.length = 600 := List.length_replicate

theorem segments_longName : segments (47 :: (longName ++ [47, 98])) = [longName, [98]] := by
  have hmem : (47 : UInt8) ∉ longName := fun h => absurd (List.eq_of_mem_replicate h) (by decide)
  have hne : longName ≠ [] := List.ne_nil_of_length_pos (by rw [length_longName]; omega)
  have hlast : (47 :: (longName ++ [47, 98])).getLast? ≠ some 10 := by
    have : 47 :: (longName ++ [47, 98]) = (47 :: longName) ++ [47, 98] := rfl
    rw [this, List.getLast?_append]
    decide
  rw [segments, if_neg hlast, strtok_cons_delim, strtok_append_delim hmem hne]
  rfl

/-- The tree after the first call. -/
theorem rootNode_addPath_alloc (cf : Int32) (orders : ℕ → IterOrder) (urlPath : Bytes) :
    (tmPathSquasherAddPath (tmPathSquasherAlloc cf) orders urlPath).rootNode =
      addSegments cf orders 0 (segments urlPath) (createNode (cstr "<ROOT>")) := rfl

/-- One call squashes the child of a node with such a name. -/
theorem rootNode_longName :
    (tmPathSquasherAddPath (tmPathSquasherAlloc 1) (fun _ => .listed)
      (47 :: (longName ++ [47, 98]))).rootNode =
        .set (cstr "<ROOT>") [.squashed longName (createNode squashedName)] := by
  have hsquash : (1 : ℕ) ≠ 0 ∧
      cardinalityLimit 1 1 < (getOrCreate [98] id ([] : List Node)).length := by decide
  have hchild : addSegments 1 (fun _ => .listed) 1 [[98]] (createNode longName) =
      .squashed longName (createNode squashedName) := by
    rw [createNode, addSegments_set_of_lt hsquash]
    rfl
  rw [rootNode_addPath_alloc, segments_longName, createNode,
    addSegments_set_of_not_lt fun h => h.1 rfl, getOrCreate, descend, if_neg (by decide), hchild]

/-- The child of a node with such a name is squashed, and the pattern with the name does not fit
its buffer. -/
theorem long_name_overflows :
    ∃ tr ps, Run addPathStep (tmPathSquasherAlloc 1) tr ps ∧
      tr.map (fun e => e.label.urlPath) = [47 :: (longName ++ [47, 98])] ∧
      LeafBelowSquash ps.rootNode [longName, squashedName] ∧
      ¬ TextsFit [longName, squashedName] ∧
      ∀ (pcre : Engine) (o : IterOrder), tmPathSquasherGetRegexes pcre o ps = none := by
  have h : Run addPathStep (tmPathSquasherAlloc 1) _ _ :=
    Run.single (a := ⟨fun _ => .listed, 47 :: (longName ++ [47, 98])⟩) rfl
  have hroot := rootNode_longName
  have hleaf : LeafBelowSquash
      (.set (cstr "<ROOT>") [.squashed longName (createNode squashedName)])
      [longName, squashedName] :=
    ⟨createNode squashedName, ⟨[longName], [squashedName], _, rfl, by simp,
      ⟨_, List.mem_singleton_self _, rfl, rfl⟩, rfl, _, List.mem_singleton_self _, rfl, rfl⟩, rfl⟩
  have hlong : ¬ TextsFit [longName, squashedName] := by
    rw [textsFit_iff, textLength, List.map_cons, List.sum_cons]
    have hname : longName.length ≤ nameLength longName := length_le_nameLength longName
    have hlen := length_longName
    unfold bufferSize
    omega
  rw [← hroot] at hleaf
  refine ⟨_, _, h, rfl, hleaf, hlong, fun pcre o => ?_⟩
  by_contra hsome
  rw [← ne_eq, Option.ne_none_iff_isSome, isSome_getRegexes_iff] at hsome
  exact hlong (hsome _ hleaf)

end Tracemate.Squasher
