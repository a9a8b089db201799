import Tracemate.Squasher.Cardinality

/-!
# Adding a known path again

* `Known`: the walk of a path looks up no new child and squashes no child set;
* `addSegments_eq_iff`: a call leaves the tree alone exactly if its path is known;
* `known_addSegments_self`: a call makes its own path known;
* `StaysKnown`: where a call merges siblings and does not squash the merged sets in turn, the
  other path still finds its names in them, and the sets are within their limits;
* `known_addSegments_iff`: a known path is known after a call exactly under that condition;
* `addedKnown_iff_staysKnown`: the same over runs, for all paths added so far.
-/

namespace Tracemate.Squasher

open CStr Runs

/-! ### Known paths -/

/-- On its walk the path looks up no new child, and every child set it walks through is within
its limit. -/
def Known (cf : Int32) : ℕ → List Bytes → Node → Prop
  | _, [], _ => True
  | depth, _ :: rest, .squashed _ child => depth < 4 → Known cf (depth + 1) rest child
  | depth, segment :: rest, .set _ children =>
    segment ∈ children.map Node.segmentName ∧
      ¬ (depth ≠ 0 ∧ cardinalityLimit cf depth < children.length) ∧
      (depth < 4 → Known cf (depth + 1) rest (lookupChild segment children))

section OneCall

variable {cf : Int32} {orders : ℕ → IterOrder}

@[simp] theorem known_nil {depth : ℕ} {n : Node} : Known cf depth [] n := by
  rw [Known]
  trivial

theorem lookupChild_cons (segment : Bytes) (c : Node) (cs : List Node) :
    lookupChild segment (c :: cs) =
      if c.segmentName = segment then c else lookupChild segment cs := by
  unfold lookupChild
  split_ifs with h <;> simp [h]

/-- A lookup changes nothing exactly if the child is there and is left alone. -/
theorem getOrCreate_eq_self_iff {segment : Bytes} {k : Node → Node} {cs : List Node} :
    getOrCreate segment k cs = cs ↔
      segment ∈ cs.map Node.segmentName ∧ k (lookupChild segment cs) = lookupChild segment cs := by
  induction cs with
  | nil => simp [getOrCreate]
  | cons c cs ih =>
    rw [lookupChild_cons]
    by_cases h : c.segmentName = segment
    · simp [getOrCreate, h]
    · simp [getOrCreate, h, ih, Ne.symm h]

theorem length_getOrCreate_of_mem {segment : Bytes} {cs : List Node}
    (h : segment ∈ cs.map Node.segmentName) :
    (getOrCreate segment id cs).length = cs.length := by
  rw [getOrCreate_eq_self_iff.2 ⟨h, rfl⟩]

/-- The child of a name after a lookup. -/
theorem lookupChild_getOrCreate {k : Node → Node} (hk : KeepsName k) (s t : Bytes)
    (cs : List Node) :
    lookupChild s (getOrCreate t k cs) = if s = t then k (lookupChild t cs) else lookupChild s cs := by
  induction cs with
  | nil =>
    rw [getOrCreate, lookupChild_cons, hk]
    by_cases h : s = t
    · simp [h, lookupChild]
    · rw [segmentName_createNode, if_neg (Ne.symm h), if_neg h]
  | cons c cs ih =>
    rw [getOrCreate, lookupChild_cons, lookupChild_cons]
    by_cases hct : c.segmentName = t
    · rw [if_pos hct, if_pos hct, lookupChild_cons, hk, hct]
      by_cases h : s = t
      · simp [h]
      · simp [h, Ne.symm h]
    · rw [if_neg hct, if_neg hct, lookupChild_cons, ih]
      by_cases h : s = t
      · subst h
        simp [hct]
      · simp [h]

/-- What the rest of a call does to a node is needed only while the loop goes on. -/
theorem descend_eq_iff {depth : ℕ} {rest : List Bytes} {n : Node} (h4 : depth ≤ 4) {Q : Prop}
    (h : depth < 4 → (addSegments cf orders (depth + 1) rest n = n ↔ Q)) :
    descend cf orders depth rest n = n ↔ (depth < 4 → Q) := by
  unfold descend
  by_cases hd : depth < 4
  · rw [if_neg (by omega), h hd]
    simp [hd]
  · rw [if_pos (by omega)]
    simp [hd]

/-- A call leaves the tree alone exactly if its path is known. -/
theorem addSegments_eq_iff {segs : List Bytes} {depth : ℕ} (h4 : depth ≤ 4) {n : Node} :
    addSegments cf orders depth segs n = n ↔ Known cf depth segs n := by
  induction segs generalizing depth n with
  | nil => simp [addSegments]
  | cons s rest ih =>
    cases n with
    | squashed name c =>
      rw [addSegments_squashed, Known, Node.squashed.injEq, and_iff_right rfl]
      exact descend_eq_iff h4 fun hd => ih (by omega)
    | set name cs =>
      rw [Known]
      by_cases h : depth ≠ 0 ∧ cardinalityLimit cf depth < (getOrCreate s id cs).length
      · rw [addSegments_set_of_lt h]
        refine iff_of_false (by simp) ?_
        rintro ⟨hs, hlimit, -⟩
        rw [length_getOrCreate_of_mem hs] at h
        exact hlimit h
      · rw [addSegments_set_of_not_lt h, Node.set.injEq, and_iff_right rfl,
          getOrCreate_eq_self_iff]
        refine and_congr_right fun hs => ?_
        rw [length_getOrCreate_of_mem hs] at h
        rw [and_iff_right h]
        exact descend_eq_iff h4 fun hd => ih (by omega)

/-- A known path after the rest of a call. -/
theorem known_descend_iff {depth : ℕ} {rest p : List Bytes} {n : Node} {Q : Prop}
    (h : depth < 4 → (Known cf (depth + 1) p (addSegments cf orders (depth + 1) rest n) ↔ Q)) :
    (depth < 4 → Known cf (depth + 1) p (descend cf orders depth rest n)) ↔ (depth < 4 → Q) := by
  refine imp_congr_right fun hd => ?_
  rw [descend, if_neg (by omega)]
  exact h hd

/-- The path of a call is known after it. -/
theorem known_addSegments_self (segs : List Bytes) {depth : ℕ} (h4 : depth ≤ 4) (n : Node) :
    Known cf depth segs (addSegments cf orders depth segs n) := by
  induction segs generalizing depth n with
  | nil => exact known_nil
  | cons s rest ih =>
    have hnext : ∀ m : Node, depth < 4 → Known cf (depth + 1) rest (descend cf orders depth rest m) :=
      fun m => (known_descend_iff fun hd => iff_of_true (ih (by omega) m) trivial).2
        fun _ => trivial
    cases n with
    | squashed name c =>
      rw [addSegments_squashed, Known]
      exact hnext c
    | set name cs =>
      by_cases h : depth ≠ 0 ∧ cardinalityLimit cf depth < (getOrCreate s id cs).length
      · rw [addSegments_set_of_lt h, Known]
        exact hnext _
      · have hname := keepsName_descend cf orders depth rest
        rw [addSegments_set_of_not_lt h, Known, map_segmentName_getOrCreate hname,
          length_getOrCreate, lookupChild_getOrCreate hname, if_pos rfl]
        refine ⟨?_, h, hnext _⟩
        split_ifs with hs
        · exact hs
        · simp

/-! ### Which calls keep a path known -/

/-- The path is known in the merge of the nodes `L`. -/
def MergeKnown (cf : Int32) : ℕ → List Bytes → List Node → Prop
  | _, [], _ => True
  | depth, segment :: rest, L =>
    segment ∈ nextNames L [] ∧ (nextNames L []).length ≤ cardinalityLimit cf depth ∧
      (depth < 4 → MergeKnown cf (depth + 1) rest (under segment L))

/-- A path is known in what a call that has squashed the parents of the nodes `L` makes of their
merge; the call goes on with the segments of the first list, the path with those of the
second. -/
def MergedStaysKnown (cf : Int32) : ℕ → List Bytes → List Bytes → List Node → Prop
  | depth, [], path, L => MergeKnown cf depth path L
  | _, _ :: _, [], _ => True
  | depth, segment :: rest, s :: path, L =>
    if cardinalityLimit cf depth < (namesWith segment L).length then
      depth < 4 → MergedStaysKnown cf (depth + 1) rest path (levelBelow L)
    else
      s ∈ namesWith segment L ∧ (depth < 4 →
        if s = segment then MergedStaysKnown cf (depth + 1) rest path (under segment L)
        else MergeKnown cf (depth + 1) path (under s L))

/-- A known path is known after the call with the segments of the first list: where both walk
through the same child set and the call squashes it, the path is known in what becomes of the
merge. -/
def StaysKnown (cf : Int32) : ℕ → List Bytes → List Bytes → Node → Prop
  | depth, _ :: rest, _ :: path, .squashed _ child =>
    depth < 4 → StaysKnown cf (depth + 1) rest path child
  | depth, segment :: rest, s :: path, .set _ children =>
    if depth ≠ 0 ∧ cardinalityLimit cf depth < (getOrCreate segment id children).length then
      depth < 4 → MergedStaysKnown cf (depth + 1) rest path children
    else s = segment → depth < 4 →
      StaysKnown cf (depth + 1) rest path (lookupChild segment children)
  | _, _, _, _ => True

/-- A merged tree knows a path exactly if the nodes together do. -/
theorem known_iff_mergeKnown {path : List Bytes} {depth : ℕ} {n : Node} {L : List Node}
    (h1 : 1 ≤ depth) (hp : n.Plain) (hn : n.WellFormed) (hm : IsMerge n L) :
    Known cf depth path n ↔ MergeKnown cf depth path L := by
  induction path generalizing depth n L with
  | nil => simp [MergeKnown]
  | cons s path ih =>
    cases hp with
    | @set name cs hcs =>
    have hlen : cs.length = (nextNames L []).length := hm.length_eq hn (w := []) rfl
    cases hn with
    | set hnames hwf =>
    have hplain := plain_lookupChild hcs s
    have hchild := wellFormed_lookupChild hwf s
    rw [Known, MergeKnown, hm.mem_names_iff, hlen]
    refine and_congr_right fun _ => and_congr ?_ (imp_congr_right fun hd => ?_)
    · omega
    · exact ih (by omega) hplain hchild (hm.lookupChild hnames s)

/-- What a call makes of a merged node knows a path exactly under the condition. -/
theorem known_addSegments_merged {segs path : List Bytes} {depth : ℕ} {n : Node} {L : List Node}
    (h1 : 1 ≤ depth) (hp : n.Plain) (hn : n.WellFormed) (hm : IsMerge n L) :
    Known cf depth path (addSegments cf orders depth segs n) ↔
      MergedStaysKnown cf depth segs path L := by
  induction segs generalizing depth n L path with
  | nil =>
    rw [addSegments, MergedStaysKnown]
    exact known_iff_mergeKnown h1 hp hn hm
  | cons t rest ih =>
    cases path with
    | nil => simp [MergedStaysKnown]
    | cons s path =>
      cases hp with
      | @set name cs hcs =>
      cases hn with
      | set hnames hwf =>
      have hplain := plain_lookupChild hcs
      have hchild := wellFormed_lookupChild hwf
      rw [MergedStaysKnown, ← hm.length_getOrCreate hnames t]
      by_cases hlt : cardinalityLimit cf depth < (getOrCreate t id cs).length
      · rw [if_pos hlt, addSegments_set_of_lt ⟨by omega, hlt⟩, Known]
        exact known_descend_iff fun hd => ih (by omega) (plain_squashInto _)
          (wellFormed_squashInto _) (hm.squashedChild (orders depth) t)
      · have hname := keepsName_descend cf orders depth rest
        rw [if_neg hlt, addSegments_set_of_not_lt fun h => hlt h.2, Known,
          map_segmentName_getOrCreate hname, length_getOrCreate, lookupChild_getOrCreate hname,
          and_iff_right fun h => hlt h.2]
        refine and_congr ?_ ?_
        · rw [namesWith, List.mem_insert_iff, ← hm.mem_names_iff]
          split_ifs with ht
          · exact ⟨.inr, fun h => h.elim (fun h => h ▸ ht) id⟩
          · rw [List.mem_append, List.mem_singleton, or_comm]
        · by_cases hst : s = t
          · subst hst
            simp only [if_true]
            exact known_descend_iff fun hd =>
              ih (by omega) (hplain s) (hchild s) (hm.lookupChild hnames s)
          · simp only [if_neg hst]
            exact imp_congr_right fun hd =>
              known_iff_mergeKnown (by omega) (hplain s) (hchild s) (hm.lookupChild hnames s)

/-- A known path is known after a call exactly under the condition. -/
theorem known_addSegments_iff {segs path : List Bytes} {depth : ℕ} {n : Node} (hn : n.WellFormed)
    (hk : Known cf depth path n) :
    Known cf depth path (addSegments cf orders depth segs n) ↔
      StaysKnown cf depth segs path n := by
  induction segs generalizing depth n path with
  | nil =>
    rw [addSegments]
    exact iff_of_true hk (by simp [StaysKnown])
  | cons t rest ih =>
    cases path with
    | nil => simp [StaysKnown]
    | cons s path =>
      cases hn with
      | @squashed name c hc hwf =>
        rw [Known] at hk
        rw [addSegments_squashed, Known, StaysKnown]
        exact known_descend_iff fun hd => ih hwf (hk hd)
      | @set name cs hnames hwf =>
        rw [Known] at hk
        obtain ⟨hs, hlimit, hbelow⟩ := hk
        rw [StaysKnown]
        by_cases h : depth ≠ 0 ∧ cardinalityLimit cf depth < (getOrCreate t id cs).length
        · rw [if_pos h, addSegments_set_of_lt h, Known]
          exact known_descend_iff fun hd => known_addSegments_merged (by omega)
            (plain_squashInto _) (wellFormed_squashInto _)
            (isMerge_squashedChild (orders depth) name t cs)
        · have hname := keepsName_descend cf orders depth rest
          have hs' : s ∈ (getOrCreate t (descend cf orders depth rest) cs).map Node.segmentName := by
            rw [map_segmentName_getOrCreate hname]
            split_ifs
            · exact hs
            · exact List.mem_append_left _ hs
          rw [if_neg h, addSegments_set_of_not_lt h, Known, and_iff_right hs', length_getOrCreate,
            and_iff_right h, lookupChild_getOrCreate hname]
          by_cases hst : s = t
          · subst hst
            simp only [if_true, true_imp_iff]
            exact known_descend_iff fun hd => ih (wellFormed_lookupChild hwf s) (hbelow hd)
          · simp only [hst, if_false, false_imp_iff, iff_true]
            exact hbelow

end OneCall

/-! ### Runs -/

/-- A squasher with the paths it has been given so far. -/
structure History where
  squasher : PathSquasher
  added : List Bytes

/-- One call of `tm_path_squasher_add_path`, recorded. -/
def historyStep (h : History) (call : Call) (h' : History) : Prop :=
  h' = ⟨tmPathSquasherAddPath h.squasher call.orders call.urlPath, call.urlPath :: h.added⟩

/-- Adding any of the paths again, in whatever order the loops visit, only counts it. -/
def History.AddedKnown (h : History) : Prop :=
  ∀ p ∈ h.added, ∀ orders, tmPathSquasherAddPath h.squasher orders p =
    { h.squasher with addedPathCount := h.squasher.addedPathCount + 1 }

theorem addedKnown_iff {h : History} :
    h.AddedKnown ↔ ∀ p ∈ h.added,
      Known h.squasher.cardinalityFactor 0 (segments p) h.squasher.rootNode := by
  refine forall₂_congr fun p _ => ⟨fun hp => ?_, fun hk orders => ?_⟩
  · exact (addSegments_eq_iff (by omega)).1
      (congrArg PathSquasher.rootNode (hp fun _ => .listed))
  · have hroot : addSegments h.squasher.cardinalityFactor orders 0 (segments p)
        h.squasher.rootNode = h.squasher.rootNode := (addSegments_eq_iff (by omega)).2 hk
    simp only [tmPathSquasherAddPath, hroot]

/-- One call keeps the paths known that were, exactly under the condition for each of them. -/
theorem addedKnown_step_iff {h h' : History} {call : Call} (hk : h.AddedKnown)
    (hs : historyStep h call h') :
    h'.AddedKnown ↔ ∀ p ∈ h.added, StaysKnown h.squasher.cardinalityFactor 0
      (segments call.urlPath) (segments p) h.squasher.rootNode := by
  rw [addedKnown_iff] at hk ⊢
  subst hs
  rw [List.forall_mem_cons]
  have hself : Known h.squasher.cardinalityFactor 0 (segments call.urlPath)
      (addSegments h.squasher.cardinalityFactor call.orders 0 (segments call.urlPath)
        h.squasher.rootNode) := known_addSegments_self _ (by omega) _
  exact (and_iff_right hself).trans
    (forall₂_congr fun p hp => known_addSegments_iff h.squasher.wellFormed (hk p hp))

/-- **Known paths over runs.**  After every call of a run all paths added so far are known, so
that adding one of them again leaves the tree as it is, exactly if every call meets the condition
for every path added before it. -/
theorem addedKnown_iff_staysKnown {cf : Int32} {tr : List (Event History Call)} {h : History}
    (hrun : Run historyStep ⟨tmPathSquasherAlloc cf, []⟩ tr h) :
    (∀ e ∈ tr, e.after.AddedKnown) ↔
      ∀ e ∈ tr, ∀ p ∈ e.before.added, StaysKnown cf 0 (segments e.label.urlPath) (segments p)
        e.before.squasher.rootNode := by
  have hfactor := (hrun.invariant (fun u => u.squasher.cardinalityFactor = cf) rfl (by
    rintro u call _ hu rfl
    exact hu)).1
  have hiff := hrun.forall_iff History.AddedKnown
    (fun u call => ∀ p ∈ u.added, StaysKnown u.squasher.cardinalityFactor 0
      (segments call.urlPath) (segments p) u.squasher.rootNode)
    (fun p hp => absurd hp List.not_mem_nil) fun u call v hu hs => addedKnown_step_iff hu hs
  rw [hiff]
  exact forall₂_congr fun e he => by rw [(hfactor e he).1]

/-- Two children of `a` are squashed; both paths end there and stay known. -/
theorem addedKnown_of_two_leaves :
    ∃ tr h, Run historyStep ⟨tmPathSquasherAlloc 6, []⟩ tr h ∧
      h.added = [cstr "/a/y", cstr "/a/x"] ∧ ∀ e ∈ tr, e.after.AddedKnown := by
  have h : Run historyStep ⟨tmPathSquasherAlloc 6, []⟩ _ _ :=
    (Run.single (a := .listed "/a/x") rfl).snoc (a := .listed "/a/y") rfl
  refine ⟨_, _, h, rfl, (addedKnown_iff_staysKnown h).2 fun e he => ?_⟩
  simp only [List.cons_append, List.nil_append, List.mem_cons, List.not_mem_nil, or_false] at he
  rcases he with rfl | rfl
  · exact fun p hp => absurd hp List.not_mem_nil
  · intro p hp
    obtain rfl : p = cstr "/a/x" := List.mem_singleton.1 hp
    show StaysKnown 6 0 [cstr "a", cstr "y"] [cstr "a", cstr "x"] oneChild
    rw [oneChild, StaysKnown, if_neg (by decide)]
    show cstr "a" = cstr "a" → 0 < 4 → StaysKnown 6 1 [cstr "y"] [cstr "x"]
      (.set (cstr "a") [createNode (cstr "x")])
    rw [StaysKnown, if_pos (by decide)]
    exact fun _ _ _ => by simp [MergedStaysKnown, MergeKnown]

/-- Three calls with the factor `6`: the second one puts the old `{...}` below `x` back as an
ordinary child, and the first path, added again, squashes it once more. -/
theorem known_path_changes_tree :
    ∃ tr h, Run historyStep ⟨tmPathSquasherAlloc 6, []⟩ tr h ∧
      h.added = [cstr "/a/y", cstr "/a/x/1"] ∧
      (tmPathSquasherAddPath h.squasher (fun _ => .listed) (cstr "/a/x/1")).rootNode ≠
        h.squasher.rootNode := by
  have h : Run historyStep ⟨tmPathSquasherAlloc 6, []⟩ _ _ :=
    (Run.single (a := .listed "/a/x/1") rfl).snoc (a := .listed "/a/y") rfl
  refine ⟨_, _, h, rfl, fun heq => ?_⟩
  -- the flag of the node `{...}` below `a`
  have hflags : [true] = [false] := congrArg (fun root =>
    ((root.childNodes.flatMap Node.childNodes).map Node.childrenSquashed)) heq
  cases hflags

end Tracemate.Squasher
