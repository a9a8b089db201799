import Tracemate.Squasher.Cardinality
import Tracemate.Squasher.Matching

/-!
# The traversal with its stack

`tm_path_squasher_get_regexes` keeps the nodes it has yet to visit on a stack.

* `StackEntry`, `recurseRegexEntry`, `popLoop`: the loop that pops a node and pushes what is
  below it, with a bound on its turns;
* `popLoop_eq`: after as many turns as there are nodes the stack is empty and every leaf has
  been visited, in the order of `leafChains`;
* `popLoop_table`: the table is that of `tmPathSquasherGetRegexes`;
* `regexText_inj`: names of which none is empty or holds a `/` or a `[` can be read off their
  text;
* `regex_table_exact`: the keys are the texts of the leaves below a squash, one each.
-/

namespace Tracemate.Squasher

open CStr Wildcard Pattern

/-! ### The loop -/

/-- A `node_stack_entry_t`: a node, with the names and flags that its `parent` pointers lead
through. -/
structure StackEntry where
  up : Chain
  node : Node

/-- What the loop works on; `visited` records the chains of the leaves it came to. -/
structure Traversal where
  stack : List StackEntry
  table : RegexTable
  visited : List Chain

/-- A `ck_hs_next` loop that pushes the nodes it visits: the last one is on top. -/
def pushAll (up : Chain) (children : List Node) (stack : List StackEntry) : List StackEntry :=
  children.foldl (fun stack child => ⟨up, child⟩ :: stack) stack

/-- `recurse_regex` on the entry popped from the stack. -/
def recurseRegexEntry (pcre : Engine) (e : StackEntry) (s : Traversal) : Option Traversal :=
  match e.node with
  | .squashed name child =>
    some { s with stack := ⟨e.up ++ [(name, true)], child⟩ :: s.stack }
  | .set name [] =>
    (endOfLine pcre s.table (e.up ++ [(name, false)])).map fun t =>
      { s with table := t, visited := s.visited ++ [e.up ++ [(name, false)]] }
  | .set name (c :: cs) =>
    some { s with stack := pushAll (e.up ++ [(name, false)]) (c :: cs) s.stack }

/-- At most `fuel` turns of the `while` loop around `recurse_regex`. -/
def popLoop (pcre : Engine) : ℕ → Traversal → Option Traversal
  | 0, s => some s
  | fuel + 1, s =>
    match s.stack with
    | [] => some s
    | e :: rest => (recurseRegexEntry pcre e { s with stack := rest }).bind (popLoop pcre fuel)

/-- The stack before the `while` loop: the nodes below the root. -/
def startTraversal (o : IterOrder) (ps : PathSquasher) : Traversal :=
  let root := ps.rootNode.reorder o []
  ⟨pushAll [(root.segmentName, root.childrenSquashed)] root.childNodes [], ∅, []⟩

/-! ### What is left to visit -/

mutual
/-- The number of nodes of a tree. -/
def Node.count : Node → ℕ
  | .set _ children => Node.countAll children + 1
  | .squashed _ child => child.count + 1
/-- The same for the nodes of a child set. -/
def Node.countAll : List Node → ℕ
  | [] => 0
  | c :: cs => c.count + Node.countAll cs
end

theorem Node.count_eq (n : Node) : n.count = Node.countAll n.childNodes + 1 := by
  cases n <;> simp [Node.count, Node.countAll]

theorem Node.countAll_eq_sum (cs : List Node) : Node.countAll cs = (cs.map Node.count).sum := by
  induction cs with
  | nil => rfl
  | cons c cs ih => rw [Node.countAll, ih, List.map_cons, List.sum_cons]

/-- The nodes at and below the entries of the stack. -/
def stackSize (stack : List StackEntry) : ℕ := (stack.map fun e => e.node.count).sum

/-- The chains of the leaves at and below an entry. -/
def StackEntry.leaves (e : StackEntry) : List Chain := e.node.leafChains.map (e.up ++ ·)

theorem stackSize_cons (e : StackEntry) (stack : List StackEntry) :
    stackSize (e :: stack) = e.node.count + stackSize stack := by
  simp [stackSize]

theorem stackSize_pushAll (up : Chain) (cs : List Node) (stack : List StackEntry) :
    stackSize (pushAll up cs stack) = Node.countAll cs + stackSize stack := by
  induction cs generalizing stack with
  | nil => simp [pushAll, Node.countAll]
  | cons c cs ih =>
    have h := ih (⟨up, c⟩ :: stack)
    rw [stackSize_cons] at h
    rw [Node.countAll]
    simp only [pushAll, List.foldl_cons] at h ⊢
    omega

/-- The last node pushed is visited first, with all that is below it. -/
theorem leaves_pushAll (up : Chain) (cs : List Node) (stack : List StackEntry) :
    (pushAll up cs stack).flatMap StackEntry.leaves =
      (Node.leafChainsAll cs).map (up ++ ·) ++ stack.flatMap StackEntry.leaves := by
  induction cs generalizing stack with
  | nil => simp [pushAll, Node.leafChainsAll]
  | cons c cs ih =>
    have h := ih (⟨up, c⟩ :: stack)
    simp only [pushAll, List.foldl_cons] at h ⊢
    rw [h, Node.leafChainsAll]
    simp [StackEntry.leaves]

/-- What the loop still has to do is done in as many turns as there are nodes left. -/
theorem popLoop_eq (pcre : Engine) (fuel : ℕ) : ∀ s : Traversal, stackSize s.stack ≤ fuel →
    popLoop pcre fuel s =
      ((s.stack.flatMap StackEntry.leaves).foldlM (endOfLine pcre) s.table).map fun t =>
        ⟨[], t, s.visited ++ s.stack.flatMap StackEntry.leaves⟩ := by
  induction fuel with
  | zero =>
    rintro ⟨stack, t, visited⟩ h
    cases stack with
    | nil => simp [popLoop]
    | cons e rest =>
      have hpos := e.node.count_eq
      rw [stackSize_cons] at h
      omega
  | succ fuel ih =>
    rintro ⟨stack, t, visited⟩ h
    cases stack with
    | nil => simp [popLoop]
    | cons e rest =>
      obtain ⟨up, n⟩ := e
      rw [stackSize_cons] at h
      rw [popLoop]
      cases n with
      | squashed name child =>
        have hrest : stackSize (⟨up ++ [(name, true)], child⟩ :: rest) ≤ fuel := by
          simp only [Node.count] at h
          simp only [stackSize_cons]
          omega
        simp only [recurseRegexEntry, Option.bind_some]
        rw [ih ⟨_, _, _⟩ hrest]
        simp [StackEntry.leaves, Node.leafChains, Function.comp_def]
      | set name cs =>
        cases cs with
        | nil =>
          -- the end of the line: one leaf is done
          have hrest : stackSize rest ≤ fuel := by
            simp only [Node.count] at h
            omega
          simp only [recurseRegexEntry, List.flatMap_cons, StackEntry.leaves, Node.leafChains,
            List.map_cons, List.map_nil, List.singleton_append, List.foldlM_cons]
          cases hend : endOfLine pcre t (up ++ [(name, false)]) with
          | none => simp
          | some t' => simp [ih ⟨rest, t', _⟩ hrest]
        | cons c cs =>
          have hrest : stackSize (pushAll (up ++ [(name, false)]) (c :: cs) rest) ≤ fuel := by
            simp only [Node.count] at h
            rw [stackSize_pushAll]
            omega
          have hturn := ih ⟨pushAll (up ++ [(name, false)]) (c :: cs) rest, t, visited⟩ hrest
          simp only [leaves_pushAll] at hturn
          simp only [recurseRegexEntry, Option.bind_some, hturn]
          simp [StackEntry.leaves, Node.leafChains, Function.comp_def]

/-- The chains of the leaves below the root, in the order of the traversal. -/
def rootChains (o : IterOrder) (root : Node) : List Chain :=
  (Node.leafChainsAll (root.reorder o []).childNodes).map
    ([((root.reorder o []).segmentName, (root.reorder o []).childrenSquashed)] ++ ·)

theorem leaves_startTraversal (o : IterOrder) (ps : PathSquasher) :
    (startTraversal o ps).stack.flatMap StackEntry.leaves = rootChains o ps.rootNode := by
  rw [startTraversal, leaves_pushAll, List.flatMap_nil, List.append_nil]
  rfl

theorem Node.count_reorder (o : IterOrder) (n : Node) (path : List Bytes) :
    (n.reorder o path).count = n.count := by
  induction n using Node.induct generalizing path with
  | h n ih =>
    have hperm := (childNodes_reorder_perm o path n).map Node.count
    have hsum : ((n.reorder o path).childNodes.map Node.count).sum =
        (n.childNodes.map Node.count).sum := by
      rw [hperm.sum_eq, List.map_map]
      congr 1
      exact List.map_congr_left fun c hc => ih c hc _
    rw [Node.count_eq, Node.count_eq, Node.countAll_eq_sum, Node.countAll_eq_sum, hsum]

theorem stackSize_startTraversal (o : IterOrder) (ps : PathSquasher) :
    stackSize (startTraversal o ps).stack < ps.rootNode.count := by
  rw [startTraversal, stackSize_pushAll, ← Node.count_reorder o ps.rootNode [], Node.count_eq]
  exact Nat.lt_succ_self _

/-- The traversal ends, overflows or not, with the table of the recursion. -/
theorem popLoop_table (pcre : Engine) (o : IterOrder) (ps : PathSquasher) {fuel : ℕ}
    (h : ps.rootNode.count ≤ fuel) :
    popLoop pcre fuel (startTraversal o ps) =
      (tmPathSquasherGetRegexes pcre o ps).map fun t => ⟨[], t, rootChains o ps.rootNode⟩ := by
  rw [popLoop_eq pcre fuel _ ((stackSize_startTraversal o ps).le.trans h), getRegexes_eq,
    leaves_startTraversal]
  rfl

/-! ### Every leaf once -/

/-- The names lead from the root to a leaf below it. -/
def LeafBelow (root : Node) (w : List Bytes) : Prop :=
  w ≠ [] ∧ ∃ m, Walk root w m ∧ m.childNodes = []

theorem LeafBelowSquash.leafBelow {root : Node} {w : List Bytes} (h : LeafBelowSquash root w) :
    LeafBelow root w := by
  obtain ⟨m, hw, hm⟩ := h
  refine ⟨?_, m, hw.walk, hm⟩
  rintro rfl
  exact not_belowSquash_nil hw

theorem Node.WellFormed.reorder (o : IterOrder) {n : Node} (hn : n.WellFormed)
    (path : List Bytes) : (n.reorder o path).WellFormed := by
  induction n using Node.induct generalizing path with
  | h n ih =>
    cases hn with
    | @set name cs hnames hcs =>
      rw [Node.reorder, reorderAll_eq_map]
      have hperm := o.perm (path ++ [name]) (cs.map (Node.reorder o (path ++ [name])))
      refine .set ?_ fun d hd => ?_
      · refine (hperm.map _).nodup_iff.2 ?_
        simpa only [List.map_map, Function.comp_def, segmentName_reorder] using hnames
      · obtain ⟨c, hc, rfl⟩ := List.mem_map.1 (hperm.mem_iff.1 hd)
        exact ih c hc (hcs c hc) _
    | @squashed name c hc hwf =>
      rw [Node.reorder]
      exact .squashed (by rw [segmentName_reorder, hc]) (ih c (by simp) hwf _)

/-- The names from a node down to its leaves, in the order of the traversal. -/
def Node.leafNames (n : Node) : List (List Bytes) := n.leafChains.map (List.map Prod.fst)

theorem head_of_mem_leafNames {n : Node} {w : List Bytes} (h : w ∈ n.leafNames) :
    ∃ v, w = n.segmentName :: v := by
  obtain ⟨chain, hchain, rfl⟩ := List.mem_map.1 h
  obtain ⟨rest, rfl⟩ := exists_eq_cons_of_mem_leafChains hchain
  exact ⟨rest.map Prod.fst, rfl⟩

/-- Siblings have different names, so the leaves below them have too. -/
theorem nodup_leafNamesAll {cs : List Node} (hnames : (cs.map Node.segmentName).Nodup)
    (h : ∀ c ∈ cs, c.leafNames.Nodup) :
    ((Node.leafChainsAll cs).map (List.map Prod.fst)).Nodup := by
  induction cs with
  | nil => exact List.nodup_nil
  | cons c cs ih =>
    rw [List.map_cons, List.nodup_cons] at hnames
    rw [Node.leafChainsAll, List.map_append]
    refine (ih hnames.2 fun d hd => h d (List.mem_cons_of_mem _ hd)).append
      (h c List.mem_cons_self) fun w hw hwc => ?_
    obtain ⟨chain, hchain, rfl⟩ := List.mem_map.1 hw
    obtain ⟨d, hd, hchain⟩ := mem_leafChainsAll.1 hchain
    obtain ⟨v, hv⟩ := head_of_mem_leafNames (List.mem_map_of_mem hchain)
    obtain ⟨u, hu⟩ := head_of_mem_leafNames hwc
    have hname : c.segmentName = d.segmentName := (List.cons.inj (hu.symm.trans hv)).1
    exact hnames.1 (hname ▸ List.mem_map_of_mem hd)

theorem nodup_leafNames {n : Node} (hn : n.WellFormed) : n.leafNames.Nodup := by
  induction n using Node.induct with
  | h n ih =>
    cases hn with
    | @squashed name c hc hwf =>
      have h := ih c (by simp) hwf
      rw [Node.leafNames, Node.leafChains, List.map_map]
      rw [Node.leafNames] at h
      simpa [Function.comp_def] using h.map (List.cons_injective (a := name))
    | @set name cs hnames hcs =>
      cases cs with
      | nil => simp [Node.leafNames, Node.leafChains]
      | cons c cs =>
        have h := nodup_leafNamesAll hnames fun d hd => ih d hd (hcs d hd)
        rw [Node.leafNames, Node.leafChains, List.map_map]
        simpa [Function.comp_def] using h.map (List.cons_injective (a := name))

/-- The traversal comes to the leaves below the root, and to each of them once. -/
theorem rootChains_spec (o : IterOrder) {root : Node} (hroot : root.WellFormed) :
    ((rootChains o root).map Chain.names).Nodup ∧
      ∀ w, w ∈ (rootChains o root).map Chain.names ↔ LeafBelow root w := by
  have hnames : (rootChains o root).map Chain.names =
      (Node.leafChainsAll (root.reorder o []).childNodes).map (List.map Prod.fst) := by
    simp [rootChains, Chain.names, Function.comp_def]
  have hwf := hroot.reorder o []
  rw [hnames]
  constructor
  · generalize root.reorder o [] = tree at hwf
    cases hwf with
    | set hnames hcs => exact nodup_leafNamesAll hnames fun c hc => nodup_leafNames (hcs c hc)
    | squashed hc hwf =>
      exact nodup_leafNamesAll (by simp) fun d hd => by
        rw [List.mem_singleton.1 hd]
        exact nodup_leafNames hwf
  · intro w
    rw [LeafBelow, ← exists_leafChain_walk]
    simp only [← mem_leafChains_reorder o root []]
    constructor
    · intro hw
      obtain ⟨rest, hrest, rfl⟩ := List.mem_map.1 hw
      obtain ⟨c, hc, hrest⟩ := mem_leafChainsAll.1 hrest
      obtain ⟨v, rfl⟩ := exists_eq_cons_of_mem_leafChains hrest
      exact ⟨by simp, _, mem_leafChains.2 (.inr ⟨c, hc, _, hrest, rfl⟩), by simp⟩
    · rintro ⟨hne, chain, hchain, hw⟩
      rcases mem_leafChains.1 hchain with ⟨-, rfl⟩ | ⟨c, hc, rest, hrest, rfl⟩
      · exact absurd (List.cons.inj hw).2.symm hne
      · exact List.mem_map.2 ⟨rest, mem_leafChainsAll.2 ⟨c, hc, hrest⟩, (List.cons.inj hw).2⟩

/-! ### The names in a tree -/

/-- What holds of all names below a node. -/
def Node.NamesBelow (P : Bytes → Prop) (n : Node) : Prop := ∀ w ∈ n.paths, ∀ x ∈ w, P x

variable {P : Bytes → Prop}

theorem namesBelow_iff {n : Node} :
    n.NamesBelow P ↔ ∀ c ∈ n.childNodes, P c.segmentName ∧ c.NamesBelow P := by
  constructor
  · intro h c hc
    have hcons : ∀ w ∈ c.paths, ∀ x ∈ c.segmentName :: w, P x := fun w hw =>
      h _ (cons_mem_paths.2 ⟨c, hc, rfl, hw⟩)
    exact ⟨hcons [] (nil_mem_paths c) _ List.mem_cons_self,
      fun w hw x hx => hcons w hw x (List.mem_cons_of_mem _ hx)⟩
  · rintro h (_ | ⟨y, w⟩) hw
    · simp
    · obtain ⟨c, hc, rfl, hwc⟩ := cons_mem_paths.1 hw
      exact List.forall_mem_cons.2 ⟨(h c hc).1, (h c hc).2 w hwc⟩

theorem Node.NamesBelow.maybeAddChild {n : Node} (h : n.NamesBelow P) {segment : Bytes}
    (hs : P segment) {k : Node → Node} (hname : KeepsName k)
    (hk : ∀ c : Node, c.NamesBelow P → (k c).NamesBelow P) :
    (maybeAddChild n segment k).NamesBelow P := by
  rw [namesBelow_iff] at h ⊢
  cases n with
  | squashed name c =>
    obtain ⟨hc, hbelow⟩ := h c (by simp)
    intro d hd
    obtain rfl : d = k c := by simpa [Squasher.maybeAddChild] using hd
    exact ⟨by rwa [hname], hk c hbelow⟩
  | set name cs =>
    intro d hd
    rcases mem_getOrCreate hd with hd | ⟨c, hc, rfl⟩ | rfl
    · exact h d hd
    · exact ⟨by rw [hname]; exact (h c hc).1, hk c (h c hc).2⟩
    · refine ⟨by rw [hname]; exact hs, hk _ (namesBelow_iff.2 ?_)⟩
      simp [createNode]

theorem Node.NamesBelow.squashChildren {n : Node} (h : n.NamesBelow P) (hsq : P squashedName)
    (o : IterOrder) : (squashChildren o n).NamesBelow P := by
  cases n with
  | squashed name c => exact h
  | set name cs =>
    refine namesBelow_iff.2 fun d hd => ?_
    obtain rfl : d = squashedChild o name cs := List.mem_singleton.1 hd
    refine ⟨by rwa [squashedChild, segmentName_squashInto], fun w hw => ?_⟩
    rcases (mem_paths_squashedChild o name cs).1 hw with rfl | ⟨c, hc, hw⟩
    · simp
    · exact (namesBelow_iff.1 h c hc).2 w hw

/-- A call brings in its segments and `{...}` only. -/
theorem Node.NamesBelow.addSegments (cf : Int32) (orders : ℕ → IterOrder) (hsq : P squashedName)
    {segs : List Bytes} (hsegs : ∀ s ∈ segs, P s) (depth : ℕ) {n : Node} (h : n.NamesBelow P) :
    (addSegments cf orders depth segs n).NamesBelow P := by
  induction segs generalizing depth n with
  | nil => exact h
  | cons s rest ih =>
    obtain ⟨hs, hrest⟩ := List.forall_mem_cons.1 hsegs
    have h₁ : (addSegment cf (orders depth) depth s n).NamesBelow P := by
      have h₀ := h.maybeAddChild hs .id fun _ hc => hc
      simp only [addSegment]
      split_ifs
      · exact h₀.squashChildren hsq _
      · exact h₀
    simp only [Squasher.addSegments]
    split_ifs
    · exact h₁
    · exact h₁.maybeAddChild hs (keepsName_addSegments cf orders _ rest) fun _ hc =>
        ih hrest _ hc

/-- The names in the tree after a sequence of calls. -/
theorem namesBelow_addPaths (hsq : P squashedName) (calls : List Call)
    (h : ∀ call ∈ calls, ∀ s ∈ segments call.urlPath, P s) {ps : PathSquasher}
    (hps : ps.rootNode.NamesBelow P) : (ps.addPaths calls).rootNode.NamesBelow P := by
  induction calls generalizing ps with
  | nil => exact hps
  | cons call calls ih =>
    obtain ⟨hcall, hrest⟩ := List.forall_mem_cons.1 h
    exact ih hrest (hps.addSegments _ _ hsq hcall 0)

/-! ### The depth of a tree -/

/-- No path below the node is longer. -/
def Node.DepthBelow (d : ℕ) (n : Node) : Prop := ∀ w ∈ n.paths, w.length ≤ d

theorem depthBelow_iff {n : Node} {d : ℕ} :
    n.DepthBelow (d + 1) ↔ ∀ c ∈ n.childNodes, c.DepthBelow d := by
  constructor
  · intro h c hc w hw
    have := h _ (cons_mem_paths.2 ⟨c, hc, rfl, hw⟩)
    rw [List.length_cons] at this
    omega
  · rintro h (_ | ⟨y, w⟩) hw
    · exact Nat.zero_le _
    · obtain ⟨c, hc, -, hwc⟩ := cons_mem_paths.1 hw
      exact Nat.succ_le_succ (h c hc w hwc)

theorem depthBelow_createNode (name : Bytes) (d : ℕ) : (createNode name).DepthBelow d := by
  intro w hw
  rw [paths_createNode] at hw
  rw [Set.mem_singleton_iff.1 hw]
  exact Nat.zero_le _

theorem Node.DepthBelow.maybeAddChild {n : Node} {d : ℕ} (h : n.DepthBelow (d + 1))
    (segment : Bytes) {k : Node → Node} (hk : ∀ c : Node, c.DepthBelow d → (k c).DepthBelow d) :
    (maybeAddChild n segment k).DepthBelow (d + 1) := by
  rw [depthBelow_iff] at h ⊢
  cases n with
  | squashed name c =>
    intro e he
    obtain rfl : e = k c := by simpa [Squasher.maybeAddChild] using he
    exact hk c (h c (by simp))
  | set name cs =>
    intro e he
    rcases mem_getOrCreate he with he | ⟨c, hc, rfl⟩ | rfl
    · exact h e he
    · exact hk c (h c hc)
    · exact hk _ (depthBelow_createNode segment d)

/-- The names that a squash drops are those of one level. -/
theorem Node.DepthBelow.squashChildren {n : Node} {d : ℕ} (h : n.DepthBelow (d + 1))
    (o : IterOrder) : (squashChildren o n).DepthBelow (d + 1) := by
  cases n with
  | squashed name c => exact h
  | set name cs =>
    refine depthBelow_iff.2 fun e he w hw => ?_
    obtain rfl : e = squashedChild o name cs := List.mem_singleton.1 he
    rcases (mem_paths_squashedChild o name cs).1 hw with rfl | ⟨c, hc, hw⟩
    · exact Nat.zero_le _
    · exact depthBelow_iff.1 h c hc w hw

theorem Node.DepthBelow.addSegment {n : Node} {d : ℕ} (h : n.DepthBelow (d + 1)) (cf : Int32)
    (o : IterOrder) (depth : ℕ) (segment : Bytes) :
    (addSegment cf o depth segment n).DepthBelow (d + 1) := by
  have h₀ := h.maybeAddChild segment (k := id) fun _ hc => hc
  simp only [Squasher.addSegment]
  split_ifs
  · exact h₀.squashChildren _
  · exact h₀

/-- A call goes down to the fifth level. -/
theorem Node.DepthBelow.addSegments (cf : Int32) (orders : ℕ → IterOrder) (segs : List Bytes)
    {depth d : ℕ} (hd : depth + d = 4) {n : Node} (h : n.DepthBelow (d + 1)) :
    (addSegments cf orders depth segs n).DepthBelow (d + 1) := by
  induction segs generalizing depth d n with
  | nil => exact h
  | cons s rest ih =>
    have h₁ := h.addSegment cf (orders depth) depth s
    simp only [Squasher.addSegments]
    split_ifs with h5
    · exact h₁
    · obtain ⟨d, rfl⟩ : ∃ e, d = e + 1 := ⟨d - 1, by omega⟩
      exact h₁.maybeAddChild s fun c hc => ih (by omega) hc

theorem depthBelow_addPaths (calls : List Call) {ps : PathSquasher}
    (hps : ps.rootNode.DepthBelow 5) : (ps.addPaths calls).rootNode.DepthBelow 5 := by
  induction calls generalizing ps with
  | nil => exact hps
  | cons call calls ih => exact ih (hps.addSegments _ _ _ (by omega))

/-! ### The text determines the names -/

/-- A name that the text separates from its neighbours. -/
def Separable (name : Bytes) : Prop := name ≠ [] ∧ 47 ∉ name ∧ 91 ∉ name

theorem separable_squashedName : Separable squashedName := by
  refine ⟨?_, ?_, ?_⟩ <;> decide

/-- The segments of a path without `[` are separable. -/
theorem separable_of_mem_segments {p s : Bytes} (hp : 91 ∉ p) (hs : s ∈ segments p) :
    Separable s := by
  refine ⟨ne_nil_of_mem_strtok hs, notMem_of_mem_strtok hs, fun h => hp ?_⟩
  have hmem := (infix_of_mem_strtok hs).subset h
  split_ifs at hmem with hlast
  · exact List.mem_of_mem_dropLast hmem
  · exact hmem

theorem regexSegment_squashedName : regexSegment squashedName = cstr "[^\\/]+" := if_pos rfl

/-- What stands in the text behind a name: nothing, or a separator and the other names. -/
def regexRest : List Bytes → Bytes
  | [] => []
  | x :: w => 92 :: 47 :: (regexSegment x ++ regexRest w)

theorem regexText_cons (x : Bytes) (w : List Bytes) :
    regexText (x :: w) = cstr "(" ++ (regexSegment x ++ regexRest w) ++ cstr ".*)" := by
  have hrest : ∀ (y : Bytes) (v : List Bytes),
      (cstr "\\/").intercalate ((y :: v).map regexSegment) = regexSegment y ++ regexRest v := by
    intro y v
    induction v generalizing y with
    | nil => simp [regexRest, List.intercalate]
    | cons z v ih =>
      rw [regexRest, ← ih z]
      rfl
  rw [regexText, hrest]

/-- The first byte of what is written for a name is a `[` for the wildcard only. -/
theorem regexSegment_append_ne {x : Bytes} (hx : Separable x) (hsq : x ≠ squashedName)
    (r r' : Bytes) : x ++ r ≠ regexSegment squashedName ++ r' := by
  obtain ⟨hne, -, hbracket⟩ := hx
  cases x with
  | nil => exact absurd rfl hne
  | cons c x =>
    intro h
    have hc : c = 91 := by
      rw [regexSegment_squashedName] at h
      exact (List.cons.inj h).1
    exact hbracket (hc ▸ List.mem_cons_self)

/-- A name without a `/` ends before the first separator. -/
theorem eq_of_append_regexRest {x y : Bytes} (hx : 47 ∉ x) (hy : 47 ∉ y) {v w : List Bytes}
    (h : x ++ regexRest v = y ++ regexRest w) : x = y ∧ regexRest v = regexRest w := by
  cases v with
  | nil =>
    cases w with
    | nil => exact ⟨by simpa [regexRest] using h, rfl⟩
    | cons b w =>
      rw [regexRest, List.append_nil] at h
      exact absurd (h ▸ by simp [regexRest]) hx
  | cons a v =>
    cases w with
    | nil =>
      rw [regexRest.eq_1, List.append_nil] at h
      exact absurd (h ▸ by simp [regexRest]) hy
    | cons b w =>
      have hsplit : (x ++ [92]) ++ 47 :: (regexSegment a ++ regexRest v) =
          (y ++ [92]) ++ 47 :: (regexSegment b ++ regexRest w) := by
        simpa [regexRest] using h
      obtain ⟨hxy, hrest⟩ := append_delim_inj (by simpa using hx) (by simpa using hy) hsplit
      exact ⟨List.append_cancel_right hxy, by rw [regexRest, regexRest, hrest]⟩

theorem eq_of_regexSegment_append {x y : Bytes} (hx : Separable x) (hy : Separable y)
    {v w : List Bytes} (h : regexSegment x ++ regexRest v = regexSegment y ++ regexRest w) :
    x = y ∧ regexRest v = regexRest w := by
  by_cases hxsq : x = squashedName
  · by_cases hysq : y = squashedName
    · subst hxsq hysq
      exact ⟨rfl, List.append_cancel_left h⟩
    · subst hxsq
      rw [regexSegment.eq_1 y, if_neg hysq] at h
      exact absurd h.symm (regexSegment_append_ne hy hysq _ _)
  · rw [regexSegment.eq_1 x, if_neg hxsq] at h
    by_cases hysq : y = squashedName
    · subst hysq
      exact absurd h (regexSegment_append_ne hx hxsq _ _)
    · rw [regexSegment, if_neg hysq] at h
      exact eq_of_append_regexRest hx.2.1 hy.2.1 h

theorem regexRest_inj {v w : List Bytes} (hv : ∀ x ∈ v, Separable x) (hw : ∀ x ∈ w, Separable x)
    (h : regexRest v = regexRest w) : v = w := by
  induction v generalizing w with
  | nil =>
    cases w with
    | nil => rfl
    | cons y w => cases h
  | cons x v ih =>
    cases w with
    | nil => cases h
    | cons y w =>
      obtain ⟨hx, hvs⟩ := List.forall_mem_cons.1 hv
      obtain ⟨hy, hws⟩ := List.forall_mem_cons.1 hw
      obtain ⟨hxy, hrest⟩ := eq_of_regexSegment_append hx hy
        (List.cons.inj (List.cons.inj h).2).2
      rw [hxy, ih hvs hws hrest]

/-- Separable names can be read off their text. -/
theorem regexText_inj {v w : List Bytes} (hv : ∀ x ∈ v, Separable x)
    (hw : ∀ x ∈ w, Separable x) (hvne : v ≠ []) (hwne : w ≠ [])
    (h : regexText v = regexText w) : v = w := by
  obtain ⟨x, v, rfl⟩ := List.exists_cons_of_ne_nil hvne
  obtain ⟨y, w, rfl⟩ := List.exists_cons_of_ne_nil hwne
  rw [regexText_cons, regexText_cons] at h
  obtain ⟨hx, hvs⟩ := List.forall_mem_cons.1 hv
  obtain ⟨hy, hws⟩ := List.forall_mem_cons.1 hw
  obtain ⟨hxy, hrest⟩ := eq_of_regexSegment_append hx hy
    (List.append_cancel_left (List.append_cancel_right h))
  rw [hxy, regexRest_inj hvs hws hrest]

/-! ### The table -/

/-- What the traversal of a tree leaves behind when it has visited every leaf once and stored
one entry for each leaf below a squash. -/
structure Traversal.Exact (pcre : Engine) (root : Node) (s : Traversal) : Prop where
  finished : s.stack = []
  visitedOnce : (s.visited.map Chain.names).Nodup
  visited : ∀ w, w ∈ s.visited.map Chain.names ↔ LeafBelow root w
  keys : ∀ key, key ∈ s.table ↔ ∃ w, LeafBelowSquash root w ∧ key = regexText w
  entries : ∀ w, LeafBelowSquash root w → ∃ exec, pcre (regexText w) = some exec ∧
    s.table.lookup (regexText w) = some ⟨exec, replaceText w⟩
  noCollision : ∀ v w, LeafBelowSquash root v → LeafBelowSquash root w →
    regexText v = regexText w → v = w

/-- The texts of different leaves below a squash are different. -/
theorem regexText_leaf_inj (cf : Int32) {calls : List Call} (h : ∀ call ∈ calls, 91 ∉ call.urlPath)
    {v w : List Bytes} (hv : LeafBelowSquash ((tmPathSquasherAlloc cf).addPaths calls).rootNode v)
    (hw : LeafBelowSquash ((tmPathSquasherAlloc cf).addPaths calls).rootNode w)
    (hvw : regexText v = regexText w) : v = w := by
  have hroot : (tmPathSquasherAlloc cf).rootNode.NamesBelow Separable := by
    rw [namesBelow_iff]
    simp [tmPathSquasherAlloc, createNode]
  have hnames := namesBelow_addPaths separable_squashedName calls
    (fun call hcall s hs => separable_of_mem_segments (h call hcall) hs) hroot
  have hleaf : ∀ u, LeafBelowSquash ((tmPathSquasherAlloc cf).addPaths calls).rootNode u →
      u ≠ [] ∧ ∀ x ∈ u, Separable x := by
    intro u hu
    obtain ⟨hne, m, hwalk, -⟩ := hu.leafBelow
    exact ⟨hne, hnames u ⟨m, hwalk⟩⟩
  exact regexText_inj (hleaf v hv).2 (hleaf w hw).2 (hleaf v hv).1 (hleaf w hw).1 hvw

/-- **The table of the regular expressions.**  After any calls with paths without `[`, when the
texts of all leaves below a squash fit and compile, the loop ends within as many turns as the
tree has nodes, has visited every leaf once, and returns a table whose keys are the texts of the
leaves below a squash, each with the replacement of its own leaf. -/
theorem regex_table_exact (cf : Int32) (calls : List Call)
    (hpaths : ∀ call ∈ calls, 91 ∉ call.urlPath) (pcre : Engine) (o : IterOrder)
    (htexts : ∀ w, LeafBelowSquash ((tmPathSquasherAlloc cf).addPaths calls).rootNode w →
      TextsFit w ∧ (pcre (regexText w)).isSome) :
    ∃ s, (∀ fuel, ((tmPathSquasherAlloc cf).addPaths calls).rootNode.count ≤ fuel →
        popLoop pcre fuel (startTraversal o ((tmPathSquasherAlloc cf).addPaths calls)) = some s) ∧
      tmPathSquasherGetRegexes pcre o ((tmPathSquasherAlloc cf).addPaths calls) = some s.table ∧
      s.Exact pcre ((tmPathSquasherAlloc cf).addPaths calls).rootNode := by
  have hinj := fun v w => regexText_leaf_inj cf hpaths (v := v) (w := w)
  generalize (tmPathSquasherAlloc cf).addPaths calls = ps at htexts hinj ⊢
  obtain ⟨t, ht⟩ := Option.isSome_iff_exists.1
    ((isSome_getRegexes_iff pcre o ps).2 fun w hw => (htexts w hw).1)
  obtain ⟨hsound, hkeys⟩ := mem_getRegexes_iff ht
  obtain ⟨honce, hvisited⟩ := rootChains_spec o ps.wellFormed
  refine ⟨⟨[], t, rootChains o ps.rootNode⟩, fun fuel hfuel => ?_, ht, rfl, honce, hvisited,
    fun key => ?_, fun w hw => ?_, hinj⟩
  · rw [popLoop_table pcre o ps hfuel, ht]
    rfl
  · rw [hkeys]
    constructor
    · rintro ⟨w, hw, hkey, -⟩
      exact ⟨w, hw, hkey⟩
    · rintro ⟨w, hw, rfl⟩
      exact ⟨w, hw, rfl, (htexts w hw).2⟩
  · have hmem : regexText w ∈ t := (hkeys _).2 ⟨w, hw, rfl, (htexts w hw).2⟩
    obtain ⟨⟨exec, replace⟩, hm⟩ := Option.isSome_iff_exists.1 (AList.lookup_isSome.2 hmem)
    -- the entry was made for a leaf of this text, which is `w`
    obtain ⟨v, hv, hvw, hexec, hreplace⟩ := exists_leaf_of_lookup ht hm
    obtain rfl := hinj w v hw hv hvw
    obtain rfl : replace = replaceText w := hreplace
    exact ⟨exec, hexec, hm⟩

/-- The table of `/a/x/1` and `/a/y` with the factor `6`. -/
theorem regex_table_two_paths :
    ∃ s, (∀ fuel, twoPaths.rootNode.count ≤ fuel →
        popLoop reference fuel (startTraversal .listed twoPaths) = some s) ∧
      tmPathSquasherGetRegexes reference .listed twoPaths = some s.table ∧
      s.Exact reference twoPaths.rootNode :=
  regex_table_exact 6 [.listed "/a/x/1", .listed "/a/y"] (by decide) reference .listed
    fun w hw => by
      rw [leafBelowSquash_twoPaths.1 hw]
      decide

end Tracemate.Squasher
