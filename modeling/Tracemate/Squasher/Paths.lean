import Tracemate.Squasher.Tree

/-!
# No path is lost by squashing

The abstract meaning of a tree is the set of its paths, the names along the walks down from its
root.

* `paths_recurseAddAll`: a merge into a node without squashed descendants is a union;
* `paths_squashInto`: a squash drops the names of one level;
* `subsumes_addSegments`: a call only replaces names by `{...}`;
* `covered_addSegments`: after a call its own path is covered;
* `walk_covers_added_path`: both, over a sequence of calls.
-/

namespace Tracemate.Squasher

open CStr Wildcard

/-! ### Walks and path sets -/

/-- The names `w` lead down from the first node to the last one. -/
def Walk : Node → List Bytes → Node → Prop
  | n, [], m => m = n
  | n, x :: w, m => ∃ c ∈ n.childNodes, c.segmentName = x ∧ Walk c w m

theorem walk_append {n l : Node} {v w : List Bytes} :
    Walk n (v ++ w) l ↔ ∃ m, Walk n v m ∧ Walk m w l := by
  induction v generalizing n with
  | nil => simp [Walk]
  | cons x v ih =>
    simp only [List.cons_append, Walk, ih]
    constructor
    · rintro ⟨c, hc, hx, m, hm, hl⟩
      exact ⟨m, ⟨c, hc, hx, hm⟩, hl⟩
    · rintro ⟨m, ⟨c, hc, hx, hm⟩, hl⟩
      exact ⟨c, hc, hx, m, hm, hl⟩

/-- The paths of a tree: the names along its walks. -/
def Node.paths (n : Node) : Set (List Bytes) := {w | ∃ m, Walk n w m}

/-- The paths below a set of siblings. -/
def pathsBelow (cs : List Node) : Set (List Bytes) :=
  {w | ∃ c ∈ cs, w ∈ consAll c.segmentName c.paths}

@[simp] theorem nil_mem_paths (n : Node) : [] ∈ n.paths := ⟨n, rfl⟩

theorem cons_mem_paths {n : Node} {x : Bytes} {w : List Bytes} :
    x :: w ∈ n.paths ↔ ∃ c ∈ n.childNodes, c.segmentName = x ∧ w ∈ c.paths := by
  constructor
  · rintro ⟨m, c, hc, hx, h⟩
    exact ⟨c, hc, hx, m, h⟩
  · rintro ⟨c, hc, hx, m, h⟩
    exact ⟨m, c, hc, hx, h⟩

theorem mem_paths_iff {n : Node} {w : List Bytes} :
    w ∈ n.paths ↔ w = [] ∨ w ∈ pathsBelow n.childNodes := by
  cases w with
  | nil => simp
  | cons x w => simp [cons_mem_paths, pathsBelow, eq_comm]

theorem paths_eq (n : Node) : n.paths = {[]} ∪ pathsBelow n.childNodes := by
  ext w
  simp [mem_paths_iff]

@[simp] theorem paths_createNode (name : Bytes) : (createNode name).paths = {[]} := by
  ext w
  simp [mem_paths_iff, createNode, pathsBelow]

@[simp] theorem pathsBelow_nil : pathsBelow [] = ∅ := by
  ext w
  simp [pathsBelow]

@[simp] theorem pathsBelow_cons (c : Node) (cs : List Node) :
    pathsBelow (c :: cs) = consAll c.segmentName c.paths ∪ pathsBelow cs := by
  ext w
  simp [pathsBelow]

theorem pathsBelow_perm {cs ds : List Node} (h : cs.Perm ds) : pathsBelow cs = pathsBelow ds := by
  ext w
  simp [pathsBelow, h.mem_iff]

/-! ### Merges are unions -/

/-- No node of the subtree has its children squashed. -/
inductive Node.Plain : Node → Prop
  | set {name : Bytes} {cs : List Node} : (∀ c ∈ cs, c.Plain) → (Node.set name cs).Plain

theorem plain_createNode (name : Bytes) : (createNode name).Plain := .set (by simp)

/-- `k` adds the paths `A` to every node without squashed descendants. -/
structure Adds (k : Node → Node) (A : Set (List Bytes)) : Prop where
  keepsName : KeepsName k
  plain : ∀ n : Node, n.Plain → (k n).Plain
  paths : ∀ n : Node, n.Plain → (k n).paths = n.paths ∪ A

theorem pathsBelow_getOrCreate {k : Node → Node} {A : Set (List Bytes)} (hk : Adds k A)
    (s : Bytes) {cs : List Node} (hcs : ∀ c ∈ cs, c.Plain) :
    pathsBelow (getOrCreate s k cs) = pathsBelow cs ∪ consAll s ({[]} ∪ A) := by
  induction cs with
  | nil =>
    simp [getOrCreate, hk.keepsName _, hk.paths _ (plain_createNode s), segmentName_createNode]
  | cons c cs ih =>
    by_cases hc : c.segmentName = s
    · have hnil : consAll s {[]} ⊆ consAll s c.paths := by
        rintro _ ⟨v, rfl, rfl⟩
        exact ⟨[], nil_mem_paths c, rfl⟩
      rw [getOrCreate, if_pos hc, pathsBelow_cons, pathsBelow_cons, hk.keepsName,
        hk.paths c (hcs c List.mem_cons_self), hc, consAll_union, consAll_union]
      conv_lhs => rw [← Set.union_eq_self_of_subset_right hnil]
      ac_rfl
    · rw [getOrCreate, if_neg hc, pathsBelow_cons, pathsBelow_cons,
        ih fun d hd => hcs d (List.mem_cons_of_mem _ hd), Set.union_assoc]

/-- Adding below the child of a name, as a union of path sets. -/
theorem Adds.maybeAddChild {k : Node → Node} {A : Set (List Bytes)} (hk : Adds k A) (s : Bytes) :
    Adds (fun n => maybeAddChild n s k) (consAll s ({[]} ∪ A)) := by
  refine ⟨fun n => segmentName_maybeAddChild n s k, ?_, ?_⟩
  · rintro _ (@⟨name, cs, hcs⟩)
    refine .set fun d hd => ?_
    rcases mem_getOrCreate hd with hd | ⟨c, hc, rfl⟩ | rfl
    · exact hcs d hd
    · exact hk.plain c (hcs c hc)
    · exact hk.plain _ (plain_createNode s)
  · rintro _ (@⟨name, cs, hcs⟩)
    rw [paths_eq, paths_eq, Squasher.maybeAddChild, Node.childNodes_set, Node.childNodes_set,
      pathsBelow_getOrCreate hk s hcs, Set.union_assoc]

theorem Adds.comp {k l : Node → Node} {A B : Set (List Bytes)} (hk : Adds k A) (hl : Adds l B) :
    Adds (fun n => l (k n)) (A ∪ B) where
  keepsName n := by rw [hl.keepsName, hk.keepsName]
  plain n hn := hl.plain _ (hk.plain n hn)
  paths n hn := by rw [hl.paths _ (hk.plain n hn), hk.paths n hn, Set.union_assoc]

/-- The loop around `recurse_add_children` adds the paths below the nodes it visits, when each
call adds those of its child. -/
theorem adds_recurseAddAll_of {cs : List Node}
    (h : ∀ c ∈ cs, Adds (recurseAddChildren c) (consAll c.segmentName c.paths)) :
    Adds (recurseAddAll cs) (pathsBelow cs) := by
  induction cs with
  | nil => exact ⟨keepsName_recurseAddAll _, by simp, by simp⟩
  | cons c cs ih =>
    have hcons : recurseAddAll (c :: cs) = fun n => recurseAddAll cs (recurseAddChildren c n) := by
      funext n
      exact recurseAddAll_cons c cs n
    rw [hcons, pathsBelow_cons]
    exact (h c List.mem_cons_self).comp (ih fun d hd => h d (List.mem_cons_of_mem _ hd))

/-- `recurse_add_children` adds the paths of the child, below its name. -/
theorem adds_recurseAddChildren (child : Node) :
    Adds (recurseAddChildren child) (consAll child.segmentName child.paths) := by
  induction child using Node.induct with
  | h child ih =>
    have heq : recurseAddChildren child = fun parent =>
        maybeAddChild parent child.segmentName (recurseAddAll child.childNodes) := by
      funext parent
      exact recurseAddChildren_eq child parent
    rw [heq, paths_eq]
    exact (adds_recurseAddAll_of ih).maybeAddChild child.segmentName

theorem adds_recurseAddAll (cs : List Node) : Adds (recurseAddAll cs) (pathsBelow cs) :=
  adds_recurseAddAll_of fun c _ => adds_recurseAddChildren c

/-! ### Squashing drops the names of one level -/

theorem plain_squashInto (children : List Node) : (squashInto children).Plain := by
  rw [squashInto_eq]
  exact (adds_recurseAddAll _).plain _ (plain_createNode _)

theorem mem_paths_squashInto {children : List Node} {w : List Bytes} :
    w ∈ (squashInto children).paths ↔ w = [] ∨ ∃ c ∈ children, w ∈ c.paths := by
  rw [squashInto_eq, (adds_recurseAddAll _).paths _ (plain_createNode _)]
  constructor
  · rintro (h | ⟨g, hg, h⟩)
    · exact .inl (by simpa using h)
    · obtain ⟨c, hc, hg⟩ := List.mem_flatMap.1 hg
      exact .inr ⟨c, hc, mem_paths_iff.2 (.inr ⟨g, hg, h⟩)⟩
  · rintro (rfl | ⟨c, hc, h⟩)
    · exact .inl (by simp)
    · rcases mem_paths_iff.1 h with rfl | ⟨g, hg, h⟩
      · exact .inl (by simp)
      · exact .inr ⟨g, List.mem_flatMap.2 ⟨c, hc, hg⟩, h⟩

theorem reorderAll_eq_map (o : IterOrder) (path : List Bytes) (cs : List Node) :
    Node.reorderAll o path cs = cs.map (Node.reorder o path) := by
  induction cs with
  | nil => rw [Node.reorderAll, List.map_nil]
  | cons c cs ih => rw [Node.reorderAll, ih, List.map_cons]

@[simp] theorem segmentName_reorder (o : IterOrder) (path : List Bytes) (n : Node) :
    (n.reorder o path).segmentName = n.segmentName := by
  cases n <;> rw [Node.reorder] <;> rfl

/-- The nodes below a node, up to the order of the visit. -/
theorem childNodes_reorder_perm (o : IterOrder) (path : List Bytes) (n : Node) :
    (n.reorder o path).childNodes.Perm
      (n.childNodes.map (Node.reorder o (path ++ [n.segmentName]))) := by
  cases n with
  | set name cs =>
    rw [Node.reorder, reorderAll_eq_map]
    exact o.perm _ _
  | squashed name c =>
    rw [Node.reorder]
    exact .refl _

/-- The order of the visits is irrelevant to the paths. -/
theorem paths_reorder (o : IterOrder) (n : Node) (path : List Bytes) :
    (n.reorder o path).paths = n.paths := by
  induction n using Node.induct generalizing path with
  | h n ih =>
    rw [paths_eq, paths_eq, pathsBelow_perm (childNodes_reorder_perm o path n)]
    congr 1
    ext w
    simp only [pathsBelow, List.mem_map, exists_exists_and_eq_and, segmentName_reorder]
    exact exists_congr fun c => and_congr_right fun hc => by rw [ih c hc]

/-- `squash_children` keeps the paths below the children, whatever the order of its visits. -/
theorem mem_paths_squashedChild (o : IterOrder) (name : Bytes) (cs : List Node)
    {w : List Bytes} :
    w ∈ (squashedChild o name cs).paths ↔ w = [] ∨ ∃ c ∈ cs, w ∈ c.paths := by
  rw [squashedChild, mem_paths_squashInto]
  refine or_congr_right ?_
  simp only [(childNodes_reorder_perm o [] _).mem_iff, List.mem_map, exists_exists_and_eq_and,
    paths_reorder, Node.childNodes_set]

/-! ### A call only replaces names by `{...}` -/

/-- An old child is still there, or `k` has been applied to it. -/
theorem mem_getOrCreate_of_mem {c : Node} {cs : List Node} (h : c ∈ cs) (s : Bytes)
    (k : Node → Node) : c ∈ getOrCreate s k cs ∨ k c ∈ getOrCreate s k cs := by
  induction cs with
  | nil => cases h
  | cons d cs ih =>
    by_cases hd : d.segmentName = s
    · rw [getOrCreate, if_pos hd]
      rcases List.mem_cons.1 h with rfl | h
      · exact .inr List.mem_cons_self
      · exact .inl (List.mem_cons_of_mem _ h)
    · rw [getOrCreate, if_neg hd]
      rcases List.mem_cons.1 h with rfl | h
      · exact .inl List.mem_cons_self
      · exact (ih h).imp (List.mem_cons_of_mem _) (List.mem_cons_of_mem _)

/-- The child that the lookup returns, and to which `k` is applied. -/
theorem exists_getOrCreate (s : Bytes) (k : Node → Node) (cs : List Node) :
    ∃ c, (c ∈ cs ∨ c = createNode s) ∧ c.segmentName = s ∧ k c ∈ getOrCreate s k cs := by
  induction cs with
  | nil => exact ⟨createNode s, .inr rfl, rfl, List.mem_singleton_self _⟩
  | cons d cs ih =>
    by_cases hd : d.segmentName = s
    · exact ⟨d, .inl List.mem_cons_self, hd, by simp [getOrCreate, hd]⟩
    · obtain ⟨c, hc, hs, hmem⟩ := ih
      refine ⟨c, hc.imp_left (List.mem_cons_of_mem _), hs, ?_⟩
      rw [getOrCreate, if_neg hd]
      exact List.mem_cons_of_mem _ hmem

theorem subsumes_maybeAddChild {k : Node → Node} (hname : KeepsName k)
    (hk : ∀ c : Node, Subsumes squashedName c.paths (k c).paths) (n : Node) (s : Bytes) :
    Subsumes squashedName n.paths (maybeAddChild n s k).paths := by
  intro w hw
  cases w with
  | nil => exact ⟨[], nil_mem_paths _, .refl _⟩
  | cons x v =>
    obtain ⟨c, hc, rfl, hv⟩ := cons_mem_paths.1 hw
    obtain ⟨u, hu, huv⟩ := hk c v hv
    have hkc : k c ∈ (maybeAddChild n s k).childNodes ∨ c ∈ (maybeAddChild n s k).childNodes := by
      cases n with
      | squashed name d =>
        obtain rfl : c = d := by simpa using hc
        exact .inl (List.mem_singleton_self _)
      | set name cs => exact (mem_getOrCreate_of_mem hc s k).symm
    rcases hkc with hkc | hkc
    · exact ⟨c.segmentName :: u, cons_mem_paths.2 ⟨k c, hkc, hname c, hu⟩, .cons (.inl rfl) huv⟩
    · exact ⟨c.segmentName :: v, cons_mem_paths.2 ⟨c, hkc, rfl, hv⟩, .refl _⟩

theorem subsumes_squashChildren (o : IterOrder) (n : Node) :
    Subsumes squashedName n.paths (squashChildren o n).paths := by
  cases n with
  | squashed name c => exact .of_subset fun _ h => h
  | set name cs =>
    intro w hw
    cases w with
    | nil => exact ⟨[], nil_mem_paths _, .refl _⟩
    | cons x v =>
      obtain ⟨c, hc, -, hv⟩ := cons_mem_paths.1 hw
      refine ⟨squashedName :: v, cons_mem_paths.2 ⟨squashedChild o name cs, ?_, ?_, ?_⟩,
        .cons (.inr rfl) (Covers.refl v)⟩
      · exact List.mem_singleton_self _
      · exact segmentName_squashInto _
      · exact (mem_paths_squashedChild o name cs).2 (.inr ⟨c, hc, hv⟩)

variable (cf : Int32) (orders : ℕ → IterOrder)

theorem subsumes_addSegment (depth : ℕ) (s : Bytes) (n : Node) :
    Subsumes squashedName n.paths (addSegment cf (orders depth) depth s n).paths := by
  have h := subsumes_maybeAddChild .id (fun c => .of_subset fun _ h => h) n s
  simp only [addSegment]
  split_ifs
  · exact h.trans (subsumes_squashChildren _ _)
  · exact h

/-- A call covers every path that the tree had. -/
theorem subsumes_addSegments (depth : ℕ) (segs : List Bytes) (n : Node) :
    Subsumes squashedName n.paths (addSegments cf orders depth segs n).paths := by
  induction segs generalizing depth n with
  | nil => exact .of_subset fun _ h => h
  | cons s rest ih =>
    have h := subsumes_addSegment cf orders depth s n
    simp only [addSegments]
    split_ifs
    · exact h
    · exact h.trans (subsumes_maybeAddChild (keepsName_addSegments cf orders _ rest) (ih _) _ _)

/-! ### A call covers its own path -/

/-- The child that the lookup moves to is named by the segment or by `{...}`. -/
theorem covered_maybeAddChild {k : Node → Node} (hname : KeepsName k) {n : Node}
    (hn : n.WellFormed) (s : Bytes) {p : List Bytes}
    (hk : ∀ c : Node, c.WellFormed → ∃ w ∈ (k c).paths, Covers squashedName w p) :
    ∃ w ∈ (maybeAddChild n s k).paths, Covers squashedName w (s :: p) := by
  cases hn with
  | @squashed name c hc hwf =>
    obtain ⟨w, hw, hp⟩ := hk c hwf
    refine ⟨squashedName :: w, cons_mem_paths.2 ⟨k c, List.mem_singleton_self _, ?_, hw⟩,
      .cons (.inr rfl) hp⟩
    rw [hname, hc]
  | @set name cs hnames hcs =>
    obtain ⟨c, hc, hs, hmem⟩ := exists_getOrCreate s k cs
    have hwf : c.WellFormed := by
      rcases hc with hc | rfl
      · exact hcs c hc
      · exact wellFormed_createNode s
    obtain ⟨w, hw, hp⟩ := hk c hwf
    refine ⟨s :: w, cons_mem_paths.2 ⟨k c, hmem, ?_, hw⟩, .cons (.inl rfl) hp⟩
    rw [hname, hs]

theorem covered_addSegment (depth : ℕ) (s : Bytes) {n : Node} (hn : n.WellFormed) :
    ∃ w ∈ (addSegment cf (orders depth) depth s n).paths, Covers squashedName w [s] := by
  obtain ⟨w, hw, hp⟩ := covered_maybeAddChild .id hn s (p := [])
    fun c _ => ⟨[], nil_mem_paths _, .refl _⟩
  simp only [addSegment]
  split_ifs
  · obtain ⟨u, hu, huw⟩ := subsumes_squashChildren (orders depth) _ w hw
    exact ⟨u, hu, huw.trans hp⟩
  · exact ⟨w, hw, hp⟩

theorem covered_addSegments (depth : ℕ) (hdepth : depth < 5) (segs : List Bytes) {n : Node}
    (hn : n.WellFormed) :
    ∃ w ∈ (addSegments cf orders depth segs n).paths,
      Covers squashedName w (segs.take (5 - depth)) := by
  induction segs generalizing depth n with
  | nil => exact ⟨[], nil_mem_paths _, by simp⟩
  | cons s rest ih =>
    obtain ⟨d, hd⟩ : ∃ d, 5 - depth = d + 1 := ⟨4 - depth, by omega⟩
    rw [hd, List.take_succ_cons]
    simp only [addSegments]
    split_ifs with h5
    · obtain rfl : d = 0 := by omega
      rw [List.take_zero]
      exact covered_addSegment cf orders depth s hn
    · refine covered_maybeAddChild (keepsName_addSegments cf orders _ rest)
        (hn.addSegment cf _ depth s) s fun c hc => ?_
      obtain rfl : d = 5 - (depth + 1) := by omega
      exact ih (depth + 1) (by omega) hc

/-! ### Sequences of calls -/

theorem PathSquasher.addPaths_append (ps : PathSquasher) (xs ys : List Call) :
    ps.addPaths (xs ++ ys) = (ps.addPaths xs).addPaths ys := List.foldl_append ..

/-- Later calls cover every path that the tree has. -/
theorem PathSquasher.subsumes_addPaths (ps : PathSquasher) (calls : List Call) :
    Subsumes squashedName ps.rootNode.paths (ps.addPaths calls).rootNode.paths := by
  induction calls generalizing ps with
  | nil => exact .of_subset fun _ h => h
  | cons call calls ih =>
    exact (subsumes_addSegments ps.cardinalityFactor call.orders 0 (segments call.urlPath)
      ps.rootNode).trans (ih (tmPathSquasherAddPath ps call.orders call.urlPath))

/-- **No path is lost.**  After any sequence of calls, whatever the orders of the visits, the
tree has a walk that covers the first five segments of every path added so far. -/
theorem walk_covers_added_path (calls : List Call) (call : Call) (h : call ∈ calls) :
    ∃ w n, Walk ((tmPathSquasherAlloc cf).addPaths calls).rootNode w n ∧
      Covers squashedName w ((segments call.urlPath).take 5) := by
  obtain ⟨before, after, rfl⟩ := List.append_of_mem h
  set ps := (tmPathSquasherAlloc cf).addPaths before with hps
  obtain ⟨v, hv, hvp⟩ := covered_addSegments ps.cardinalityFactor call.orders 0 (by omega)
    (segments call.urlPath) ps.wellFormed
  obtain ⟨w, ⟨n, hw⟩, hwv⟩ :=
    (tmPathSquasherAddPath ps call.orders call.urlPath).subsumes_addPaths after v hv
  refine ⟨w, n, ?_, hwv.trans hvp⟩
  rw [PathSquasher.addPaths_append, ← hps]
  exact hw

/-- The first of two paths whose second call squashes. -/
theorem walk_covers_squashed_path :
    ∃ w n, Walk ((tmPathSquasherAlloc 6).addPaths
      [.listed "/a/x", .listed "/a/y"]).rootNode w n ∧
        Covers squashedName w ((segments (cstr "/a/x")).take 5) :=
  walk_covers_added_path 6 [.listed "/a/x", .listed "/a/y"] (.listed "/a/x") List.mem_cons_self

end Tracemate.Squasher
