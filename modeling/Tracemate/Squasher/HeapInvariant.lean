import Tracemate.Squasher.HeapCalls

/-!
# The representation of a squasher in the memory

* `Represents`: the nodes on the heap are those of a `PathSquasher`;
* `Represents.addPath`, `exists_addPaths`: every call succeeds, and the nodes are those of the
  squasher after the same call;
* `ReachAt`: the nodes that can be reached from the root;
* `RepresentationInvariant`: what holds of every node that can be reached;
* `representationInvariant_addPaths`: it holds after every sequence of calls.
-/

namespace Tracemate.Squasher

open CStr HeapMemory

variable {h h' : Heap NodeT} {par : Option ℕ} {p t c : Placed} {a b k : ℕ}

/-! ### The calls -/

/-- The nodes on the heap are those of the squasher. -/
structure Represents (hs : HeapSquasher) (ps : PathSquasher) : Prop where
  tree : ∃ t : Placed, Holds hs.heap none t ∧ t.addr = hs.rootNode ∧ t.addrs.Nodup ∧
    t.erase = ps.rootNode
  cardinalityFactor : hs.cardinalityFactor = ps.cardinalityFactor
  addedPathCount : hs.addedPathCount = ps.addedPathCount

theorem represents_alloc (cf : Int32) :
    Represents (pathSquasherAllocAt cf) (tmPathSquasherAlloc cf) where
  tree := by
    refine ⟨.set 0 (cstr "<ROOT>") [], .mk ?_ fun c hc => absurd hc List.not_mem_nil, rfl, ?_, ?_⟩
    · exact cell_createNodeAt _ Heap.empty
    · rw [Placed.addrs_set]
      exact List.nodup_singleton 0
    · rw [Placed.erase_set]
      rfl
  cardinalityFactor := rfl
  addedPathCount := rfl

/-- **One call.**  The call on the heap ends without a read, write or `free` through a dangling
pointer, and does to the nodes what the call does to the tree. -/
theorem Represents.addPath {hs : HeapSquasher} {ps : PathSquasher} (hr : Represents hs ps)
    (hdepth : ps.rootNode.DepthBelow 5) {fuel : ℕ} (hfuel : 3 ≤ fuel) (visit : Visit)
    (urlPath : Bytes) :
    ∃ hs' orders, addPathAt fuel hs visit urlPath = some hs' ∧
      Represents hs' (tmPathSquasherAddPath ps orders urlPath) := by
  obtain ⟨t, ht, haddr, hnodup, he⟩ := hr.tree
  have hd : 0 + 4 = 4 := rfl
  have hlt : hs.rootNode < hs.heap.next := haddr ▸ ht.lt_next t.addr_mem_addrs
  obtain ⟨h', t', orders, hadd, hbec, he'⟩ := addSegmentsAt_spec visit hfuel
    hs.cardinalityFactor hd ht hnodup (he ▸ ps.wellFormed) (he ▸ hdepth) hlt
    (iff_of_true haddr rfl) (fun _ => haddr) (segments urlPath)
  refine ⟨{ hs with heap := h', addedPathCount := hs.addedPathCount + 1 }, orders, ?_, ?_⟩
  · rw [haddr] at hadd
    rw [addPathAt, hadd]
    rfl
  · refine ⟨⟨t', hbec.holds, hbec.addr.trans haddr, hbec.nodup, ?_⟩, hr.cardinalityFactor,
      congrArg (· + 1) hr.addedPathCount⟩
    rw [he', he, hr.cardinalityFactor]
    rfl

/-- **Sequences of calls.**  They end, and the nodes on the heap are those of the squasher after
the same calls. -/
theorem exists_addPaths {hs : HeapSquasher} {ps : PathSquasher} (hr : Represents hs ps)
    (hdepth : ps.rootNode.DepthBelow 5) {fuel : ℕ} (hfuel : 3 ≤ fuel) (calls : List HeapCall) :
    ∃ hs' calls', hs.addPaths fuel calls = some hs' ∧
      calls'.map Call.urlPath = calls.map HeapCall.urlPath ∧ Represents hs' (ps.addPaths calls') := by
  induction calls generalizing hs ps with
  | nil => exact ⟨hs, [], rfl, rfl, hr⟩
  | cons call calls ih =>
    obtain ⟨hs₁, orders, hcall, hr₁⟩ := hr.addPath hdepth hfuel call.visit call.urlPath
    obtain ⟨hs', calls', hcalls, hpaths, hr'⟩ := ih hr₁ (hdepth.addSegments _ _ _ rfl)
    refine ⟨hs', ⟨orders, call.urlPath⟩ :: calls', ?_, ?_, hr'⟩
    · rw [HeapSquasher.addPaths, List.foldlM_cons, hcall]
      exact hcalls
    · rw [List.map_cons, List.map_cons, hpaths]

/-- The children of the root are never squashed. -/
theorem exists_rootNode_eq_set {ps : PathSquasher} (hps : ∃ name cs, ps.rootNode = .set name cs)
    (calls : List Call) : ∃ name cs, (ps.addPaths calls).rootNode = .set name cs := by
  induction calls generalizing ps with
  | nil => exact hps
  | cons call calls ih =>
    obtain ⟨name, cs, hroot⟩ := hps
    refine @ih (tmPathSquasherAddPath ps call.orders call.urlPath) ?_
    show ∃ name' cs', addSegments ps.cardinalityFactor call.orders 0 (segments call.urlPath)
      ps.rootNode = .set name' cs'
    rw [hroot]
    cases segments call.urlPath with
    | nil => exact ⟨name, cs, rfl⟩
    | cons s rest => exact ⟨name, _, addSegments_set_of_not_lt fun h => h.1 rfl⟩

/-! ### The nodes that can be reached -/

/-- The pointers to the nodes one level down. -/
def NodeUnion.pointers : NodeUnion → List ℕ
  | children set => set
  | squashedChild child => [child]

/-- `k` pointers to children lead from the root to the address. -/
inductive ReachAt (h : Heap NodeT) (rootNode : ℕ) : ℕ → ℕ → Prop
  | root : ReachAt h rootNode 0 rootNode
  | child {k a b : ℕ} {node : NodeT} : ReachAt h rootNode k a → h.cell a = some node →
      b ∈ node.u.pointers → ReachAt h rootNode (k + 1) b

/-- What holds of every node that can be reached from the root. -/
structure RepresentationInvariant (h : Heap NodeT) (rootNode : ℕ) : Prop where
  /-- No node that can be reached has been freed. -/
  live : ∀ k a, ReachAt h rootNode k a → ∃ node, h.cell a = some node
  depth : ∀ k a, ReachAt h rootNode k a → k ≤ 5
  /-- The children of the root are not squashed, and it has no parent. -/
  root : ∃ name set, h.cell rootNode = some ⟨name, none, .children set⟩
  /-- The nodes of a child set have pairwise different names. -/
  siblings : ∀ k a node set, ReachAt h rootNode k a → h.cell a = some node → node.u = .children set →
    (set.map fun b => (h.cell b).map NodeT.segmentName).Nodup
  squashed : ∀ k a node c, ReachAt h rootNode k a → h.cell a = some node →
    node.u = .squashedChild c → ∃ child, h.cell c = some child ∧ child.segmentName = squashedName
  /-- The parent of a node is the node that holds it. -/
  parent : ∀ k a node b, ReachAt h rootNode k a → h.cell a = some node → b ∈ node.u.pointers →
    ∃ child, h.cell b = some child ∧ child.parent = some a
  /-- The loop over the parent pointers ends at the root. -/
  climb : ∀ k a fuel, ReachAt h rootNode k a → k < fuel →
    ∃ above, climb h fuel (some a) = some above ∧ above.length = k + 1 ∧
      above.getLast? = some rootNode
  /-- The recursion over the children ends, and frees no node twice. -/
  destroy : ∀ visit fuel, 5 < fuel → ∃ h', recursivelyDestroyAt visit fuel rootNode h = some h'

theorem exists_child_of_pointer {s : Placed} (hb : b ∈ s.union.pointers) :
    ∃ c ∈ s.childNodes, c.addr = b := by
  cases s with
  | set a name cs => exact List.mem_map.1 hb
  | squashed a name c => exact ⟨c, List.mem_singleton_self c, (List.mem_singleton.1 hb).symm⟩

/-- A node that can be reached is one of the tree. -/
theorem exists_of_reachAt (ht : Holds h none t) (hr : ReachAt h t.addr k a) :
    ∃ s par w, Walk t.erase w s.erase ∧ w.length = k ∧ s.addr = a ∧ Holds h par s ∧
      ∀ fuel, k < fuel → ∃ above, climb h fuel (some a) = some above ∧ above.length = k + 1 ∧
        above.getLast? = some t.addr := by
  induction hr with
  | root =>
    refine ⟨t, none, [], rfl, rfl, rfl, ht, fun fuel hfuel => ⟨[t.addr], ?_, rfl, rfl⟩⟩
    obtain ⟨fuel, rfl⟩ := Nat.exists_eq_add_one.2 hfuel
    rw [climb, ht.cell]
    show (climb h fuel none >>= _) = _
    cases fuel <;> rfl
  | @child k a b node _ hcell hb ih =>
    obtain ⟨s, par, w, hwalk, rfl, rfl, hs, hclimb⟩ := ih
    obtain rfl : node = s.nodeT par := Option.some.inj (hcell.symm.trans hs.cell)
    obtain ⟨c, hc, rfl⟩ := exists_child_of_pointer hb
    have hch := hs.child hc
    refine ⟨c, some s.addr, w ++ [c.erase.segmentName], ?_, by simp, rfl, hch, ?_⟩
    · refine walk_append.2 ⟨_, hwalk, c.erase, ?_, rfl, rfl⟩
      rw [Placed.childNodes_erase]
      exact List.mem_map_of_mem hc
    · intro fuel hfuel
      obtain ⟨fuel, rfl⟩ := Nat.exists_eq_add_one.2 (Nat.zero_lt_of_lt hfuel)
      obtain ⟨above, habove, hlen, hlast⟩ := hclimb fuel (by omega)
      refine ⟨c.addr :: above, ?_, by rw [List.length_cons, hlen], ?_⟩
      · rw [climb, hch.cell]
        show (climb h fuel (some s.addr) >>= _) = _
        rw [habove]
        rfl
      · rw [List.getLast?_cons, hlast]
        rfl

/-! ### The recursion over the children -/

/-- A loop over a child set whose body changes only what is below the visited node. -/
theorem visitSet_frame {q : ℕ} {set : List ℕ} {body : ℕ → Heap NodeT → Option (Heap NodeT)}
    {ts : List Placed} (hbody : ∀ t ∈ ts, ∀ h, Holds h (some q) t →
      ∃ h', body t.addr h = some h' ∧ Heap.Frame {y | y ∈ t.addrs} h h') {node : NodeT}
    (hq : h.cell q = some node) (hset : node.u = .children set)
    (hts : ∀ t ∈ ts, Holds h (some q) t) (hnodup : (ts.flatMap Placed.addrs).Nodup)
    (hqt : q ∉ ts.flatMap Placed.addrs) :
    ∃ h', visitSet q set body (ts.map Placed.addr) h = some h' ∧
      Heap.Frame {y | y ∈ ts.flatMap Placed.addrs} h h' := by
  induction ts generalizing h with
  | nil => exact ⟨h, rfl, .refl _ h⟩
  | cons t ts ih =>
    rw [List.flatMap_cons] at hnodup hqt ⊢
    rw [List.mem_append, not_or] at hqt
    obtain ⟨-, hrest, hdisj⟩ := List.nodup_append.1 hnodup
    obtain ⟨h₁, heq₁, hframe₁⟩ := hbody t List.mem_cons_self h (hts t List.mem_cons_self)
    have hts₁ : ∀ d ∈ ts, Holds h₁ (some q) d := fun d hd =>
      (hts d (List.mem_cons_of_mem _ hd)).frame hframe₁ fun y hy hyt =>
        hdisj y hyt y (List.mem_flatMap.2 ⟨d, hd, hy⟩) rfl
    obtain ⟨h', heq', hframe'⟩ := ih (fun d hd => hbody d (List.mem_cons_of_mem _ hd))
      (hframe₁.cell hq hqt.1) hts₁ hrest hqt.2
    refine ⟨h', ?_, ?_⟩
    · rw [List.map_cons, visitSet_cons hq hset, heq₁]
      exact heq'
    · exact (hframe₁.mono fun y hy _ => List.mem_append_left _ hy).trans hframe'
        fun y hy _ => List.mem_append_right _ hy

/-- **`recursively_destroy`.**  The recursion ends, and frees only nodes of the tree. -/
theorem recursivelyDestroyAt_spec (visit : Visit) {d fuel : ℕ} (hfuel : d < fuel)
    (ht : Holds h par t) (hnodup : t.addrs.Nodup) (hdepth : t.erase.DepthBelow d) :
    ∃ h', recursivelyDestroyAt visit fuel t.addr h = some h' ∧
      Heap.Frame {y | y ∈ t.addrs} h h' := by
  induction fuel generalizing d h par t with
  | zero => omega
  | succ fuel ih =>
    have hperm := Placed.inOrder_perm visit hnodup
    have hpermAddrs := hperm.flatMap_right Placed.addrs
    have hn := hnodup
    rw [Placed.addrs_eq] at hn
    obtain ⟨hself, hbelow⟩ := List.nodup_cons.1 hn
    have hbody : ∀ g ∈ t.childNodes, ∀ h, Holds h (some t.addr) g →
        ∃ h', recursivelyDestroyAt visit fuel g.addr h = some h' ∧
          Heap.Frame {y | y ∈ g.addrs} h h' := by
      intro g hg h hgh
      obtain ⟨d', rfl, hd'⟩ := Placed.depthBelow_of_mem hdepth hg
      exact ih (by omega) hgh (Placed.nodup_of_child hnodup hg) hd'
    -- what is below the node
    obtain ⟨h₁, heq, hframe⟩ : ∃ h₁,
        forEachBelow visit t.addr (recursivelyDestroyAt visit fuel) h = some h₁ ∧
          Heap.Frame {y | y ∈ t.childNodes.flatMap Placed.addrs} h h₁ := by
      cases t with
      | squashed a name g =>
        have hg := List.mem_singleton_self g
        obtain ⟨h₁, heq, hframe⟩ := hbody g hg h (ht.child hg)
        refine ⟨h₁, ?_, by simpa [Placed.childNodes] using hframe⟩
        rw [forEachBelow, ht.cell]
        exact heq
      | set a name cs =>
        obtain ⟨h₁, heq, hframe⟩ := visitSet_frame
          (fun g hg => hbody g (hperm.mem_iff.1 hg)) ht.cell rfl
          (fun g hg => ht.child (hperm.mem_iff.1 hg)) (hpermAddrs.nodup_iff.2 hbelow)
          (fun hy => hself (hpermAddrs.mem_iff.1 hy))
        refine ⟨h₁, ?_, hframe.mono fun y hy _ => hpermAddrs.mem_iff.1 hy⟩
        rw [map_addr_inOrder_set] at heq
        rw [forEachBelow, ht.cell]
        exact heq
    have hcell₁ : h₁.cell t.addr = some (t.nodeT par) := hframe.cell ht.cell hself
    refine ⟨h₁.erase t.addr, ?_, ?_⟩
    · rw [recursivelyDestroyAt, heq]
      exact Heap.free_eq hcell₁
    · rw [Placed.addrs_eq]
      refine (hframe.mono fun y hy _ => List.mem_cons_of_mem _ hy).trans
        (.erase (F := {t.addr}) rfl h₁) ?_
      rintro y rfl _
      exact List.mem_cons_self

/-! ### The invariant -/

/-- The nodes of a tree of depth five whose root has a child set. -/
theorem representationInvariant_of_holds (ht : Holds h none t) (hnodup : t.addrs.Nodup)
    (hwf : t.erase.WellFormed) (hdepth : t.erase.DepthBelow 5)
    (hroot : ∃ name cs, t.erase = .set name cs) : RepresentationInvariant h t.addr where
  live k a hr := by
    obtain ⟨s, par, w, -, -, rfl, hs, -⟩ := exists_of_reachAt ht hr
    exact ⟨_, hs.cell⟩
  depth k a hr := by
    obtain ⟨s, par, w, hwalk, rfl, -⟩ := exists_of_reachAt ht hr
    exact hdepth w ⟨_, hwalk⟩
  root := by
    cases t with
    | set a name cs => exact ⟨name, cs.map Placed.addr, ht.cell⟩
    | squashed a name c =>
      obtain ⟨name', cs, heq⟩ := hroot
      rw [Placed.erase_squashed] at heq
      cases heq
  siblings k a node set hr hcell hset := by
    obtain ⟨s, par, w, hwalk, -, rfl, hs, -⟩ := exists_of_reachAt ht hr
    obtain rfl : node = s.nodeT par := Option.some.inj (hcell.symm.trans hs.cell)
    cases s with
    | squashed a name c => cases hset
    | set a name cs =>
      obtain rfl : cs.map Placed.addr = set := NodeUnion.children.inj hset
      have hnames : ((cs.map Placed.erase).map Node.segmentName).Nodup := by
        have hwfs := hwf.of_walk hwalk
        rw [Placed.erase_set] at hwfs
        cases hwfs with
        | set hnames _ => exact hnames
      have heq : (cs.map Placed.addr).map (fun b => (h.cell b).map NodeT.segmentName) =
          ((cs.map Placed.erase).map Node.segmentName).map some := by
        rw [List.map_map, List.map_map, List.map_map]
        refine List.map_congr_left fun c hc => ?_
        have hch : Holds h (some a) c := hs.child hc
        simp [hch.cell, Placed.nodeT]
      rw [heq]
      exact hnames.map (Option.some_injective _)
  squashed k a node b hr hcell hsq := by
    obtain ⟨s, par, w, hwalk, -, rfl, hs, -⟩ := exists_of_reachAt ht hr
    obtain rfl : node = s.nodeT par := Option.some.inj (hcell.symm.trans hs.cell)
    cases s with
    | set a name cs => cases hsq
    | squashed a name c =>
      obtain rfl : c.addr = b := NodeUnion.squashedChild.inj hsq
      have hwfs := hwf.of_walk hwalk
      rw [Placed.erase_squashed] at hwfs
      cases hwfs with
      | squashed hname _ =>
        refine ⟨_, (hs.child (List.mem_singleton_self c)).cell, ?_⟩
        rwa [Placed.segmentName_erase] at hname
  parent k a node b hr hcell hb := by
    obtain ⟨s, par, w, -, -, rfl, hs, -⟩ := exists_of_reachAt ht hr
    obtain rfl : node = s.nodeT par := Option.some.inj (hcell.symm.trans hs.cell)
    obtain ⟨c, hc, rfl⟩ := exists_child_of_pointer hb
    exact ⟨_, (hs.child hc).cell, rfl⟩
  climb k a fuel hr hk := by
    obtain ⟨-, -, -, -, -, -, -, hclimb⟩ := exists_of_reachAt ht hr
    exact hclimb fuel hk
  destroy visit fuel hfuel := by
    obtain ⟨h', heq, -⟩ := recursivelyDestroyAt_spec visit hfuel ht hnodup hdepth
    exact ⟨h', heq⟩

/-- **The representation invariant over sequences of calls.**  With every cardinality factor every
call ends, and after it the nodes on the heap are as they should be. -/
theorem representationInvariant_addPaths (cf : Int32) {fuel : ℕ} (hfuel : 3 ≤ fuel)
    (calls : List HeapCall) :
    ∃ ps, (pathSquasherAllocAt cf).addPaths fuel calls = some ps ∧
      RepresentationInvariant ps.heap ps.rootNode := by
  obtain ⟨hs, calls', heq, -, hr⟩ := exists_addPaths (represents_alloc cf)
    (depthBelow_createNode _ 5) hfuel calls
  obtain ⟨t, ht, haddr, hnodup, he⟩ := hr.tree
  refine ⟨hs, heq, ?_⟩
  rw [← haddr]
  refine representationInvariant_of_holds ht hnodup ?_ ?_ ?_
  · rw [he]
    exact PathSquasher.wellFormed _
  · rw [he]
    exact depthBelow_addPaths calls' (depthBelow_createNode _ 5)
  · rw [he]
    exact exists_rootNode_eq_set ⟨_, _, rfl⟩ calls'

/-- The visit of every child set in the order of its list. -/
def Visit.listed : Visit := ⟨fun _ as => as, fun _ _ => .refl _⟩

/-- Three paths of which the third squashes. -/
theorem representationInvariant_three_paths :
    ∃ ps, (pathSquasherAllocAt 12).addPaths 3
        (["/a/x/1", "/a/y/2", "/a/z"].map fun s => ⟨Visit.listed, cstr s⟩) = some ps ∧
      RepresentationInvariant ps.heap ps.rootNode :=
  representationInvariant_addPaths 12 le_rfl _

end Tracemate.Squasher
