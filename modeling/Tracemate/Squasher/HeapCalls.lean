import Tracemate.Squasher.HeapMerges

/-!
# A call in the memory

* `squashLoop_spec`, `squashChildrenAt_spec`: `squash_children` takes the tree of a node for one
  whose children are squashed;
* `exists_iterOrder`: the visit of a child set on the heap is one of the orders that an `IterOrder`
  can choose;
* `addSegmentsAt_spec`: the loop over the segments ends, and does to the tree on the heap what
  `addSegments` does to the tree.
-/

namespace Tracemate.Squasher

open CStr HeapMemory

variable {h h' : Heap NodeT} {par : Option ℕ} {p t c : Placed} {a : ℕ}

/-! ### `squash_children` -/

/-- Both branches of the loop move what is below the old child. -/
theorem squashInto_eq_foldl (children : List Node) :
    squashInto children =
      children.foldl (fun n c => recurseAddAll c.childNodes n) (createNode squashedName) := by
  unfold squashInto
  congr 1
  funext n c
  cases c <;> simp

/-- The visited children, one after the other. -/
theorem foldl_inOrder (visit : Visit) (t : Placed) :
    (t.inOrder visit).foldl (fun n c => recurseAddAll (c.visited visit).erase.childNodes n)
      (createNode squashedName) = squashInto (t.visited visit).erase.childNodes := by
  rw [squashInto_eq_foldl, Placed.childNodes_erase, Placed.childNodes_visited, List.map_map,
    List.foldl_map]
  rfl

/-- A tree gets a parent. -/
theorem Holds.reparent (ht : Holds h par t) (hnodup : t.addrs.Nodup) (a : ℕ) :
    Holds (h.modify t.addr fun node => { node with parent := some a }) (some a) t := by
  refine .mk ?_ fun c hc => ?_
  · rw [Heap.cell_modify_self ht.cell]
    rfl
  · refine (ht.child hc).frame (.modify (F := {t.addr}) rfl _ _) ?_
    rintro x hx rfl
    exact Placed.addr_notMem_child hnodup hc hx

/-- The two writes at the end of `squash_children`. -/
theorem squashed_of_stores {x : NodeT} {name : Bytes} (hc : Holds h par c) (hnodup : c.addrs.Nodup)
    (ha : a ∉ c.addrs) (hx : h.cell a = some x) (hname : x.segmentName = name) :
    ∃ h₁ h₂, h.store c.addr (fun node => { node with parent := some a }) = some h₁ ∧
      h₁.store a (fun node => { node with u := .squashedChild c.addr }) = some h₂ ∧
      Holds h₂ x.parent (.squashed a name c) ∧ Heap.Frame {a, c.addr} h h₂ := by
  have hne : a ≠ c.addr := fun heq => ha (heq ▸ c.addr_mem_addrs)
  have hx₁ : (h.modify c.addr fun node => { node with parent := some a }).cell a = some x := by
    rwa [Heap.cell_modify_ne hne]
  have hc₁ := hc.reparent hnodup a
  refine ⟨_, _, Heap.store_eq hc.cell, Heap.store_eq hx₁, .mk ?_ fun d hd => ?_, ?_⟩
  · show (Heap.modify _ a _).cell a = _
    rw [Heap.cell_modify_self hx₁, ← hname]
    rfl
  · obtain rfl : d = c := List.mem_singleton.1 hd
    refine hc₁.frame (.modify (F := {a}) rfl _ _) ?_
    rintro y hy rfl
    exact ha hy
  · exact (Heap.Frame.modify (.inr rfl) h _).trans (.modify (F := {a}) rfl _ _)
      fun y hy _ => .inl hy

/-- A new node leaves a tree as it is. -/
theorem Holds.createNodeAt (hp : Holds h par p) (name : Bytes) :
    Holds (createNodeAt name h).2 par p :=
  hp.frame (.alloc ∅ h _) fun y _ => Set.notMem_empty y

/-- The loop of `squash_children`, with the new child, which has no parent yet: it frees the old
children and what is below them, and the new child is what `squashInto` makes of them. -/
theorem squashLoop_spec (visit : Visit) {d fuel : ℕ} (hfuel : d ≤ fuel) {name : Bytes}
    {cs : List Placed} (hp : Holds h par (.set a name cs))
    (hnodup : (Placed.set a name cs).addrs.Nodup) (hdepth : ∀ c ∈ cs, c.erase.DepthBelow d) :
    ∃ h' c, visitSet a (cs.map Placed.addr) (squashChildAt visit fuel h.next)
        (visit.order a (cs.map Placed.addr)) (createNodeAt squashedName h).2 = some h' ∧
      Becomes {y | y ∈ cs.flatMap Placed.addrs} (createNodeAt squashedName h).2 h' none
        (.set h.next squashedName []) c ∧
      c.erase = squashInto ((Placed.set a name cs).visited visit).erase.childNodes := by
  have hperm := Placed.inOrder_perm visit hnodup
  have hpermAddrs := hperm.flatMap_right Placed.addrs
  obtain ⟨haset, hset⟩ : a ∉ cs.flatMap Placed.addrs ∧ (cs.flatMap Placed.addrs).Nodup := by
    rw [Placed.addrs_set] at hnodup
    exact List.nodup_cons.1 hnodup
  have hlt : ∀ y ∈ a :: cs.flatMap Placed.addrs, y < h.next := by
    intro y hy
    rw [← Placed.addrs_set a name] at hy
    exact hp.lt_next hy
  have hnew : Holds (createNodeAt squashedName h).2 none (.set h.next squashedName []) :=
    .mk (cell_createNodeAt squashedName h) fun c hc => absurd hc List.not_mem_nil
  have hp₁ := hp.createNodeAt squashedName
  have haddrs : (Placed.set h.next squashedName []).addrs = [h.next] := Placed.addrs_set ..
  have hbody : ∀ t ∈ (Placed.set a name cs).inOrder visit,
      BodySpec (squashChildAt visit fuel h.next) a h.next
        (fun t => recurseAddAll (t.visited visit).erase.childNodes) t :=
    fun t ht => squashChildAt_spec visit hfuel (hdepth t (hperm.mem_iff.1 ht))
  have hchildren : ((Placed.set a name cs).nodeT par).u = .children (cs.map Placed.addr) := rfl
  obtain ⟨h', c, hloop, hbec, he⟩ := visitSet_spec (c := .set h.next squashedName [])
    hbody hp₁.cell hchildren rfl hnew (fun t ht => hp₁.child (hperm.mem_iff.1 ht)) (by
      rw [haddrs, (hpermAddrs.append_left [h.next]).nodup_iff]
      exact List.nodup_cons.2 ⟨fun hy => (hlt _ (List.mem_cons_of_mem _ hy)).false, hset⟩)
    (by
      rw [haddrs, List.mem_singleton]
      exact (hlt a List.mem_cons_self).ne)
    (fun hy => haset (hpermAddrs.mem_iff.1 hy))
  rw [map_addr_inOrder_set] at hloop
  exact ⟨h', c, hloop, hbec.mono fun y hy => hpermAddrs.mem_iff.1 hy,
    he.trans (foldl_inOrder visit _)⟩

/-- **`squash_children`.**  The tree of a node becomes one whose children are squashed. -/
theorem squashChildrenAt_spec (visit : Visit) {d fuel : ℕ} (hfuel : d ≤ fuel) {name : Bytes}
    {cs : List Placed} (hp : Holds h par (.set a name cs))
    (hnodup : (Placed.set a name cs).addrs.Nodup) (hdepth : ∀ c ∈ cs, c.erase.DepthBelow d) :
    ∃ h' c, squashChildrenAt visit fuel a h = some (c.addr, h') ∧
      Becomes ∅ h h' par (.set a name cs) (.squashed a name c) ∧
      c.erase = squashInto ((Placed.set a name cs).visited visit).erase.childNodes := by
  obtain ⟨h₂, c, hloop, hbec, he⟩ := squashLoop_spec visit hfuel hp hnodup hdepth
  set p := Placed.set a name cs with hp_def
  have haddrs : (Placed.set h.next squashedName []).addrs = [h.next] := Placed.addrs_set ..
  have hp_addrs : p.addrs = a :: cs.flatMap Placed.addrs := Placed.addrs_set ..
  have ha : a < h.next := hp.lt_next p.addr_mem_addrs
  have hframe₁ : Heap.Frame ∅ h (createNodeAt squashedName h).2 := .alloc ∅ h _
  have hcell₁ : (createNodeAt squashedName h).2.cell a = some (p.nodeT par) :=
    (hp.createNodeAt squashedName).cell
  -- the new child has new addresses only, so the node is not among them
  have hc_new : ∀ y ∈ c.addrs, ¬ y < h.next := by
    intro y hy hylt
    have := hbec.addrs y hy (hylt.trans_le hframe₁.next_le)
    rw [haddrs, List.mem_singleton] at this
    omega
  have hac : a ∉ c.addrs := fun hy => hc_new a hy ha
  have hcell₂ : h₂.cell a = some (p.nodeT par) := by
    refine hbec.frame.cell hcell₁ ?_
    rintro (hy | hy)
    · exact ha.ne (by simpa [haddrs] using hy)
    · rw [hp_addrs] at hnodup
      exact (List.nodup_cons.1 hnodup).1 hy
  -- the pointers between the node and the new child
  obtain ⟨h₃, h₄, hstore₁, hstore₂, hholds, hframe₂⟩ :=
    squashed_of_stores hbec.holds hbec.nodup hac hcell₂ (rfl : (p.nodeT par).segmentName = name)
  have hcaddr : c.addr = h.next := hbec.addr
  refine ⟨h₄, c, ?_, ?_, he⟩
  · rw [hcaddr] at hstore₁ hstore₂ ⊢
    show ((createNodeAt squashedName h).2.cell a >>= _) = _
    rw [hcell₁]
    show (visitSet a _ (squashChildAt visit fuel h.next) _ (createNodeAt squashedName h).2 >>= _) = _
    rw [hloop]
    show (h₂.store h.next _ >>= _) = _
    rw [hstore₁]
    show (h₃.store a _ >>= _) = _
    rw [hstore₂]
    rfl
  · refine ⟨hholds, rfl, ?_, ?_, ?_⟩
    · rw [Placed.addrs_squashed]
      exact List.nodup_cons.2 ⟨hac, hbec.nodup⟩
    · intro y hy hylt
      rw [Placed.addrs_squashed] at hy
      rcases List.mem_cons.1 hy with rfl | hy
      · exact p.addr_mem_addrs
      · exact absurd hylt (hc_new y hy)
    · have hframe : Heap.Frame {y | y ∈ p.addrs} h h₂ := by
        refine (hframe₁.mono fun y hy _ => hy.elim).trans hbec.frame ?_
        rintro y (hy | hy) hylt
        · have heq : y = h.next := by simpa [haddrs] using hy
          omega
        · show y ∈ p.addrs
          rw [hp_addrs]
          exact List.mem_cons_of_mem a hy
      refine (hframe.trans hframe₂ ?_).mono fun y hy _ => .inl hy
      rintro y (rfl | hy) hylt
      · exact p.addr_mem_addrs
      · rw [Set.mem_singleton_iff.1 hy, hcaddr] at hylt
        exact absurd hylt (lt_irrefl _)

/-! ### The orders of the visits -/

theorem segmentName_erase_visited (visit : Visit) (t : Placed) :
    (t.visited visit).erase.segmentName = t.erase.segmentName := by
  rw [Placed.segmentName_erase, Placed.segmentName_visited, Placed.segmentName_erase]

/-- The siblings of the visited tree have the names of the siblings of the tree. -/
theorem Node.WellFormed.visited (visit : Visit) {t : Placed} (ht : t.erase.WellFormed)
    (hnodup : t.addrs.Nodup) : (t.visited visit).erase.WellFormed := by
  induction t using Placed.induct with
  | h t ih =>
    have hperm := Placed.inOrder_perm visit hnodup
    cases t with
    | squashed a name c =>
      have hc : c ∈ (Placed.squashed a name c).childNodes := List.mem_singleton_self c
      rw [Placed.erase_squashed] at ht
      rw [Placed.erase_visited_squashed]
      cases ht with
      | squashed hname hwf =>
        exact .squashed ((segmentName_erase_visited visit c).trans hname)
          (ih c hc hwf (Placed.nodup_of_child hnodup hc))
    | set a name cs =>
      rw [Placed.erase_set] at ht
      rw [Placed.erase_visited_set]
      cases ht with
      | set hnames hwf =>
        refine .set ?_ fun d hd => ?_
        · rw [List.map_map] at hnames ⊢
          have hsame : Node.segmentName ∘ (fun c => (c.visited visit).erase) =
              Node.segmentName ∘ Placed.erase := funext (segmentName_erase_visited visit)
          rw [hsame]
          exact (hperm.map _).nodup_iff.2 hnames
        · obtain ⟨c, hc, rfl⟩ := List.mem_map.1 hd
          have hcs : c ∈ cs := hperm.mem_iff.1 hc
          exact ih c hcs (hwf _ (List.mem_map_of_mem hcs)) (Placed.nodup_of_child hnodup hcs)

open Classical in
/-- The order that visits every child set as it stands in the tree `m`. -/
noncomputable def IterOrder.toward (m : Node) : IterOrder where
  next path cs :=
    if h : ∃ l, Walk m path.tail l ∧ l.childNodes.Perm cs then h.choose.childNodes else cs
  perm path cs := by
    split_ifs with h
    · exact h.choose_spec.2
    · exact .refl cs

theorem IterOrder.next_toward {m l : Node} (hm : m.WellFormed) {path w : List Bytes}
    (hpath : path.tail = w) (hl : Walk m w l) {cs : List Node} (hcs : l.childNodes.Perm cs) :
    (IterOrder.toward m).next path cs = l.childNodes := by
  subst hpath
  have h : ∃ l, Walk m path.tail l ∧ l.childNodes.Perm cs := ⟨l, hl, hcs⟩
  rw [← walk_unique hm h.choose_spec.1 hl]
  exact dif_pos h

/-- The order towards the visited tree takes the tree to it. -/
theorem reorder_toward (visit : Visit) {m : Node} (hm : m.WellFormed) {t : Placed}
    (hnodup : t.addrs.Nodup) {path w : List Bytes} (hpath : (path ++ [t.segmentName]).tail = w)
    (hw : Walk m w (t.visited visit).erase) :
    t.erase.reorder (.toward m) path = (t.visited visit).erase := by
  induction t using Placed.induct generalizing path w with
  | h t ih =>
    -- what is below the node
    have hbelow : ∀ c ∈ t.childNodes,
        c.erase.reorder (.toward m) (path ++ [t.segmentName]) = (c.visited visit).erase := by
      intro c hc
      refine ih c hc (Placed.nodup_of_child hnodup hc) (w := w ++ [c.segmentName]) ?_ ?_
      · rw [List.tail_append_of_ne_nil (by simp), hpath]
      · refine walk_append.2 ⟨_, hw, (c.visited visit).erase, ?_, ?_, rfl⟩
        · rw [Placed.childNodes_erase, Placed.childNodes_visited]
          refine List.mem_map_of_mem (List.mem_map_of_mem ?_)
          exact (Placed.inOrder_perm visit hnodup).mem_iff.2 hc
        · rw [Placed.segmentName_erase, Placed.segmentName_visited]
    cases t with
    | squashed a name c =>
      rw [Placed.erase_squashed, Placed.erase_visited_squashed, Node.reorder]
      rw [← hbelow c (List.mem_singleton_self c)]
      rfl
    | set a name cs =>
      have hset : Node.reorderAll (.toward m) (path ++ [name]) (cs.map Placed.erase) =
          cs.map fun c => (c.visited visit).erase := by
        rw [reorderAll_eq_map, List.map_map]
        exact List.map_congr_left hbelow
      rw [Placed.erase_visited_set] at hw ⊢
      rw [Placed.erase_set, Node.reorder, hset]
      exact congrArg _ (IterOrder.next_toward hm hpath hw
        ((Placed.inOrder_perm visit hnodup).map _))

/-- The visit of a tree is one of the orders that an `IterOrder` can choose. -/
theorem exists_iterOrder (visit : Visit) {t : Placed} (ht : t.erase.WellFormed)
    (hnodup : t.addrs.Nodup) : ∃ o : IterOrder, t.erase.reorder o [] = (t.visited visit).erase :=
  ⟨_, reorder_toward visit (ht.visited visit hnodup) hnodup rfl rfl⟩

/-! ### The loop over the segments -/

/-- A call that starts at a depth chooses the orders from that depth on. -/
theorem addSegments_congr {cf : Int32} {orders orders' : ℕ → IterOrder} (segs : List Bytes)
    {depth : ℕ} (h : ∀ k, depth ≤ k → orders k = orders' k) (n : Node) :
    addSegments cf orders depth segs n = addSegments cf orders' depth segs n := by
  induction segs generalizing depth n with
  | nil => rfl
  | cons s rest ih =>
    have hrest : addSegments cf orders (depth + 1) rest = addSegments cf orders' (depth + 1) rest :=
      funext fun c => ih (fun k hk => h k (by omega)) c
    rw [addSegments, addSegments, h depth le_rfl, hrest]

/-- The squash of a node in the loop body. -/
theorem squashAt_spec (visit : Visit) {d fuel : ℕ} (hfuel : d ≤ fuel) {name : Bytes}
    {cs : List Placed} (hp : Holds h par (.set a name cs))
    (hnodup : (Placed.set a name cs).addrs.Nodup) (hwf : (Placed.set a name cs).erase.WellFormed)
    (hdepth : (Placed.set a name cs).erase.DepthBelow (d + 1)) :
    ∃ h' c o, squashChildrenAt visit fuel a h = some (c.addr, h') ∧
      Becomes ∅ h h' par (.set a name cs) (.squashed a name c) ∧
      (Placed.squashed a name c).erase = squashChildren o (Placed.set a name cs).erase := by
  have hbelow : ∀ c ∈ cs, c.erase.DepthBelow d := fun c hc =>
    depthBelow_iff.1 hdepth _ (by rw [Placed.childNodes_erase]; exact List.mem_map_of_mem hc)
  obtain ⟨h', c, heq, hbec, he⟩ := squashChildrenAt_spec visit hfuel hp hnodup hbelow
  obtain ⟨o, ho⟩ := exists_iterOrder visit hwf hnodup
  refine ⟨h', c, o, heq, hbec, ?_⟩
  rw [Placed.erase_set] at ho ⊢
  rw [Placed.erase_squashed, he, squashChildren, squashedChild, ho]

/-- The loop body for one segment: the call moves to the child that a second lookup would find. -/
theorem addSegmentAt_spec (visit : Visit) {d fuel : ℕ} (cf : Int32) {rootNode depth : ℕ}
    (hfuel : depth ≠ 0 → d ≤ fuel) (hroot : p.addr = rootNode ↔ depth = 0) (hp : Holds h par p)
    (hnodup : p.addrs.Nodup) (hwf : p.erase.WellFormed) (hdepth : p.erase.DepthBelow (d + 1))
    (s : Bytes) :
    ∃ h' p' c o, addSegmentAt visit fuel cf rootNode depth s p.addr h = some (c.addr, h') ∧
      Becomes ∅ h h' par p p' ∧ Focus s p' c ∧ p'.erase = addSegment cf o depth s p.erase := by
  obtain ⟨h₁, p₁, c, hadd, hbec, hfocus, he⟩ := maybeAddChildAt_spec hp hnodup s
  have hcell : h₁.cell p.addr = some (p₁.nodeT par) := by
    rw [← hbec.addr]
    exact hbec.holds.cell
  rw [addSegmentAt, hadd]
  simp only [Option.bind_eq_bind, Option.bind_some, hcell]
  cases p₁ with
  | squashed a name g =>
    refine ⟨h₁, _, c, .listed, rfl, hbec, hfocus, ?_⟩
    rw [addSegment, ← he, Placed.erase_squashed]
    rfl
  | set a name cs =>
    have haddr : a = p.addr := hbec.addr
    have hmust : mustSquash cf depth (Placed.set a name cs).erase = true ↔
        cardinalityLimit cf depth < (cs.map Placed.addr).length ∧ p.addr ≠ rootNode := by
      rw [Placed.erase_set]
      simp [mustSquash, hroot]
    by_cases hlt : cardinalityLimit cf depth < (cs.map Placed.addr).length ∧ p.addr ≠ rootNode
    · have hwf₁ : (Placed.set a name cs).erase.WellFormed := by
        rw [he]
        exact hwf.maybeAddChild .id (fun _ hc => hc) s
      have hdepth₁ : (Placed.set a name cs).erase.DepthBelow (d + 1) := by
        rw [he]
        exact hdepth.maybeAddChild s fun _ hc => hc
      obtain ⟨h₂, g, o, hsq, hbec₂, he₂⟩ := squashAt_spec visit
        (hfuel (mt hroot.2 hlt.2)) hbec.holds hbec.nodup hwf₁ hdepth₁
      refine ⟨h₂, _, g, o, ?_, hbec.trans hbec₂, .squashed, ?_⟩
      · show (if _ then _ else _) = _
        rw [if_pos hlt, ← haddr, hsq]
      · simp only [addSegment]
        rw [← he, if_pos (hmust.2 hlt), he₂]
    · refine ⟨h₁, _, c, .listed, if_neg hlt, hbec, hfocus, ?_⟩
      simp only [addSegment]
      rw [← he, if_neg (mt hmust.1 hlt)]

/-- **The loop of `tm_path_squasher_add_path`.**  It ends, and does to the tree on the heap what
`addSegments` does to the tree. -/
theorem addSegmentsAt_spec (visit : Visit) {d fuel : ℕ} (hfuel : 3 ≤ fuel) (cf : Int32)
    {rootNode depth : ℕ} (hd : depth + d = 4) (hp : Holds h par p) (hnodup : p.addrs.Nodup)
    (hwf : p.erase.WellFormed) (hdepth : p.erase.DepthBelow (d + 1))
    (hlt : rootNode < h.next) (hroot : p.addr = rootNode ↔ depth = 0)
    (hin : rootNode ∈ p.addrs → p.addr = rootNode) (segs : List Bytes) :
    ∃ h' p' orders, addSegmentsAt visit fuel cf rootNode depth segs p.addr h = some h' ∧
      Becomes ∅ h h' par p p' ∧ p'.erase = addSegments cf orders depth segs p.erase := by
  induction segs generalizing depth d h par p with
  | nil => exact ⟨h, p, fun _ => .listed, rfl, .refl hp hnodup ∅, rfl⟩
  | cons s rest ih =>
    have hle : depth ≠ 0 → d ≤ fuel := fun _ => by omega
    obtain ⟨h₁, p₁, c, o, hbody, hbec, hfocus, he⟩ := addSegmentAt_spec visit cf
      hle hroot hp hnodup hwf hdepth s
    have hstep : addSegmentsAt visit fuel cf rootNode depth (s :: rest) p.addr h =
        if depth + 1 = 5 then some h₁
        else addSegmentsAt visit fuel cf rootNode (depth + 1) rest c.addr h₁ := by
      rw [addSegmentsAt, hbody]
      rfl
    rw [hstep]
    by_cases h5 : depth + 1 = 5
    · refine ⟨h₁, p₁, fun _ => o, if_pos h5, hbec, ?_⟩
      rw [addSegments, if_pos h5, he]
    · rw [if_neg h5]
      obtain ⟨d, rfl⟩ : ∃ e, d = e + 1 := ⟨d - 1, by omega⟩
      have hd₁ : depth + 1 + d = 4 := by omega
      have hwf₁ : p₁.erase.WellFormed := he ▸ hwf.addSegment cf o depth s
      have hdepth₁ : p₁.erase.DepthBelow (d + 1 + 1) := he ▸ hdepth.addSegment cf o depth s
      have hmem : c.erase ∈ p₁.erase.childNodes := by
        rw [Placed.childNodes_erase]
        exact List.mem_map_of_mem hfocus.mem
      have hwalk : Walk p₁.erase [c.erase.segmentName] c.erase := ⟨_, hmem, rfl, rfl⟩
      -- the root is not below the node
      have hout : rootNode ∉ c.addrs := by
        intro hy
        have hmem₁ := Placed.mem_addrs_of_child hfocus.mem hy
        rw [← hin (hbec.addrs _ hmem₁ hlt), ← hbec.addr] at hy
        exact Placed.addr_notMem_child hbec.nodup hfocus.mem hy
      obtain ⟨h₂, c', orders, hrest, hc', hce⟩ := ih hd₁
        (hbec.holds.child hfocus.mem) (Placed.nodup_of_child hbec.nodup hfocus.mem)
        (hwf₁.of_walk hwalk) (depthBelow_iff.1 hdepth₁ _ hmem)
        (hlt.trans_le hbec.frame.next_le)
        (iff_of_false (fun heq => hout (heq ▸ c.addr_mem_addrs)) (Nat.succ_ne_zero _))
        (fun hy => absurd hy hout)
      obtain ⟨p', hp', hpe⟩ := hfocus.becomes hbec.holds hbec.nodup
        (fun _ hx => hx.elim) hc' hce
      refine ⟨h₂, p', fun k => if k = depth then o else orders k, hrest, hbec.trans hp', ?_⟩
      have hsame : addSegments cf orders (depth + 1) rest =
          addSegments cf (fun k => if k = depth then o else orders k) (depth + 1) rest :=
        funext fun n => addSegments_congr rest (fun k hk => (if_neg (by omega)).symm) n
      rw [hpe, he, addSegments, if_neg h5, if_pos rfl, hsame]

end Tracemate.Squasher
