import Tracemate.Squasher.HeapTrees
import Tracemate.Squasher.RegexTable

/-!
# Merging in the memory

* `Focus`, `maybeAddChildAt_spec`, `maybeAddChildAt_then`: a lookup, and a program that goes on
  with the child that it returns;
* `Placed.visited`: a tree with every child set in the order of the visit;
* `visitSet_spec`: the loop over a child set;
* `recurseAddChildrenAt_spec`, `squashChildrenAt_spec`: the functions do to the trees on the heap
  what `recurseAddChildren` and `squashChildren` do to trees.
-/

namespace Tracemate.Squasher

open CStr HeapMemory

/-! ### Lookups in lists -/

theorem getOrCreate_append {s : Bytes} {k : Node → Node} {before after : List Node} {c : Node}
    (hb : ∀ b ∈ before, b.segmentName ≠ s) (hc : c.segmentName = s) :
    getOrCreate s k (before ++ c :: after) = before ++ k c :: after := by
  induction before with
  | nil => simp [getOrCreate, hc]
  | cons b before ih =>
    rw [List.cons_append, getOrCreate, if_neg (hb b List.mem_cons_self),
      ih fun d hd => hb d (List.mem_cons_of_mem _ hd), List.cons_append]

theorem getOrCreate_of_forall_ne {s : Bytes} {k : Node → Node} {cs : List Node}
    (h : ∀ c ∈ cs, c.segmentName ≠ s) : getOrCreate s k cs = cs ++ [k (createNode s)] := by
  induction cs with
  | nil => rfl
  | cons c cs ih =>
    rw [getOrCreate, if_neg (h c List.mem_cons_self),
      ih fun d hd => h d (List.mem_cons_of_mem _ hd), List.cons_append]

/-- A second lookup finds what the first one has found or created. -/
theorem maybeAddChild_maybeAddChild (p : Node) (s : Bytes) (k : Node → Node) :
    maybeAddChild (maybeAddChild p s id) s k = maybeAddChild p s k := by
  cases p with
  | set name cs =>
    rw [maybeAddChild, maybeAddChild, getOrCreate_getOrCreate .id]
    rfl
  | squashed name c => rfl

variable {h h' : Heap NodeT} {par : Option ℕ} {p c c' t : Placed} {E : Set ℕ} {a : ℕ} {s : Bytes}

theorem Placed.nodup_of_child {t c : Placed} (h : t.addrs.Nodup) (hc : c ∈ t.childNodes) :
    c.addrs.Nodup := by
  rw [Placed.addrs_eq] at h
  exact (List.nodup_flatMap.1 (List.nodup_cons.1 h).2).1 c hc

theorem Placed.addr_notMem_child {t c : Placed} (h : t.addrs.Nodup) (hc : c ∈ t.childNodes) :
    t.addr ∉ c.addrs := by
  rw [Placed.addrs_eq] at h
  exact fun ha => (List.nodup_cons.1 h).1 (List.mem_flatMap.2 ⟨c, hc, ha⟩)

theorem Placed.forall_erase_ne {cs : List Placed} (h : ∀ c ∈ cs, c.segmentName ≠ s) :
    ∀ c ∈ cs.map Placed.erase, c.segmentName ≠ s := by
  intro c hc
  obtain ⟨d, hd, rfl⟩ := List.mem_map.1 hc
  rw [Placed.segmentName_erase]
  exact h d hd

/-! ### `maybe_add_child` -/

/-- `ck_hs_get` finds the first child of the name. -/
theorem findChild_eq {cs : List Placed} (hcs : ∀ c ∈ cs, Holds h (some a) c) :
    findChild h s (cs.map Placed.addr) =
      some ((cs.find? fun c => c.segmentName = s).map Placed.addr) := by
  induction cs with
  | nil => rfl
  | cons c cs ih =>
    rw [List.map_cons, findChild, (hcs c List.mem_cons_self).cell, List.find?_cons]
    by_cases hs : c.segmentName = s
    · simp [Placed.nodeT, hs]
    · simpa [Placed.nodeT, hs] using ih fun d hd => hcs d (List.mem_cons_of_mem _ hd)

/-- The child `c` of `p` that a lookup of `s` returns. -/
inductive Focus (s : Bytes) : Placed → Placed → Prop
  | set {a : ℕ} {name : Bytes} {before after : List Placed} {c : Placed} : c.segmentName = s →
      (∀ b ∈ before, b.segmentName ≠ s) → Focus s (.set a name (before ++ c :: after)) c
  | squashed {a : ℕ} {name : Bytes} {c : Placed} : Focus s (.squashed a name c) c

theorem Focus.mem (hf : Focus s p c) : c ∈ p.childNodes := by
  cases hf with
  | set _ _ => simp [Placed.childNodes]
  | squashed => simp [Placed.childNodes]

/-- What becomes of the child becomes of the parent what `maybeAddChild` makes of it. -/
theorem Focus.becomes (hf : Focus s p c) (hp : Holds h par p) (hnodup : p.addrs.Nodup)
    (hE : ∀ x ∈ E, x ∉ p.addrs) (hc : Becomes E h h' (some p.addr) c c') {k : Node → Node}
    (hk : c'.erase = k c.erase) :
    ∃ p', Becomes E h h' par p p' ∧ p'.erase = maybeAddChild p.erase s k := by
  cases hf with
  | @set a name before after c hs hb =>
    refine ⟨.set a name (before ++ c' :: after), .set hp hnodup hE hc, ?_⟩
    rw [Placed.erase_set, Placed.erase_set, maybeAddChild, List.map_append, List.map_append,
      List.map_cons, List.map_cons, getOrCreate_append (Placed.forall_erase_ne hb)
        (by rwa [Placed.segmentName_erase]), hk]
  | @squashed a name c =>
    refine ⟨.squashed a name c', .squashed hp hnodup hE hc, ?_⟩
    rw [Placed.erase_squashed, Placed.erase_squashed, maybeAddChild, hk]

theorem cell_createNodeAt (s : Bytes) (h : Heap NodeT) :
    (createNodeAt s h).2.cell h.next = some ⟨s, none, .children []⟩ := Heap.cell_alloc_self h _

/-- The heap after `maybe_add_child` has created a child of the node at `a`. -/
def withNewChild (h : Heap NodeT) (a : ℕ) (s : Bytes) (set : List ℕ) : Heap NodeT :=
  ((createNodeAt s h).2.modify h.next fun node => { node with parent := some a }).modify a
    fun node => { node with u := .children (set ++ [h.next]) }

theorem frame_withNewChild (h : Heap NodeT) (a : ℕ) (s : Bytes) (set : List ℕ) :
    Heap.Frame {a} h (withNewChild h a s set) := by
  have h₁ : Heap.Frame {a} h (createNodeAt s h).2 := .alloc _ h _
  have h₂ : Heap.Frame {a} h
      ((createNodeAt s h).2.modify h.next fun node => { node with parent := some a }) := by
    refine h₁.trans (.modify (F := {h.next}) rfl _ _) ?_
    rintro x rfl hlt
    exact absurd hlt (lt_irrefl _)
  exact h₂.trans (.modify (F := {a}) rfl _ _) fun x hx _ => hx

/-- The other objects do not notice the creation of a node. -/
theorem cell_createNodeAt_parent {x : NodeT} (hx : h.cell a = some x) (s : Bytes)
    (f : NodeT → NodeT) : ((createNodeAt s h).2.modify h.next f).cell a = some x := by
  rw [Heap.cell_modify_ne (Heap.lt_next hx).ne]
  exact (Heap.Frame.alloc ∅ h _).cell hx (Set.notMem_empty _)

/-- A new child at the end of a child set. -/
theorem becomes_newChild {name : Bytes} {cs : List Placed} (hp : Holds h par (.set a name cs))
    (hnodup : (Placed.set a name cs).addrs.Nodup) (s : Bytes) :
    Becomes ∅ h (withNewChild h a s (cs.map Placed.addr)) par (.set a name cs)
      (.set a name (cs ++ [.set h.next s []])) := by
  have hframe := frame_withNewChild h a s (cs.map Placed.addr)
  have hlt : ∀ x ∈ (Placed.set a name cs).addrs, x < h.next := fun x hx => hp.lt_next hx
  have hane : a ≠ h.next := (Heap.lt_next hp.cell).ne
  rw [Placed.addrs_set] at hnodup hlt
  obtain ⟨hacs, hcs⟩ := List.nodup_cons.1 hnodup
  -- the new child
  have hnew : (withNewChild h a s (cs.map Placed.addr)).cell h.next =
      some ((Placed.set h.next s []).nodeT (some a)) := by
    rw [withNewChild, Heap.cell_modify_ne hane.symm,
      Heap.cell_modify_self (cell_createNodeAt s h)]
    rfl
  -- its parent
  have hparent : (withNewChild h a s (cs.map Placed.addr)).cell a =
      some ((Placed.set a name (cs ++ [.set h.next s []])).nodeT par) := by
    have hcell : h.cell a = some ((Placed.set a name cs).nodeT par) := hp.cell
    rw [withNewChild, Heap.cell_modify_self (cell_createNodeAt_parent hcell s _)]
    simp [Placed.nodeT, Placed.union, Placed.segmentName, Placed.addr]
  have haddrs : (Placed.set a name (cs ++ [.set h.next s []])).addrs =
      (a :: cs.flatMap Placed.addrs) ++ [h.next] := by
    simp [Placed.addrs_set]
  constructor
  · refine .mk hparent fun d hd => ?_
    rcases List.mem_append.1 hd with hold | hnewd
    · have hdh : Holds h (some a) d := hp.child hold
      refine hdh.frame hframe fun x hx hxa => hacs (List.mem_flatMap.2 ⟨d, hold, ?_⟩)
      rwa [← Set.mem_singleton_iff.1 hxa]
    · obtain rfl := List.mem_singleton.1 hnewd
      exact .mk hnew fun c hc => absurd hc List.not_mem_nil
  · rfl
  · rw [haddrs]
    refine List.nodup_append.2 ⟨hnodup, List.nodup_singleton _, ?_⟩
    intro x hx y hy
    rw [List.mem_singleton.1 hy]
    exact (hlt x hx).ne
  · intro x hx hx'
    rw [haddrs] at hx
    rw [Placed.addrs_set]
    rcases List.mem_append.1 hx with hx | hx
    · exact hx
    · rw [List.mem_singleton.1 hx] at hx'
      exact absurd hx' (lt_irrefl _)
  · refine hframe.mono fun x hx _ => .inl ?_
    rw [Set.mem_singleton_iff.1 hx]
    exact Placed.addr_mem_addrs (.set a name cs)

/-- `maybe_add_child` returns the child of the name, which it creates if there is none. -/
theorem maybeAddChildAt_spec (hp : Holds h par p) (hnodup : p.addrs.Nodup) (s : Bytes) :
    ∃ h' p' c, maybeAddChildAt p.addr s h = some (c.addr, h') ∧ Becomes ∅ h h' par p p' ∧
      Focus s p' c ∧ p'.erase = maybeAddChild p.erase s id := by
  cases p with
  | squashed a name c =>
    refine ⟨h, .squashed a name c, c, ?_, .refl hp hnodup ∅, .squashed, ?_⟩
    · rw [maybeAddChildAt, hp.cell]
      rfl
    · rw [Placed.erase_squashed]
      rfl
  | set a name cs =>
    have hfind : findChild h s (cs.map Placed.addr) =
        some ((cs.find? fun c => c.segmentName = s).map Placed.addr) :=
      findChild_eq fun c hc => hp.child hc
    cases hc : cs.find? fun c => c.segmentName = s with
    | some c =>
      obtain ⟨hs, before, after, rfl, hb⟩ := List.find?_eq_some_iff_append.1 hc
      have hs' : c.segmentName = s := by simpa using hs
      have hb' : ∀ b ∈ before, b.segmentName ≠ s := fun b hmem => by simpa using hb b hmem
      refine ⟨h, _, c, ?_, .refl hp hnodup ∅, .set hs' hb', ?_⟩
      · rw [hc] at hfind
        rw [maybeAddChildAt, hp.cell]
        show (findChild h s ((before ++ c :: after).map Placed.addr) >>= _) = _
        rw [hfind]
        rfl
      · rw [Placed.erase_set, maybeAddChild, List.map_append, List.map_cons,
          getOrCreate_append (Placed.forall_erase_ne hb') (by rwa [Placed.segmentName_erase])]
        rfl
    | none =>
      have hne : ∀ c ∈ cs, c.segmentName ≠ s := by simpa using List.find?_eq_none.1 hc
      refine ⟨_, _, .set h.next s [], ?_, becomes_newChild hp hnodup s, .set rfl hne, ?_⟩
      · have hcell : h.cell a = some ((Placed.set a name cs).nodeT par) := hp.cell
        rw [hc] at hfind
        show maybeAddChildAt a s h = _
        rw [maybeAddChildAt, hcell]
        show (findChild h s (cs.map Placed.addr) >>= _) = _
        rw [hfind]
        show ((createNodeAt s h).2.store h.next _ >>= fun h => _) = _
        rw [Heap.store_eq (cell_createNodeAt s h)]
        show (Heap.store _ a _ >>= fun h => _) = _
        rw [Heap.store_eq (cell_createNodeAt_parent hcell s _)]
        rfl
      · rw [Placed.erase_set, Placed.erase_set, maybeAddChild,
          getOrCreate_of_forall_ne (Placed.forall_erase_ne hne), List.map_append]
        simp [createNode]

/-- `maybe_add_child`, and a program that goes on with the child that it returns. -/
theorem maybeAddChildAt_then (op : ℕ → Heap NodeT → Option (Heap NodeT)) {k : Node → Node}
    (hp : Holds h par p) (hnodup : p.addrs.Nodup) (s : Bytes)
    (hE : ∀ x ∈ E, x < h.next ∧ x ∉ p.addrs)
    (hop : ∀ h₁ c, Heap.Frame {x | x ∈ p.addrs} h h₁ → Holds h₁ (some p.addr) c → c.addrs.Nodup →
      (∀ x ∈ c.addrs, x < h.next → x ∈ p.addrs) →
      ∃ h₂ c', op c.addr h₁ = some h₂ ∧ Becomes E h₁ h₂ (some p.addr) c c' ∧
        c'.erase = k c.erase) :
    ∃ x h₁ h₂ p', maybeAddChildAt p.addr s h = some (x, h₁) ∧ op x h₁ = some h₂ ∧
      Becomes E h h₂ par p p' ∧ p'.erase = maybeAddChild p.erase s k := by
  obtain ⟨h₁, p₁, c, heq, hbec, hfocus, herase⟩ := maybeAddChildAt_spec hp hnodup s
  have hframe : Heap.Frame {x | x ∈ p.addrs} h h₁ := by
    simpa using hbec.frame
  have hchild := hbec.holds.child hfocus.mem
  rw [hbec.addr] at hchild
  obtain ⟨h₂, c', hop₂, hc', hk⟩ := hop h₁ c hframe hchild
    (Placed.nodup_of_child hbec.nodup hfocus.mem)
    fun x hx hlt => hbec.addrs x (Placed.mem_addrs_of_child hfocus.mem hx) hlt
  rw [← hbec.addr] at hc'
  obtain ⟨p', hp', he'⟩ := hfocus.becomes hbec.holds hbec.nodup
    (fun x hx hmem => (hE x hx).2 (hbec.addrs x hmem (hE x hx).1)) hc' hk
  refine ⟨c.addr, h₁, h₂, p', heq, hop₂, (hbec.mono fun _ hx => hx.elim).trans hp', ?_⟩
  rw [he', herase, maybeAddChild_maybeAddChild]

/-! ### The order of the visits -/

/-- The nodes with these addresses, in this order. -/
def arrange (as : List ℕ) (cs : List Placed) : List Placed :=
  as.filterMap fun a => cs.find? fun c => c.addr = a

theorem map_addr_arrange {as : List ℕ} {cs : List Placed} (h : ∀ a ∈ as, a ∈ cs.map Placed.addr) :
    (arrange as cs).map Placed.addr = as := by
  induction as with
  | nil => rfl
  | cons a as ih =>
    obtain ⟨c, hc, hca⟩ := List.mem_map.1 (h a List.mem_cons_self)
    obtain ⟨d, hd⟩ : ∃ d, cs.find? (fun c => c.addr = a) = some d :=
      Option.isSome_iff_exists.1 (List.find?_isSome.2 ⟨c, hc, by simpa using hca⟩)
    have hda : d.addr = a := by simpa using List.find?_some hd
    have ih' := ih fun b hb => h b (List.mem_cons_of_mem _ hb)
    unfold arrange at ih' ⊢
    simp only [List.filterMap_cons, hd, List.map_cons, hda, ih']

theorem mem_of_mem_arrange {as : List ℕ} {cs : List Placed} (h : c ∈ arrange as cs) : c ∈ cs := by
  obtain ⟨a, -, ha⟩ := List.mem_filterMap.1 h
  exact List.mem_of_find?_eq_some ha

theorem arrange_perm {as : List ℕ} {cs : List Placed} (h : as.Perm (cs.map Placed.addr))
    (hnodup : (cs.map Placed.addr).Nodup) : (arrange as cs).Perm cs := by
  have haddr : (arrange as cs).map Placed.addr = as := map_addr_arrange fun a ha => h.mem_iff.1 ha
  have hlen : cs.length ≤ (arrange as cs).length := by
    have hl := congrArg List.length haddr
    have hp := h.length_eq
    rw [List.length_map] at hl hp
    omega
  have hnd : (arrange as cs).Nodup := by
    refine List.Nodup.of_map Placed.addr ?_
    rw [haddr]
    exact h.nodup_iff.2 hnodup
  exact (List.subperm_of_subset hnd fun c hc => mem_of_mem_arrange hc).perm_of_length_le hlen

/-- The nodes below a node in the order of the visit. -/
def Placed.inOrder (visit : Visit) : Placed → List Placed
  | .set a _ cs => arrange (visit.order a (cs.map Placed.addr)) cs
  | .squashed _ _ c => [c]

theorem Placed.inOrder_perm (visit : Visit) {t : Placed} (h : t.addrs.Nodup) :
    (t.inOrder visit).Perm t.childNodes := by
  cases t with
  | set a name cs =>
    refine arrange_perm (visit.perm a _) ?_
    rw [Placed.addrs_set, List.nodup_cons] at h
    -- the addresses of the children are among all addresses
    have hsub : (cs.map Placed.addr).Sublist (cs.flatMap Placed.addrs) := by
      have hone : ∀ c : Placed, [c.addr].Sublist c.addrs := fun c =>
        List.singleton_sublist.2 c.addr_mem_addrs
      clear h
      induction cs with
      | nil => exact .slnil
      | cons c cs ih => exact (hone c).append ih
    exact hsub.nodup h.2
  | squashed a name c => exact .refl _

/-- The visit is in the order that was chosen. -/
theorem map_addr_inOrder_set (visit : Visit) (a : ℕ) (name : Bytes) (cs : List Placed) :
    ((Placed.set a name cs).inOrder visit).map Placed.addr =
      visit.order a (cs.map Placed.addr) :=
  map_addr_arrange fun _ hb => (visit.perm a _).mem_iff.1 hb

mutual
/-- The tree with every child set in the order of the visit. -/
def Placed.visited (visit : Visit) : Placed → Placed
  | .set a name cs =>
    .set a name (arrange (visit.order a (cs.map Placed.addr)) (Placed.visitedAll visit cs))
  | .squashed a name c => .squashed a name (c.visited visit)
/-- The same for the nodes of a child set. -/
def Placed.visitedAll (visit : Visit) : List Placed → List Placed
  | [] => []
  | c :: cs => c.visited visit :: Placed.visitedAll visit cs
end

theorem Placed.addr_visited (visit : Visit) (t : Placed) : (t.visited visit).addr = t.addr := by
  cases t with
  | set a name cs => rw [Placed.visited]; rfl
  | squashed a name c => rw [Placed.visited]; rfl

theorem Placed.segmentName_visited (visit : Visit) (t : Placed) :
    (t.visited visit).segmentName = t.segmentName := by
  cases t with
  | set a name cs => rw [Placed.visited]; rfl
  | squashed a name c => rw [Placed.visited]; rfl

theorem Placed.visitedAll_eq_map (visit : Visit) (cs : List Placed) :
    Placed.visitedAll visit cs = cs.map (Placed.visited visit) := by
  induction cs with
  | nil => rw [Placed.visitedAll, List.map_nil]
  | cons c cs ih => rw [Placed.visitedAll, ih, List.map_cons]

theorem arrange_map {g : Placed → Placed} (hg : ∀ c, (g c).addr = c.addr) (as : List ℕ)
    (cs : List Placed) : arrange as (cs.map g) = (arrange as cs).map g := by
  unfold arrange
  rw [List.map_filterMap]
  congr 1
  funext a
  rw [List.find?_map]
  simp [hg]

/-- The visited nodes are those of the visit, each with what is below it visited. -/
theorem Placed.childNodes_visited (visit : Visit) (t : Placed) :
    (t.visited visit).childNodes = (t.inOrder visit).map (Placed.visited visit) := by
  cases t with
  | set a name cs =>
    rw [Placed.visited, Placed.visitedAll_eq_map, arrange_map (Placed.addr_visited visit)]
    rfl
  | squashed a name c => rw [Placed.visited]; rfl

theorem Placed.erase_visited_set (visit : Visit) (a : ℕ) (name : Bytes) (cs : List Placed) :
    ((Placed.set a name cs).visited visit).erase =
      .set name (((Placed.set a name cs).inOrder visit).map fun c => (c.visited visit).erase) := by
  rw [Placed.visited, Placed.visitedAll_eq_map, arrange_map (Placed.addr_visited visit),
    Placed.erase_set, List.map_map]
  rfl

theorem Placed.erase_visited_squashed (visit : Visit) (a : ℕ) (name : Bytes) (c : Placed) :
    ((Placed.squashed a name c).visited visit).erase = .squashed name (c.visited visit).erase := by
  rw [Placed.visited, Placed.erase_squashed]

/-! ### The loops -/

/-- What the body of a loop does to the tree at `x` with the visited node `t`: it takes all of the
old nodes below `t` for the new ones. -/
def BodySpec (body : ℕ → Heap NodeT → Option (Heap NodeT)) (q x : ℕ) (f : Placed → Node → Node)
    (t : Placed) : Prop :=
  ∀ (h : Heap NodeT) (par : Option ℕ) (c : Placed), c.addr = x → Holds h par c →
    Holds h (some q) t → (c.addrs ++ t.addrs).Nodup →
    ∃ h' c', body t.addr h = some h' ∧ Becomes {y | y ∈ t.addrs} h h' par c c' ∧
      c'.erase = f t c.erase

theorem visitSet_cons {q x : ℕ} {set xs : List ℕ} {body : ℕ → Heap NodeT → Option (Heap NodeT)}
    {node : NodeT} (hq : h.cell q = some node) (hset : node.u = .children set) :
    visitSet q set body (x :: xs) h = (body x h).bind (visitSet q set body xs) := by
  rw [visitSet, hq]
  simp only [Option.bind_eq_bind, Option.bind_some, hset, if_true]

/-- The loop over a child set, node by node. -/
theorem visitSet_spec {q x : ℕ} {set : List ℕ} {body : ℕ → Heap NodeT → Option (Heap NodeT)}
    {f : Placed → Node → Node} {ts : List Placed} (hbody : ∀ t ∈ ts, BodySpec body q x f t)
    {node : NodeT} (hq : h.cell q = some node) (hset : node.u = .children set)
    (hx : c.addr = x) (hc : Holds h par c) (hts : ∀ t ∈ ts, Holds h (some q) t)
    (hnodup : (c.addrs ++ ts.flatMap Placed.addrs).Nodup) (hqc : q ∉ c.addrs)
    (hqt : q ∉ ts.flatMap Placed.addrs) :
    ∃ h' c', visitSet q set body (ts.map Placed.addr) h = some h' ∧
      Becomes {y | y ∈ ts.flatMap Placed.addrs} h h' par c c' ∧
      c'.erase = ts.foldl (fun n t => f t n) c.erase := by
  induction ts generalizing h c with
  | nil =>
    refine ⟨h, c, rfl, .refl hc ?_ _, rfl⟩
    simpa using hnodup
  | cons t ts ih =>
    rw [List.flatMap_cons, ← List.append_assoc] at hnodup
    rw [List.flatMap_cons, List.mem_append, not_or] at hqt
    obtain ⟨hct, hrest, hdisj⟩ := List.nodup_append.1 hnodup
    have ht : Holds h (some q) t := hts t List.mem_cons_self
    obtain ⟨h₁, c₁, heq₁, hc₁, he₁⟩ := hbody t List.mem_cons_self h par c hx hc ht hct
    have hq₁ : h₁.cell q = some node := by
      refine hc₁.frame.cell hq ?_
      rintro (hy | hy)
      · exact hqc hy
      · exact hqt.1 hy
    have hts₁ : ∀ d ∈ ts, Holds h₁ (some q) d := by
      intro d hd
      refine (hts d (List.mem_cons_of_mem _ hd)).frame hc₁.frame fun y hy hyF => ?_
      refine hdisj y ?_ y (List.mem_flatMap.2 ⟨d, hd, hy⟩) rfl
      exact hyF.elim (List.mem_append_left _) (List.mem_append_right _)
    have hnodup₁ : (c₁.addrs ++ ts.flatMap Placed.addrs).Nodup := by
      refine List.nodup_append.2 ⟨hc₁.nodup, hrest, ?_⟩
      rintro y hy z hz rfl
      obtain ⟨d, hd, hyd⟩ := List.mem_flatMap.1 hz
      have hlt : y < h.next := (hts d (List.mem_cons_of_mem _ hd)).lt_next hyd
      exact hdisj y (List.mem_append_left _ (hc₁.addrs y hy hlt)) y hz rfl
    have hqc₁ : q ∉ c₁.addrs := fun hy => hqc (hc₁.addrs q hy (Heap.lt_next hq))
    obtain ⟨h', c', heq', hc', he'⟩ := ih (fun d hd => hbody d (List.mem_cons_of_mem _ hd)) hq₁
      (hc₁.addr.trans hx) hc₁.holds hts₁ hnodup₁ hqc₁ hqt.2
    refine ⟨h', c', ?_, (hc₁.mono ?_).trans (hc'.mono ?_), ?_⟩
    · rw [List.map_cons, visitSet_cons hq hset, heq₁]
      exact heq'
    · intro y hy
      exact List.mem_append_left _ hy
    · intro y hy
      exact List.mem_append_right _ hy
    · rw [he', he₁, List.foldl_cons]

/-- What is done to every node below a node. -/
theorem forEachBelow_spec {visit : Visit} {x : ℕ} {body : ℕ → Heap NodeT → Option (Heap NodeT)}
    {f : Placed → Node → Node} {q : Option ℕ}
    (hbody : ∀ g ∈ t.childNodes, BodySpec body t.addr x f g) (hx : c.addr = x)
    (hc : Holds h par c) (ht : Holds h q t) (hnodup : (c.addrs ++ t.addrs).Nodup) :
    ∃ h' c', forEachBelow visit t.addr body h = some h' ∧
      Becomes {y | y ∈ t.childNodes.flatMap Placed.addrs} h h' par c c' ∧
      c'.erase = (t.inOrder visit).foldl (fun n g => f g n) c.erase := by
  obtain ⟨-, htn, hdisj⟩ := List.nodup_append.1 hnodup
  have hperm := Placed.inOrder_perm visit htn
  have hpermAddrs := hperm.flatMap_right Placed.addrs
  have hbelow : (c.addrs ++ t.childNodes.flatMap Placed.addrs).Nodup := by
    rw [Placed.addrs_eq t] at hnodup
    exact hnodup.sublist ((List.sublist_cons_self _ _).append_left c.addrs)
  have hself : t.addr ∉ t.childNodes.flatMap Placed.addrs := by
    rw [Placed.addrs_eq] at htn
    exact (List.nodup_cons.1 htn).1
  have htc : t.addr ∉ c.addrs := fun hy => hdisj _ hy _ t.addr_mem_addrs rfl
  cases t with
  | squashed a name g =>
    have hg : Holds h (some a) g := ht.child (List.mem_singleton_self g)
    have hcg : (c.addrs ++ g.addrs).Nodup := by simpa [Placed.childNodes] using hbelow
    obtain ⟨h', c', heq, hc', he⟩ := hbody g (List.mem_singleton_self g) h par c hx hc hg hcg
    refine ⟨h', c', ?_, hc'.mono fun y hy => ?_, he⟩
    · rw [forEachBelow, ht.cell]
      exact heq
    · simpa [Placed.childNodes] using hy
  | set a name cs =>
    have hts : ∀ g ∈ (Placed.set a name cs).inOrder visit, Holds h (some a) g :=
      fun g hg => ht.child (hperm.mem_iff.1 hg)
    obtain ⟨h', c', heq, hc', he⟩ := visitSet_spec (q := a) (x := x) (f := f)
      (fun g hg => hbody g (hperm.mem_iff.1 hg)) ht.cell rfl hx hc hts
      ((hpermAddrs.append_left c.addrs).nodup_iff.2 hbelow) htc
      (fun hy => hself (hpermAddrs.mem_iff.1 hy))
    refine ⟨h', c', ?_, hc'.mono fun y hy => hpermAddrs.mem_iff.1 hy, he⟩
    rw [map_addr_inOrder_set] at heq
    rw [forEachBelow, ht.cell]
    exact heq

/-- A node that no longer belongs to the tree is freed. -/
theorem Becomes.free {x : NodeT} (hc : Becomes E h h' par c c') (ha : h.cell a = some x)
    (hac : a ∉ c.addrs) (haE : a ∉ E) :
    ∃ h'', h'.free a = some h'' ∧ Becomes (E ∪ {a}) h h'' par c c' := by
  have hcell : h'.cell a = some x := by
    refine hc.frame.cell ha ?_
    rintro (hy | hy)
    · exact hac hy
    · exact haE hy
  have hac' : a ∉ c'.addrs := fun hy => hac (hc.addrs a hy (Heap.lt_next ha))
  have hframe : Heap.Frame {a} h' (h'.erase a) := .erase (F := {a}) rfl h'
  refine ⟨_, Heap.free_eq hcell, ?_⟩
  refine ⟨hc.holds.frame hframe fun y hy hya => hac' ?_, hc.addr, hc.nodup, hc.addrs, ?_⟩
  · rwa [← Set.mem_singleton_iff.1 hya]
  · refine (hc.frame.mono fun y hy _ => ?_).trans hframe fun y hy _ => .inr (.inr hy)
    exact hy.imp_right .inl

theorem recurseAddAll_eq_foldl (cs : List Node) (n : Node) :
    recurseAddAll cs n = cs.foldl (fun n c => recurseAddChildren c n) n := by
  induction cs generalizing n with
  | nil => simp
  | cons c cs ih => rw [recurseAddAll_cons, ih, List.foldl_cons]

/-- What `recurse_add_children` does to the trees below two nodes. -/
def mergeVisited (visit : Visit) (t : Placed) (n : Node) : Node :=
  recurseAddChildren (t.visited visit).erase n

/-- Moving all that is below a node is moving what is below the visited tree. -/
theorem foldl_mergeVisited (visit : Visit) (t : Placed) (n : Node) :
    (t.inOrder visit).foldl (fun n g => mergeVisited visit g n) n =
      recurseAddAll (t.visited visit).erase.childNodes n := by
  rw [recurseAddAll_eq_foldl, Placed.childNodes_erase, Placed.childNodes_visited, List.map_map,
    List.foldl_map]
  rfl

/-- What is one level below a node has one level less below it. -/
theorem Placed.depthBelow_of_mem {t g : Placed} {d : ℕ} (ht : t.erase.DepthBelow d)
    (hg : g ∈ t.childNodes) : ∃ d', d = d' + 1 ∧ g.erase.DepthBelow d' := by
  have hmem : g.erase ∈ t.erase.childNodes := by
    rw [Placed.childNodes_erase]
    exact List.mem_map_of_mem hg
  have hpos : [g.erase.segmentName] ∈ t.erase.paths :=
    cons_mem_paths.2 ⟨_, hmem, rfl, nil_mem_paths _⟩
  obtain ⟨d', rfl⟩ := Nat.exists_eq_add_one.2 (ht _ hpos)
  exact ⟨d', rfl, depthBelow_iff.1 ht _ hmem⟩

/-- What is done to the nodes below an old node, and the `destroy_node` of the old node. -/
theorem squashChildAt_of_recurse {visit : Visit} {fuel q x : ℕ}
    (hrec : ∀ g ∈ t.childNodes,
      BodySpec (recurseAddChildrenAt visit fuel x) t.addr x (mergeVisited visit) g) :
    BodySpec (squashChildAt visit fuel x) q x
      (fun t => recurseAddAll (t.visited visit).erase.childNodes) t := by
  intro h par c hx hc hth hnodup
  obtain ⟨-, htn, hdisj⟩ := List.nodup_append.1 hnodup
  have hself : t.addr ∉ t.childNodes.flatMap Placed.addrs := by
    rw [Placed.addrs_eq t] at htn
    exact (List.nodup_cons.1 htn).1
  obtain ⟨h₁, c', heq, hbec, he⟩ := forEachBelow_spec hrec hx hc hth hnodup
  obtain ⟨h₂, hfree, hbec₂⟩ :=
    hbec.free hth.cell (fun hy => hdisj _ hy _ t.addr_mem_addrs rfl) hself
  refine ⟨h₂, c', ?_, hbec₂.mono fun y hy => ?_, he.trans (foldl_mergeVisited visit t _)⟩
  · rw [squashChildAt, heq]
    exact hfree
  · rw [Placed.addrs_eq t]
    rcases hy with hy | rfl
    · exact List.mem_cons_of_mem _ hy
    · exact List.mem_cons_self

/-- **`recurse_add_children`.**  The recursion ends, frees every old node, and gives the tree that
`recurseAddChildren` gives for the visited tree. -/
theorem recurseAddChildrenAt_spec (visit : Visit) {d fuel : ℕ} (hfuel : d < fuel) {q x : ℕ}
    (ht : t.erase.DepthBelow d) :
    BodySpec (recurseAddChildrenAt visit fuel x) q x (mergeVisited visit) t := by
  induction fuel generalizing d q x t with
  | zero => omega
  | succ fuel ih =>
    intro h par c hx hc hth hnodup
    obtain ⟨hcn, htn, hdisj⟩ := List.nodup_append.1 hnodup
    have hout : ∀ y ∈ t.addrs, y < h.next ∧ y ∉ c.addrs :=
      fun y hy => ⟨hth.lt_next hy, fun hyc => hdisj y hyc y hy rfl⟩
    -- the child that the lookup returns is apart from the old node, which is still there
    obtain ⟨foo, h₁, h₂, c', hadd, hloop, hbec, herase⟩ := maybeAddChildAt_then
      (fun foo h => squashChildAt visit fuel foo t.addr h) (E := {y | y ∈ t.addrs})
      (k := recurseAddAll (t.visited visit).erase.childNodes) hc hcn t.segmentName hout (by
        intro h₁ foo hframe hfoo hfoon hold
        have hth₁ : Holds h₁ (some q) t := hth.frame hframe fun y hy => (hout y hy).2
        have hfoot : (foo.addrs ++ t.addrs).Nodup := by
          refine List.nodup_append.2 ⟨hfoon, htn, ?_⟩
          rintro y hy z hz rfl
          exact (hout y hz).2 (hold y hy (hout y hz).1)
        refine squashChildAt_of_recurse (fun g hg => ?_) h₁ _ foo rfl hfoo hth₁ hfoot
        obtain ⟨d', rfl, hd'⟩ := Placed.depthBelow_of_mem ht hg
        exact ih (by omega) hd')
    refine ⟨h₂, c', ?_, hbec, ?_⟩
    · subst hx
      rw [recurseAddChildrenAt, hth.cell]
      show (maybeAddChildAt c.addr t.segmentName h >>= _) = _
      rw [hadd]
      exact hloop
    · rw [herase, mergeVisited, recurseAddChildren_eq, Placed.segmentName_erase,
        Placed.segmentName_visited]

/-- The body of the loop in `squash_children`. -/
theorem squashChildAt_spec (visit : Visit) {d fuel : ℕ} (hfuel : d ≤ fuel) {q x : ℕ}
    (ht : t.erase.DepthBelow d) :
    BodySpec (squashChildAt visit fuel x) q x
      (fun t => recurseAddAll (t.visited visit).erase.childNodes) t := by
  refine squashChildAt_of_recurse fun g hg => ?_
  obtain ⟨d', rfl, hd'⟩ := Placed.depthBelow_of_mem ht hg
  exact recurseAddChildrenAt_spec visit (by omega) hd'

end Tracemate.Squasher
