import Tracemate.Lib.Heap
import Tracemate.Squasher.Tree

/-!
# The nodes in the memory

`tm_url_squasher.c` with the nodes as objects on the heap: with their pointers to children and to
the parent, and with every `malloc` and `free`.

* `NodeT`: a `node_t`; `maybeAddChildAt`, `recurseAddChildrenAt`, `squashChildrenAt`,
  `addSegmentsAt`: the functions; `none` is a read, a write or a `free` through a dangling
  pointer, a child set that changes while it is visited, or a recursion deeper than the fuel;
* `recursivelyDestroyAt`, `climb`: the recursion over the children of `recursively_destroy`, and the
  loop over the parent pointers of `recurse_regex`;
* `HeapSquasher`, `addPathAt`: a `tm_path_squasher` and one call.

The order in which `ck_hs_next` visits a child set is chosen for every set by a `Visit`.
-/

namespace Tracemate.Squasher

open CStr HeapMemory

/-- The union of a `node_t`, with the flag `children_squashed` that tells its member. -/
inductive NodeUnion
  | children (set : List ℕ)
  | squashedChild (child : ℕ)

/-- A `node_t`. -/
structure NodeT where
  segmentName : Bytes
  parent : Option ℕ
  u : NodeUnion

/-- The order in which the child set of the node at an address is visited. -/
structure Visit where
  order : ℕ → List ℕ → List ℕ
  perm : ∀ a as, (order a as).Perm as

/-- `create_node`. -/
def createNodeAt (segmentName : Bytes) (h : Heap NodeT) : ℕ × Heap NodeT :=
  h.alloc ⟨segmentName, none, .children []⟩

/-- `ck_hs_get`: the child of a name, by comparing the nodes of the set. -/
def findChild (h : Heap NodeT) (segmentName : Bytes) : List ℕ → Option (Option ℕ)
  | [] => some none
  | a :: as =>
    match h.cell a with
    | none => none
    | some node => if node.segmentName = segmentName then some (some a) else findChild h segmentName as

/-- `maybe_add_child`. -/
def maybeAddChildAt (parent : ℕ) (segmentName : Bytes) (h : Heap NodeT) :
    Option (ℕ × Heap NodeT) := do
  let p ← h.cell parent
  match p.u with
  | .squashedChild child => some (child, h)
  | .children set =>
    match ← findChild h segmentName set with
    | some ex => some (ex, h)
    | none =>
      let (ex, h) := createNodeAt segmentName h
      let h ← h.store ex fun node => { node with parent := some parent }
      let h ← h.store parent fun node => { node with u := .children (set ++ [ex]) }
      some (ex, h)

/-- A `ck_hs_next` loop over the child set of the node at `a`, which must stay as it is. -/
def visitSet (a : ℕ) (set : List ℕ) (body : ℕ → Heap NodeT → Option (Heap NodeT)) :
    List ℕ → Heap NodeT → Option (Heap NodeT)
  | [], h => some h
  | child :: rest, h => do
    let node ← h.cell a
    match node.u with
    | .squashedChild _ => none
    | .children set' =>
      if set' = set then
        let h ← body child h
        visitSet a set body rest h
      else none

/-- The branch on `children_squashed` in `recurse_add_children` and in `squash_children`: what is
done to every node below the one at `child`. -/
def forEachBelow (visit : Visit) (child : ℕ) (body : ℕ → Heap NodeT → Option (Heap NodeT))
    (h : Heap NodeT) : Option (Heap NodeT) := do
  let node ← h.cell child
  match node.u with
  | .squashedChild grandchild => body grandchild h
  | .children set => visitSet child set body (visit.order child set) h

/-- `recurse_add_children(parent, child)`, with `destroy_node(child)` at its end. -/
def recurseAddChildrenAt (visit : Visit) : ℕ → ℕ → ℕ → Heap NodeT → Option (Heap NodeT)
  | 0, _, _, _ => none
  | fuel + 1, parent, child, h => do
    let node ← h.cell child
    let (foo, h) ← maybeAddChildAt parent node.segmentName h
    let h ← forEachBelow visit child (recurseAddChildrenAt visit fuel foo) h
    h.free child

/-- The body of the loop in `squash_children`: the grandchildren go below the new child. -/
def squashChildAt (visit : Visit) (fuel newChild oldChild : ℕ) (h : Heap NodeT) :
    Option (Heap NodeT) := do
  let h ← forEachBelow visit oldChild (recurseAddChildrenAt visit fuel newChild) h
  h.free oldChild

/-- `squash_children`, on a parent whose children are not squashed. -/
def squashChildrenAt (visit : Visit) (fuel parent : ℕ) (h : Heap NodeT) :
    Option (ℕ × Heap NodeT) := do
  let (newChild, h) := createNodeAt squashedName h
  let node ← h.cell parent
  match node.u with
  | .squashedChild _ => none
  | .children set =>
    let h ← visitSet parent set (squashChildAt visit fuel newChild) (visit.order parent set) h
    let h ← h.store newChild fun node => { node with parent := some parent }
    let h ← h.store parent fun node => { node with u := .squashedChild newChild }
    some (newChild, h)

/-- `recursively_destroy`. -/
def recursivelyDestroyAt (visit : Visit) : ℕ → ℕ → Heap NodeT → Option (Heap NodeT)
  | 0, _, _ => none
  | fuel + 1, n, h => do
    let h ← forEachBelow visit n (recursivelyDestroyAt visit fuel) h
    h.free n

/-- The loop `while (p)` in `recurse_regex` up to the root: the nodes that it pushes. -/
def climb (h : Heap NodeT) : ℕ → Option ℕ → Option (List ℕ)
  | _, none => some []
  | 0, some _ => none
  | fuel + 1, some p => do
    let node ← h.cell p
    let above ← climb h fuel node.parent
    some (p :: above)

/-- A `tm_path_squasher` whose nodes are on the heap. -/
structure HeapSquasher where
  heap : Heap NodeT
  rootNode : ℕ
  cardinalityFactor : Int32
  addedPathCount : ℕ

/-- The loop body of `tm_path_squasher_add_path`, up to `depth++`: the child to move to. -/
def addSegmentAt (visit : Visit) (fuel : ℕ) (cf : Int32) (rootNode depth : ℕ) (segment : Bytes)
    (parent : ℕ) (h : Heap NodeT) : Option (ℕ × Heap NodeT) := do
  let (child, h) ← maybeAddChildAt parent segment h
  let p ← h.cell parent
  match p.u with
  | .squashedChild _ => some (child, h)
  | .children set =>
    if cardinalityLimit cf depth < set.length ∧ parent ≠ rootNode then
      squashChildrenAt visit fuel parent h
    else some (child, h)

/-- The loop over the segments. -/
def addSegmentsAt (visit : Visit) (fuel : ℕ) (cf : Int32) (rootNode : ℕ) :
    ℕ → List Bytes → ℕ → Heap NodeT → Option (Heap NodeT)
  | _, [], _, h => some h
  | depth, segment :: rest, parent, h => do
    let (child, h) ← addSegmentAt visit fuel cf rootNode depth segment parent h
    if depth + 1 = 5 then some h
    else addSegmentsAt visit fuel cf rootNode (depth + 1) rest child h

/-- `tm_path_squasher_alloc`. -/
def pathSquasherAllocAt (cardinalityFactor : Int32) : HeapSquasher :=
  let (rootNode, heap) := createNodeAt (cstr "<ROOT>") Heap.empty
  ⟨heap, rootNode, cardinalityFactor, 0⟩

/-- `tm_path_squasher_add_path`. -/
def addPathAt (fuel : ℕ) (ps : HeapSquasher) (visit : Visit) (urlPath : Bytes) :
    Option HeapSquasher := do
  let heap ← addSegmentsAt visit fuel ps.cardinalityFactor ps.rootNode 0 (segments urlPath)
    ps.rootNode ps.heap
  some { ps with heap := heap, addedPathCount := ps.addedPathCount + 1 }

/-- One call on the heap: the orders of its visits and its argument. -/
structure HeapCall where
  visit : Visit
  urlPath : Bytes

/-- A sequence of calls of `tm_path_squasher_add_path`. -/
def HeapSquasher.addPaths (fuel : ℕ) (ps : HeapSquasher) (calls : List HeapCall) :
    Option HeapSquasher :=
  calls.foldlM (fun ps call => addPathAt fuel ps call.visit call.urlPath) ps

end Tracemate.Squasher
