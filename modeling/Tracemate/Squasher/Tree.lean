import Tracemate.Lib.CStr
import Tracemate.Lib.Wildcard

/-!
# The path tree of `tm_url_squasher.c`

A `node_t` has a segment name and either a set of children or, once its children are squashed,
one child.  A pointer that a function returns and its caller writes through is modelled by a
continuation: `maybeAddChild parent segment k` applies `k` to the child that `maybe_add_child`
returns, in its place in the tree.

* `recurseAddChildren`, `recurseAddAll`: the merge of a subtree into the children of a node;
* `squashChildren`: the node after `squash_children`;
* `addSegments`: the loop of `tm_path_squasher_add_path` over the segments;
* `PathSquasher`: a `tm_path_squasher`, with the well-formedness of its tree.

The order in which `ck_hs_next` visits a child set depends on a random seed: an `IterOrder`
chooses it, for each set of the squashed subtree on its own.
-/

namespace Tracemate.Squasher

open CStr

/-- A `node_t`: `children_squashed` says which member of the union is in use. -/
inductive Node
  | set (segmentName : Bytes) (children : List Node)
  | squashed (segmentName : Bytes) (squashedChild : Node)

namespace Node

def segmentName : Node → Bytes
  | set name _ => name
  | squashed name _ => name

def childrenSquashed : Node → Bool
  | set _ _ => false
  | squashed _ _ => true

/-- The nodes one level down, in either representation. -/
def childNodes : Node → List Node
  | set _ children => children
  | squashed _ child => [child]

@[simp] theorem segmentName_set (name : Bytes) (cs : List Node) :
    (set name cs).segmentName = name := rfl
@[simp] theorem segmentName_squashed (name : Bytes) (c : Node) :
    (squashed name c).segmentName = name := rfl
@[simp] theorem childNodes_set (name : Bytes) (cs : List Node) : (set name cs).childNodes = cs := rfl
@[simp] theorem childNodes_squashed (name : Bytes) (c : Node) :
    (squashed name c).childNodes = [c] := rfl

/-- Induction over a tree: what holds of a node when it holds of the nodes below it. -/
theorem induct {P : Node → Prop} (h : ∀ n : Node, (∀ c ∈ n.childNodes, P c) → P n)
    (n : Node) : P n :=
  @Node.rec P (fun cs => ∀ c ∈ cs, P c)
    (fun name cs ih => h (.set name cs) ih)
    (fun name c ih => h (.squashed name c) (by simpa using ih))
    (by simp)
    (fun c cs hc hcs => by simpa using ⟨hc, hcs⟩) n

end Node

/-- The name of the node that stands for squashed children. -/
def squashedName : Bytes := cstr "\x7b...\x7d"

/-! ### `maybe_add_child` -/

/-- `create_node`. -/
def createNode (segmentName : Bytes) : Node := .set segmentName []

@[simp] theorem segmentName_createNode (segmentName : Bytes) :
    (createNode segmentName).segmentName = segmentName := rfl

/-- The child set after a lookup of `segment` that creates a missing child; `k` is what the
caller does to the child. -/
def getOrCreate (segment : Bytes) (k : Node → Node) : List Node → List Node
  | [] => [k (createNode segment)]
  | c :: cs =>
    if c.segmentName = segment then k c :: cs else c :: getOrCreate segment k cs

/-- `maybe_add_child`, followed by `k` on the node it returns. -/
def maybeAddChild (parent : Node) (segment : Bytes) (k : Node → Node) : Node :=
  match parent with
  | .squashed name child => .squashed name (k child)
  | .set name children => .set name (getOrCreate segment k children)

@[simp] theorem segmentName_maybeAddChild (parent : Node) (segment : Bytes) (k : Node → Node) :
    (maybeAddChild parent segment k).segmentName = parent.segmentName := by
  cases parent <;> rfl

/-! ### Merging -/

mutual
/-- `recurse_add_children(parent, child)`. -/
def recurseAddChildren : Node → Node → Node
  | .squashed name grandchild, parent =>
    maybeAddChild parent name fun foo => recurseAddChildren grandchild foo
  | .set name grandchildren, parent =>
    maybeAddChild parent name fun foo => recurseAddAll grandchildren foo
/-- The `while` loop that calls `recurse_add_children` on every node of a child set. -/
def recurseAddAll : List Node → Node → Node
  | [], parent => parent
  | child :: rest, parent => recurseAddAll rest (recurseAddChildren child parent)
end

/-- Both branches of `recurse_add_children` move what is below the child. -/
theorem recurseAddChildren_eq (child parent : Node) :
    recurseAddChildren child parent =
      maybeAddChild parent child.segmentName (recurseAddAll child.childNodes) := by
  cases child with
  | set name cs => rw [recurseAddChildren]; rfl
  | squashed name c =>
    rw [recurseAddChildren]
    congr 1

@[simp] theorem recurseAddAll_nil (parent : Node) : recurseAddAll [] parent = parent := by
  rw [recurseAddAll]

@[simp] theorem recurseAddAll_cons (c : Node) (cs : List Node) (parent : Node) :
    recurseAddAll (c :: cs) parent = recurseAddAll cs (recurseAddChildren c parent) := by
  rw [recurseAddAll]

/-- The order in which a `ck_hs_next` loop visits the children of the node at a path. -/
structure IterOrder where
  next : List Bytes → List Node → List Node
  perm : ∀ path cs, (next path cs).Perm cs

/-- The order of the list. -/
def IterOrder.listed : IterOrder := ⟨fun _ cs => cs, fun _ _ => .refl _⟩

mutual
/-- The subtree at `path` with every child set in the order in which it will be visited. -/
def Node.reorder (o : IterOrder) (path : List Bytes) : Node → Node
  | .set name cs =>
    .set name (o.next (path ++ [name]) (Node.reorderAll o (path ++ [name]) cs))
  | .squashed name c => .squashed name (c.reorder o (path ++ [name]))
/-- The same for each node of a child set. -/
def Node.reorderAll (o : IterOrder) (path : List Bytes) : List Node → List Node
  | [] => []
  | c :: cs => c.reorder o path :: Node.reorderAll o path cs
end

/-- The new child of `squash_children`, from the old children in the order of the visit. -/
def squashInto (children : List Node) : Node :=
  children.foldl (fun newChild oldChild =>
    match oldChild with
    | .squashed _ child => recurseAddChildren child newChild
    | .set _ grandchildren => recurseAddAll grandchildren newChild) (createNode squashedName)

/-- The child that `squash_children` gives the node `name` instead of its children. -/
def squashedChild (o : IterOrder) (name : Bytes) (children : List Node) : Node :=
  squashInto ((Node.set name children).reorder o []).childNodes

/-- `squash_children`, on a parent whose children are not squashed. -/
def squashChildren (o : IterOrder) : Node → Node
  | .set name children => .squashed name (squashedChild o name children)
  | .squashed name child => .squashed name child

/-! ### `tm_path_squasher_add_path` -/

/-- `cardinality_factor / (3 << depth)`, converted to the type of `ck_hs_count`. -/
def cardinalityLimit (cardinalityFactor : Int32) (depth : ℕ) : ℕ :=
  (cardinalityFactor.toInt.tdiv (3 <<< depth : ℕ) % 2 ^ 64).toNat

/-- The test of the loop body: the children of `parent` are to be squashed. -/
def mustSquash (cardinalityFactor : Int32) (depth : ℕ) : Node → Bool
  | .squashed _ _ => false
  | .set _ children => cardinalityLimit cardinalityFactor depth < children.length && depth ≠ 0

/-- The loop body for one segment, up to `depth++`: the lookup, then the squash if it is due. -/
def addSegment (cardinalityFactor : Int32) (o : IterOrder) (depth : ℕ) (segment : Bytes)
    (parent : Node) : Node :=
  let parent := maybeAddChild parent segment id
  if mustSquash cardinalityFactor depth parent then squashChildren o parent else parent

/-- The loop over the segments, from a depth on; only the root has depth `0`.  `orders` gives
the order of the visits of a squash at each depth. -/
def addSegments (cardinalityFactor : Int32) (orders : ℕ → IterOrder) (depth : ℕ) :
    List Bytes → Node → Node
  | [], parent => parent
  | segment :: rest, parent =>
    let parent := addSegment cardinalityFactor (orders depth) depth segment parent
    if depth + 1 = 5 then parent
    -- the lookup returns the child that `parent = child` moves to
    else maybeAddChild parent segment (addSegments cardinalityFactor orders (depth + 1) rest)

/-- The segments of a path: one trailing newline is dropped, blank levels are eliminated. -/
def segments (urlPath : Bytes) : List Bytes :=
  strtok 47 (if urlPath.getLast? = some 10 then urlPath.dropLast else urlPath)

/-! ### Well-formed trees -/

/-- No child set of the subtree holds two nodes of one name, and the child of a node whose
children are squashed is named `{...}`. -/
inductive Node.WellFormed : Node → Prop
  | set {name : Bytes} {cs : List Node} : (cs.map segmentName).Nodup →
      (∀ c ∈ cs, c.WellFormed) → (Node.set name cs).WellFormed
  | squashed {name : Bytes} {c : Node} : c.segmentName = squashedName →
      c.WellFormed → (Node.squashed name c).WellFormed

/-- A continuation that leaves the name of the node alone. -/
def KeepsName (k : Node → Node) : Prop := ∀ n, (k n).segmentName = n.segmentName

theorem KeepsName.id : KeepsName id := fun _ => rfl

/-- The names of a child set after a lookup. -/
theorem map_segmentName_getOrCreate {k : Node → Node} (hk : KeepsName k) (segment : Bytes)
    (cs : List Node) :
    (getOrCreate segment k cs).map Node.segmentName =
      if segment ∈ cs.map Node.segmentName then cs.map Node.segmentName
      else cs.map Node.segmentName ++ [segment] := by
  induction cs with
  | nil => simp [getOrCreate, hk _, createNode]
  | cons c cs ih =>
    by_cases hc : c.segmentName = segment
    · simp [getOrCreate, hc, hk c]
    · simp only [getOrCreate, hc, if_false, List.map_cons, ih, List.mem_cons, Ne.symm hc, false_or]
      split_ifs <;> rfl

/-- The nodes of a child set after a lookup: an old one, or what `k` makes of the one found. -/
theorem mem_getOrCreate {k : Node → Node} {segment : Bytes} {cs : List Node} {d : Node}
    (h : d ∈ getOrCreate segment k cs) :
    d ∈ cs ∨ (∃ c ∈ cs, d = k c) ∨ d = k (createNode segment) := by
  induction cs with
  | nil => exact .inr (.inr (List.mem_singleton.1 h))
  | cons c cs ih =>
    by_cases hc : c.segmentName = segment
    · rw [getOrCreate, if_pos hc] at h
      rcases List.mem_cons.1 h with rfl | h
      · exact .inr (.inl ⟨c, List.mem_cons_self, rfl⟩)
      · exact .inl (List.mem_cons_of_mem _ h)
    · rw [getOrCreate, if_neg hc] at h
      rcases List.mem_cons.1 h with rfl | h
      · exact .inl List.mem_cons_self
      · rcases ih h with h | ⟨c', hc', rfl⟩ | rfl
        · exact .inl (List.mem_cons_of_mem _ h)
        · exact .inr (.inl ⟨c', List.mem_cons_of_mem _ hc', rfl⟩)
        · exact .inr (.inr rfl)

theorem wellFormed_createNode (name : Bytes) : (createNode name).WellFormed :=
  .set List.nodup_nil (by simp)

/-- `maybe_add_child` adds no second node of a name. -/
theorem Node.WellFormed.maybeAddChild {parent : Node} (h : parent.WellFormed) {k : Node → Node}
    (hname : KeepsName k) (hk : ∀ c : Node, c.WellFormed → (k c).WellFormed) (segment : Bytes) :
    (maybeAddChild parent segment k).WellFormed := by
  cases h with
  | squashed hc hwf => exact .squashed (by rw [hname, hc]) (hk _ hwf)
  | @set name cs hnames hbelow =>
    refine .set ?_ fun d hd => ?_
    · rw [map_segmentName_getOrCreate hname]
      split_ifs with hmem
      · exact hnames
      · exact hnames.append (List.nodup_singleton _) (by simpa using hmem)
    · rcases mem_getOrCreate hd with hd | ⟨c, hc, rfl⟩ | rfl
      · exact hbelow d hd
      · exact hk c (hbelow c hc)
      · exact hk _ (wellFormed_createNode segment)

theorem keepsName_recurseAddAll (cs : List Node) : KeepsName (recurseAddAll cs) := by
  induction cs with
  | nil => intro n; simp
  | cons c cs ih =>
    intro n
    rw [recurseAddAll_cons, ih, recurseAddChildren_eq, segmentName_maybeAddChild]

/-- A merge adds no second node of a name, whatever the merged subtrees are. -/
theorem Node.WellFormed.recurseAddChildren (child : Node) :
    ∀ parent : Node, parent.WellFormed → (recurseAddChildren child parent).WellFormed := by
  induction child using Node.induct with
  | h child ih =>
    intro parent hp
    rw [recurseAddChildren_eq]
    refine hp.maybeAddChild (keepsName_recurseAddAll _) ?_ _
    generalize child.childNodes = cs at ih
    induction cs with
    | nil => intro c hc; simpa using hc
    | cons c cs ihcs =>
      intro d hd
      rw [recurseAddAll_cons]
      exact ihcs (fun e he => ih e (List.mem_cons_of_mem _ he)) _ (ih c List.mem_cons_self d hd)

theorem Node.WellFormed.recurseAddAll {parent : Node} (hp : parent.WellFormed) (cs : List Node) :
    (recurseAddAll cs parent).WellFormed := by
  induction cs generalizing parent with
  | nil => simpa using hp
  | cons c cs ih =>
    rw [recurseAddAll_cons]
    exact ih (.recurseAddChildren c parent hp)

theorem recurseAddAll_append (cs ds : List Node) (n : Node) :
    recurseAddAll (cs ++ ds) n = recurseAddAll ds (recurseAddAll cs n) := by
  induction cs generalizing n with
  | nil => simp
  | cons c cs ih => simp [ih]

/-- Both branches of the loop of `squash_children` merge what is below the old child. -/
theorem squashInto_eq (children : List Node) :
    squashInto children = recurseAddAll (children.flatMap Node.childNodes)
      (createNode squashedName) := by
  unfold squashInto
  generalize createNode squashedName = newChild
  induction children generalizing newChild with
  | nil => simp
  | cons c cs ih =>
    rw [List.foldl_cons, ih, List.flatMap_cons, recurseAddAll_append]
    cases c <;> simp

theorem wellFormed_squashInto (children : List Node) : (squashInto children).WellFormed := by
  rw [squashInto_eq]
  exact (wellFormed_createNode _).recurseAddAll _

theorem segmentName_squashInto (children : List Node) :
    (squashInto children).segmentName = squashedName := by
  rw [squashInto_eq, keepsName_recurseAddAll]
  rfl

theorem keepsName_squashChildren (o : IterOrder) : KeepsName (squashChildren o) := by
  intro n
  cases n <;> rfl

theorem Node.WellFormed.squashChildren {n : Node} (h : n.WellFormed) (o : IterOrder) :
    (squashChildren o n).WellFormed := by
  cases n with
  | squashed name c => exact h
  | set name cs => exact .squashed (segmentName_squashInto _) (wellFormed_squashInto _)

theorem keepsName_addSegment (cf : Int32) (o : IterOrder) (depth : ℕ) (segment : Bytes) :
    KeepsName (addSegment cf o depth segment) := by
  intro n
  simp only [addSegment]
  split_ifs
  · rw [keepsName_squashChildren, segmentName_maybeAddChild]
  · exact segmentName_maybeAddChild ..

theorem keepsName_addSegments (cf : Int32) (orders : ℕ → IterOrder) (depth : ℕ)
    (segs : List Bytes) : KeepsName (addSegments cf orders depth segs) := by
  intro n
  cases segs with
  | nil => rfl
  | cons s rest =>
    simp only [addSegments]
    split_ifs
    · exact keepsName_addSegment ..
    · rw [segmentName_maybeAddChild, keepsName_addSegment]

theorem Node.WellFormed.addSegment (cf : Int32) (o : IterOrder) (depth : ℕ) (segment : Bytes)
    {n : Node} (h : n.WellFormed) : (addSegment cf o depth segment n).WellFormed := by
  have h₁ : (Squasher.maybeAddChild n segment id).WellFormed :=
    h.maybeAddChild .id (fun _ hc => hc) segment
  simp only [Squasher.addSegment]
  split_ifs
  · exact h₁.squashChildren o
  · exact h₁

theorem Node.WellFormed.addSegments (cf : Int32) (orders : ℕ → IterOrder) (depth : ℕ)
    (segs : List Bytes) {n : Node} (h : n.WellFormed) :
    (addSegments cf orders depth segs n).WellFormed := by
  induction segs generalizing depth n with
  | nil => exact h
  | cons s rest ih =>
    have h₁ := h.addSegment cf (orders depth) depth s
    simp only [Squasher.addSegments]
    split_ifs
    · exact h₁
    · exact h₁.maybeAddChild (keepsName_addSegments cf orders _ rest) (fun _ hc => ih _ hc) s

/-! ### The squasher -/

/-- A `tm_path_squasher`. -/
structure PathSquasher where
  rootNode : Node
  cardinalityFactor : Int32
  addedPathCount : ℕ
  wellFormed : rootNode.WellFormed

/-- `tm_path_squasher_alloc`. -/
def tmPathSquasherAlloc (cardinalityFactor : Int32) : PathSquasher :=
  ⟨createNode (cstr "<ROOT>"), cardinalityFactor, 0, wellFormed_createNode _⟩

/-- `tm_path_squasher_add_path`. -/
def tmPathSquasherAddPath (ps : PathSquasher) (orders : ℕ → IterOrder) (urlPath : Bytes) :
    PathSquasher :=
  { ps with
    rootNode := addSegments ps.cardinalityFactor orders 0 (segments urlPath) ps.rootNode
    addedPathCount := ps.addedPathCount + 1
    wellFormed := ps.wellFormed.addSegments _ _ _ _ }

/-- One call of `tm_path_squasher_add_path`: the orders of its visits and its argument. -/
structure Call where
  orders : ℕ → IterOrder
  urlPath : Bytes

/-- A call with a literal, in which every loop visits a child set in the order of the list. -/
def Call.listed (urlPath : String) : Call := ⟨fun _ => .listed, cstr urlPath⟩

/-- One call as a step of a run. -/
def addPathStep (ps : PathSquasher) (call : Call) (ps' : PathSquasher) : Prop :=
  ps' = tmPathSquasherAddPath ps call.orders call.urlPath

/-- A sequence of calls of `tm_path_squasher_add_path`. -/
def PathSquasher.addPaths (ps : PathSquasher) (calls : List Call) : PathSquasher :=
  calls.foldl (fun ps call => tmPathSquasherAddPath ps call.orders call.urlPath) ps

end Tracemate.Squasher
