import Tracemate.Lib.Runs
import Tracemate.Squasher.Paths

/-!
# The cardinality bound

`tm_path_squasher_add_path` squashes the children of a node on its way when they are too many,
but a squash merges the children of all siblings without looking at the result.

* `Bounded`: every child set at depth `1` to `4` is within the bound of its depth;
* `nextNames L q`: the names that follow the names `q` below the nodes `L` taken together;
* `CallFits`: whatever a call merges and leaves merged is within the bounds;
* `bounded_addSegments_iff`: one call keeps the bound exactly if it fits;
* `bounded_iff_callFits`: the same over runs.
-/

namespace Tracemate.Squasher

open CStr Runs

/-! ### The bound -/

/-- The number of children that a node at a depth may have. -/
def levelBound (cf : Int32) (depth : ℕ) : ℕ := cf.toInt.toNat / (3 <<< depth)

/-- For a positive factor the test of the loop is against the bound. -/
theorem cardinalityLimit_eq_levelBound {cf : Int32} (hcf : 0 < cf.toInt) (depth : ℕ) :
    cardinalityLimit cf depth = levelBound cf depth := by
  obtain ⟨m, hm⟩ := Int.eq_ofNat_of_zero_le hcf.le
  have hlt : m < 2 ^ 31 := by
    have := cf.toInt_lt
    omega
  have hdiv : m / (3 <<< depth) < 2 ^ 64 := (Nat.div_le_self _ _).trans_lt (by omega)
  unfold cardinalityLimit levelBound
  rw [hm, Int.tdiv_eq_ediv_of_nonneg (Int.natCast_nonneg m), Int.toNat_natCast]
  have hcast : (m : ℤ) / ((3 <<< depth : ℕ) : ℤ) % (2 : ℤ) ^ 64 = ((m / (3 <<< depth) : ℕ) : ℤ) := by
    rw [← Int.natCast_ediv]
    exact Int.emod_eq_of_lt (Int.natCast_nonneg _) (by exact_mod_cast hdiv)
  rw [hcast, Int.toNat_natCast]

/-- Every child set from a subtree at `depth` downwards is within the bound of its depth. -/
def BoundedAt (cf : Int32) (depth : ℕ) (n : Node) : Prop :=
  ∀ w name cs, Walk n w (.set name cs) → 1 ≤ depth + w.length → depth + w.length ≤ 4 →
    cs.length ≤ levelBound cf (depth + w.length)

/-- The bound for the tree below a root. -/
def Bounded (cf : Int32) (root : Node) : Prop := BoundedAt cf 0 root

theorem boundedAt_squashed {cf : Int32} {depth : ℕ} {name : Bytes} {c : Node} :
    BoundedAt cf depth (.squashed name c) ↔ BoundedAt cf (depth + 1) c := by
  constructor
  · intro h w name' cs hw h1 h4
    have hwalk : Walk (.squashed name c) (c.segmentName :: w) (.set name' cs) :=
      ⟨c, List.mem_singleton_self c, rfl, hw⟩
    have := h _ _ _ hwalk
    simp only [List.length_cons] at this
    rw [Nat.add_assoc, Nat.add_comm 1] at h1 h4 ⊢
    exact this h1 h4
  · intro h w name' cs hw h1 h4
    cases w with
    | nil => cases hw
    | cons x w =>
      obtain ⟨d, hd, -, hw⟩ := hw
      obtain rfl : d = c := by simpa using hd
      have := h _ _ _ hw
      simp only [List.length_cons] at h1 h4 ⊢
      rw [Nat.add_assoc, Nat.add_comm 1] at this
      exact this h1 h4

theorem boundedAt_set {cf : Int32} {depth : ℕ} {name : Bytes} {cs : List Node} :
    BoundedAt cf depth (.set name cs) ↔
      (1 ≤ depth → depth ≤ 4 → cs.length ≤ levelBound cf depth) ∧
        ∀ c ∈ cs, BoundedAt cf (depth + 1) c := by
  constructor
  · intro h
    refine ⟨h [] name cs rfl, fun c hc w name' ds hw h1 h4 => ?_⟩
    have := h (c.segmentName :: w) name' ds ⟨c, hc, rfl, hw⟩
    simp only [List.length_cons] at this
    rw [Nat.add_assoc, Nat.add_comm 1] at h1 h4 ⊢
    exact this h1 h4
  · rintro ⟨h, hbelow⟩ w name' ds hw h1 h4
    cases w with
    | nil =>
      obtain ⟨rfl, rfl⟩ : name' = name ∧ ds = cs := by simpa [Walk] using hw
      exact h h1 h4
    | cons x w =>
      obtain ⟨c, hc, -, hw⟩ := hw
      have := hbelow c hc _ _ _ hw
      simp only [List.length_cons] at h1 h4 ⊢
      rw [Nat.add_assoc, Nat.add_comm 1] at this
      exact this h1 h4

/-! ### Siblings taken together -/

/-- All nodes one level below the nodes `L`. -/
def levelBelow (L : List Node) : List Node := L.flatMap Node.childNodes

/-- The nodes of one name below the nodes `L`. -/
def under (x : Bytes) (L : List Node) : List Node :=
  (levelBelow L).filter fun c => c.segmentName = x

/-- The names that follow the names `q` below the nodes `L`, each once. -/
def nextNames : List Node → List Bytes → List Bytes
  | L, [] => ((levelBelow L).map Node.segmentName).dedup
  | L, x :: q => nextNames (under x L) q

/-- The paths of the nodes `L` together: those of the node that their merge gives. -/
def IsMerge (n : Node) (L : List Node) : Prop :=
  ∀ w, w ∈ n.paths ↔ w = [] ∨ ∃ l ∈ L, w ∈ l.paths

theorem nodup_nextNames (L : List Node) (q : List Bytes) : (nextNames L q).Nodup := by
  induction q generalizing L with
  | nil => exact List.nodup_dedup _
  | cons x q ih => exact ih _

theorem exists_mem_under {x : Bytes} {L : List Node} {w : List Bytes} :
    (∃ c ∈ under x L, w ∈ c.paths) ↔ ∃ l ∈ L, x :: w ∈ l.paths := by
  simp only [under, levelBelow, List.mem_filter, List.mem_flatMap, decide_eq_true_eq,
    cons_mem_paths]
  constructor
  · rintro ⟨c, ⟨⟨l, hl, hc⟩, hx⟩, hw⟩
    exact ⟨l, hl, c, hc, hx, hw⟩
  · rintro ⟨l, hl, c, hc, hx, hw⟩
    exact ⟨c, ⟨⟨l, hl, hc⟩, hx⟩, hw⟩

theorem mem_nextNames {L : List Node} {q : List Bytes} {x : Bytes} :
    x ∈ nextNames L q ↔ ∃ l ∈ L, q ++ [x] ∈ l.paths := by
  induction q generalizing L with
  | nil =>
    simp only [nextNames, List.mem_dedup, List.mem_map, levelBelow, List.mem_flatMap,
      List.nil_append, cons_mem_paths, nil_mem_paths, and_true]
    constructor
    · rintro ⟨c, ⟨l, hl, hc⟩, hx⟩
      exact ⟨l, hl, c, hc, hx⟩
    · rintro ⟨l, hl, c, hc, hx⟩
      exact ⟨c, ⟨l, hl, hc⟩, hx⟩
  | cons y q ih =>
    rw [nextNames, ih]
    exact exists_mem_under

/-- In a well-formed tree two walks along the same names end at the same node. -/
theorem walk_unique {n m m' : Node} {w : List Bytes} (hn : n.WellFormed) (h : Walk n w m)
    (h' : Walk n w m') : m = m' := by
  induction w generalizing n with
  | nil =>
    obtain rfl : m = n := h
    exact h'.symm
  | cons x w ih =>
    obtain ⟨c, hc, hx, hw⟩ := h
    obtain ⟨c', hc', hx', hw'⟩ := h'
    cases hn with
    | squashed hname hwf =>
      obtain rfl : c = _ := by simpa using hc
      obtain rfl : c' = _ := by simpa using hc'
      exact ih hwf hw hw'
    | set hnames hbelow =>
      obtain rfl : c = c' := List.inj_on_of_nodup_map hnames hc hc' (hx.trans hx'.symm)
      exact ih (hbelow c hc) hw hw'

theorem Node.WellFormed.of_walk {n m : Node} {w : List Bytes} (hn : n.WellFormed)
    (h : Walk n w m) : m.WellFormed := by
  induction w generalizing n with
  | nil =>
    obtain rfl : m = n := h
    exact hn
  | cons x w ih =>
    obtain ⟨c, hc, -, hw⟩ := h
    cases hn with
    | squashed hname hwf =>
      obtain rfl : c = _ := by simpa using hc
      exact ih hwf hw
    | set hnames hbelow => exact ih (hbelow c hc) hw

/-- A child set of a merged node has as many nodes as there are names. -/
theorem IsMerge.length_eq {n : Node} {L : List Node} (h : IsMerge n L) (hn : n.WellFormed)
    {w : List Bytes} {name : Bytes} {cs : List Node} (hw : Walk n w (.set name cs)) :
    cs.length = (nextNames L w).length := by
  have hnames : (cs.map Node.segmentName).Nodup := by
    cases hn.of_walk hw with
    | set hnames _ => exact hnames
  rw [← List.length_map Node.segmentName]
  refine ((List.perm_ext_iff_of_nodup hnames (nodup_nextNames L w)).2 fun x => ?_).length_eq
  have hx : w ++ [x] ∈ n.paths ↔ ∃ l ∈ L, w ++ [x] ∈ l.paths :=
    (h _).trans (or_iff_right (by simp))
  rw [mem_nextNames, ← hx]
  constructor
  · intro hx
    obtain ⟨c, hc, rfl⟩ := List.mem_map.1 hx
    exact ⟨c, walk_append.2 ⟨_, hw, c, hc, rfl, rfl⟩⟩
  · rintro ⟨m, hm⟩
    obtain ⟨k, hk, c, hc, rfl, -⟩ := walk_append.1 hm
    obtain rfl := walk_unique hn hk hw
    exact List.mem_map_of_mem hc

/-! ### Which calls fit -/

/-- Every set of names below the nodes `L`, merged at `depth`, is within its bound. -/
def MergeFits (cf : Int32) (depth : ℕ) (L : List Node) : Prop :=
  ∀ q : List Bytes, depth + q.length ≤ 4 →
    (nextNames L q).length ≤ levelBound cf (depth + q.length)

/-- The names below the nodes `L`, with that of a further segment. -/
def namesWith (segment : Bytes) (L : List Node) : List Bytes := (nextNames L []).insert segment

/-- What a call that has squashed the parents of the nodes `L` leaves merged at `depth` is
within the bounds: a set is squashed in turn where the call walks through it and it is too
large, and stays as it is elsewhere. -/
def MergedCallFits (cf : Int32) : ℕ → List Bytes → List Node → Prop
  | depth, [], L => MergeFits cf depth L
  | depth, segment :: rest, L =>
    if levelBound cf depth < (namesWith segment L).length then
      depth < 4 → MergedCallFits cf (depth + 1) rest (levelBelow L)
    else
      (∀ x ≠ segment, MergeFits cf (depth + 1) (under x L)) ∧
        (depth < 4 → MergedCallFits cf (depth + 1) rest (under segment L))

/-- The child that the lookup of `segment` returns. -/
def lookupChild (segment : Bytes) (cs : List Node) : Node :=
  (cs.find? fun c => c.segmentName = segment).getD (createNode segment)

/-- Whatever the call with these segments merges and leaves merged is within the bounds. -/
def CallFits (cf : Int32) : ℕ → List Bytes → Node → Prop
  | _, [], _ => True
  | depth, _ :: rest, .squashed _ child => depth < 4 → CallFits cf (depth + 1) rest child
  | depth, segment :: rest, .set _ children =>
    if depth ≠ 0 ∧ levelBound cf depth <
        (getOrCreate segment id children).length then
      depth < 4 → MergedCallFits cf (depth + 1) rest children
    else depth < 4 → CallFits cf (depth + 1) rest (lookupChild segment children)

/-! ### One call -/

theorem forall_mem_getOrCreate {P : Node → Prop} {k : Node → Node} {segment : Bytes}
    {cs : List Node} (hnames : (cs.map Node.segmentName).Nodup) :
    (∀ d ∈ getOrCreate segment k cs, P d) ↔
      (∀ d ∈ cs, d.segmentName ≠ segment → P d) ∧ P (k (lookupChild segment cs)) := by
  induction cs with
  | nil => simp [getOrCreate, lookupChild]
  | cons c cs ih =>
    obtain ⟨hc, hnodup⟩ := List.nodup_cons.1 hnames
    by_cases h : c.segmentName = segment
    · have hne : ∀ d ∈ cs, d.segmentName ≠ segment := by
        rintro d hd rfl
        exact hc (h ▸ List.mem_map_of_mem hd)
      simp only [getOrCreate, h, if_true, lookupChild, List.find?_cons, decide_true, List.mem_cons,
        forall_eq_or_imp, ne_eq, not_true, false_imp_iff, true_and, Option.getD_some]
      rw [and_comm]
      exact and_congr_left fun _ => forall₂_congr fun d hd => by simp [hne d hd]
    · have hfind : lookupChild segment (c :: cs) = lookupChild segment cs := by
        simp [lookupChild, h]
      simp only [getOrCreate, h, if_false, List.mem_cons, forall_eq_or_imp, ih hnodup, hfind,
        ne_eq, not_false_eq_true, true_imp_iff, and_assoc]

theorem Node.Plain.of_walk {n m : Node} {w : List Bytes} (hn : n.Plain) (h : Walk n w m) :
    m.Plain := by
  induction w generalizing n with
  | nil =>
    obtain rfl : m = n := h
    exact hn
  | cons x w ih =>
    obtain ⟨c, hc, -, hw⟩ := h
    cases hn with
    | set hcs => exact ih (hcs c hc) hw

/-- A merged tree is within the bounds exactly if the sets of names it holds are. -/
theorem boundedAt_iff_mergeFits {cf : Int32} {depth : ℕ} {n : Node} {L : List Node}
    (hp : n.Plain) (hn : n.WellFormed) (hm : IsMerge n L) (h1 : 1 ≤ depth) :
    BoundedAt cf depth n ↔ MergeFits cf depth L := by
  constructor
  · intro h q hq
    rcases List.eq_nil_or_concat (nextNames L q) with hnil | ⟨front, x, hx⟩
    · rw [hnil]
      exact Nat.zero_le _
    · have hmem : q ++ [x] ∈ n.paths :=
        (hm _).2 (.inr (mem_nextNames.1 (by rw [hx]; exact by simp)))
      obtain ⟨l, hl⟩ := hmem
      obtain ⟨m, hw, -⟩ := walk_append.1 hl
      obtain @⟨name, cs, -⟩ := hp.of_walk hw
      rw [← hm.length_eq hn hw]
      exact h q name cs hw (by omega) hq
  · intro h w name cs hw _ h4
    rw [hm.length_eq hn hw]
    exact h w h4

theorem boundedAt_createNode {cf : Int32} {depth : ℕ} (name : Bytes) :
    BoundedAt cf depth (createNode name) :=
  boundedAt_set.2 ⟨fun _ _ => Nat.zero_le _, by simp⟩

theorem boundedAt_of_lt {cf : Int32} {depth : ℕ} (h : 4 < depth) (n : Node) :
    BoundedAt cf depth n := by
  intro w name cs _ _ h4
  omega

theorem lookupChild_spec (segment : Bytes) (cs : List Node) :
    (lookupChild segment cs ∈ cs ∧ (lookupChild segment cs).segmentName = segment) ∨
      (segment ∉ cs.map Node.segmentName ∧ lookupChild segment cs = createNode segment) := by
  unfold lookupChild
  cases hf : cs.find? fun c => c.segmentName = segment with
  | none =>
    refine .inr ⟨fun hmem => ?_, rfl⟩
    obtain ⟨c, hc, hs⟩ := List.mem_map.1 hmem
    simpa [hs] using List.find?_eq_none.1 hf c hc
  | some c =>
    exact .inl ⟨List.mem_of_find?_eq_some hf, by simpa using List.find?_some hf⟩

/-- What holds of all children and of a new one holds of the child of the lookup. -/
theorem forall_lookupChild {P : Node → Prop} {cs : List Node} (hcs : ∀ c ∈ cs, P c)
    {segment : Bytes} (hnew : P (createNode segment)) : P (lookupChild segment cs) := by
  rcases lookupChild_spec segment cs with ⟨hmem, -⟩ | ⟨-, heq⟩
  · exact hcs _ hmem
  · rwa [heq]

theorem plain_lookupChild {cs : List Node} (hcs : ∀ c ∈ cs, c.Plain) (segment : Bytes) :
    (lookupChild segment cs).Plain :=
  forall_lookupChild hcs (plain_createNode segment)

theorem wellFormed_lookupChild {cs : List Node} (hcs : ∀ c ∈ cs, c.WellFormed) (segment : Bytes) :
    (lookupChild segment cs).WellFormed :=
  forall_lookupChild hcs (wellFormed_createNode segment)

/-- A second lookup of the same segment finds the child of the first. -/
theorem getOrCreate_getOrCreate {k l : Node → Node} (hk : KeepsName k) (segment : Bytes)
    (cs : List Node) :
    getOrCreate segment l (getOrCreate segment k cs) =
      getOrCreate segment (fun c => l (k c)) cs := by
  induction cs with
  | nil => simp [getOrCreate, hk _]
  | cons c cs ih =>
    by_cases h : c.segmentName = segment
    · simp [getOrCreate, h, hk c]
    · simp [getOrCreate, h, ih]

/-- What the rest of a call does to the child it moves to. -/
def descend (cf : Int32) (orders : ℕ → IterOrder) (depth : ℕ) (rest : List Bytes) : Node → Node :=
  if depth + 1 = 5 then id else addSegments cf orders (depth + 1) rest

theorem mustSquash_maybeAddChild_set {cf : Int32} {depth : ℕ} {s name : Bytes}
    {cs : List Node} :
    mustSquash cf depth (maybeAddChild (.set name cs) s id) = true ↔
      depth ≠ 0 ∧ cardinalityLimit cf depth < (getOrCreate s id cs).length := by
  simp [mustSquash, maybeAddChild, and_comm]

theorem keepsName_descend (cf : Int32) (orders : ℕ → IterOrder) (depth : ℕ) (rest : List Bytes) :
    KeepsName (descend cf orders depth rest) := by
  unfold descend
  split_ifs
  · exact .id
  · exact keepsName_addSegments cf orders _ rest

/-- The children of the node are squashed, and the call moves to the merged child. -/
theorem addSegments_set_of_lt {cf : Int32} {orders : ℕ → IterOrder} {depth : ℕ} {s : Bytes}
    {rest : List Bytes} {name : Bytes} {cs : List Node}
    (h : depth ≠ 0 ∧ cardinalityLimit cf depth < (getOrCreate s id cs).length) :
    addSegments cf orders depth (s :: rest) (.set name cs) =
      .squashed name (descend cf orders depth rest
        (squashedChild (orders depth) name (getOrCreate s id cs))) := by
  have hbody : addSegment cf (orders depth) depth s (.set name cs) =
      .squashed name (squashedChild (orders depth) name (getOrCreate s id cs)) :=
    if_pos (mustSquash_maybeAddChild_set.2 h)
  unfold descend
  rw [addSegments, hbody]
  split_ifs <;> rfl

/-- The children of the node are left as they are, and the call moves to one of them. -/
theorem addSegments_set_of_not_lt {cf : Int32} {orders : ℕ → IterOrder} {depth : ℕ} {s : Bytes}
    {rest : List Bytes} {name : Bytes} {cs : List Node}
    (h : ¬ (depth ≠ 0 ∧ cardinalityLimit cf depth < (getOrCreate s id cs).length)) :
    addSegments cf orders depth (s :: rest) (.set name cs) =
      .set name (getOrCreate s (descend cf orders depth rest) cs) := by
  have hbody : addSegment cf (orders depth) depth s (.set name cs) =
      .set name (getOrCreate s id cs) := if_neg fun hm => h (mustSquash_maybeAddChild_set.1 hm)
  unfold descend
  rw [addSegments, hbody]
  split_ifs
  · rfl
  · rw [maybeAddChild, getOrCreate_getOrCreate .id]
    rfl

theorem addSegments_squashed {cf : Int32} {orders : ℕ → IterOrder} {depth : ℕ} {s : Bytes}
    {rest : List Bytes} {name : Bytes} {c : Node} :
    addSegments cf orders depth (s :: rest) (.squashed name c) =
      .squashed name (descend cf orders depth rest c) := by
  simp only [addSegments, addSegment, maybeAddChild, mustSquash, descend]
  split_ifs <;> rfl

/-- What is proved of the next depth is needed only while the loop goes on. -/
theorem boundedAt_descend {cf : Int32} {orders : ℕ → IterOrder} {depth : ℕ} {rest : List Bytes}
    {n : Node} {Q : Prop}
    (h : depth < 4 → (BoundedAt cf (depth + 1) (addSegments cf orders (depth + 1) rest n) ↔ Q)) :
    BoundedAt cf (depth + 1) (descend cf orders depth rest n) ↔ (depth < 4 → Q) := by
  unfold descend
  by_cases hd : depth < 4
  · rw [if_neg (by omega), h hd]
    simp [hd]
  · simp only [hd, false_imp_iff, iff_true]
    exact boundedAt_of_lt (by omega) _

/-- The children of a merged node are merges of the nodes of their name. -/
theorem IsMerge.child {name : Bytes} {cs L : List Node} (h : IsMerge (.set name cs) L)
    (hnames : (cs.map Node.segmentName).Nodup) {c : Node} (hc : c ∈ cs) :
    IsMerge c (under c.segmentName L) := by
  intro w
  rw [exists_mem_under]
  have hcons : c.segmentName :: w ∈ (Node.set name cs).paths ↔ w ∈ c.paths := by
    rw [cons_mem_paths]
    constructor
    · rintro ⟨d, hd, hname, hw⟩
      rwa [← List.inj_on_of_nodup_map hnames hd hc hname]
    · exact fun hw => ⟨c, hc, rfl, hw⟩
  rw [← hcons, h]
  constructor
  · rintro (h' | h')
    · cases h'
    · exact .inr h'
  · rintro (rfl | h')
    · exact (h _).1 (hcons.2 (nil_mem_paths c))
    · exact .inr h'

/-- The same for a child that the lookup may have created. -/
theorem IsMerge.lookupChild {name : Bytes} {cs L : List Node} (h : IsMerge (.set name cs) L)
    (hnames : (cs.map Node.segmentName).Nodup) (s : Bytes) :
    IsMerge (lookupChild s cs) (under s L) := by
  rcases lookupChild_spec s cs with ⟨hmem, hs⟩ | ⟨hs, hnew⟩
  · have := h.child hnames hmem
    rwa [hs] at this
  · intro w
    rw [hnew, paths_createNode, exists_mem_under, Set.mem_singleton_iff]
    refine (or_iff_left fun hw => hs ?_).symm
    obtain ⟨c, hc, rfl, -⟩ := cons_mem_paths.1 ((h _).2 (.inr hw))
    exact List.mem_map_of_mem hc

/-- Squashing the children of a node merges them; the child that the lookup may have created
has nothing below it. -/
theorem isMerge_squashedChild (o : IterOrder) (name s : Bytes) (cs : List Node) :
    IsMerge (squashedChild o name (getOrCreate s id cs)) cs := by
  intro w
  rw [mem_paths_squashedChild]
  constructor
  · rintro (rfl | ⟨d, hd, hw⟩)
    · exact .inl rfl
    · rcases mem_getOrCreate hd with hd | ⟨c, hc, rfl⟩ | rfl
      · exact .inr ⟨d, hd, hw⟩
      · exact .inr ⟨_, hc, hw⟩
      · exact .inl (by simpa using hw)
  · rintro (rfl | ⟨c, hc, hw⟩)
    · exact .inl rfl
    · exact .inr ⟨c, (mem_getOrCreate_of_mem hc s id).elim id id, hw⟩

/-- Squashing the children of a merged node merges what is below the nodes. -/
theorem IsMerge.squashedChild {name : Bytes} {cs L : List Node} (h : IsMerge (.set name cs) L)
    (o : IterOrder) (s : Bytes) :
    IsMerge (squashedChild o name (getOrCreate s id cs)) (levelBelow L) := by
  intro w
  rw [isMerge_squashedChild o name s cs w]
  refine or_congr_right ?_
  have hL : (∃ c ∈ levelBelow L, w ∈ c.paths) ↔ ∃ x, ∃ l ∈ L, x :: w ∈ l.paths := by
    simp only [← exists_mem_under, under, List.mem_filter, decide_eq_true_eq]
    constructor
    · rintro ⟨c, hc, hw⟩
      exact ⟨_, c, ⟨hc, rfl⟩, hw⟩
    · rintro ⟨x, c, ⟨hc, -⟩, hw⟩
      exact ⟨c, hc, hw⟩
  rw [hL]
  constructor
  · rintro ⟨c, hc, hw⟩
    have := (h (c.segmentName :: w)).1 (cons_mem_paths.2 ⟨c, hc, rfl, hw⟩)
    exact ⟨_, this.resolve_left (by simp)⟩
  · rintro ⟨x, hx⟩
    obtain ⟨c, hc, -, hw⟩ := cons_mem_paths.1 ((h _).2 (.inr hx))
    exact ⟨c, hc, hw⟩

/-- The names of a merged child set. -/
theorem IsMerge.mem_names_iff {name : Bytes} {cs L : List Node} (h : IsMerge (.set name cs) L)
    (x : Bytes) : x ∈ cs.map Node.segmentName ↔ x ∈ nextNames L [] := by
  have hx : [x] ∈ (Node.set name cs).paths ↔ ∃ l ∈ L, [x] ∈ l.paths :=
    (h _).trans (or_iff_right (by simp))
  rw [mem_nextNames, List.nil_append, ← hx, cons_mem_paths]
  simp

/-- The size of a merged child set after a lookup. -/
theorem IsMerge.length_getOrCreate {name : Bytes} {cs L : List Node}
    (h : IsMerge (.set name cs) L) (hnames : (cs.map Node.segmentName).Nodup) (s : Bytes) :
    (getOrCreate s id cs).length = (namesWith s L).length := by
  rw [← List.length_map Node.segmentName, map_segmentName_getOrCreate .id]
  unfold namesWith
  have hperm := (List.perm_ext_iff_of_nodup hnames (nodup_nextNames L [])).2 h.mem_names_iff
  split_ifs with hs
  · rw [List.insert_of_mem ((h.mem_names_iff s).1 hs), hperm.length_eq]
  · rw [List.insert_of_not_mem (mt (h.mem_names_iff s).2 hs), List.length_append, hperm.length_eq]
    rfl

theorem length_getOrCreate (s : Bytes) (k : Node → Node) (cs : List Node) :
    (getOrCreate s k cs).length = (getOrCreate s id cs).length := by
  induction cs with
  | nil => rfl
  | cons c cs ih =>
    simp only [getOrCreate]
    split_ifs
    · rfl
    · simp [ih]

section OneCall

variable {cf : Int32} {orders : ℕ → IterOrder}

/-- The bound after a call that leaves a child set unsquashed: that of the children it does not
move to, and that of the one it moves to. -/
theorem boundedAt_getOrCreate {depth : ℕ} {s : Bytes} {rest : List Bytes} {name : Bytes}
    {cs : List Node} (hnames : (cs.map Node.segmentName).Nodup)
    (h : ¬ (depth ≠ 0 ∧ levelBound cf depth < (getOrCreate s id cs).length)) :
    BoundedAt cf depth (.set name (getOrCreate s (descend cf orders depth rest) cs)) ↔
      (∀ c ∈ cs, c.segmentName ≠ s → BoundedAt cf (depth + 1) c) ∧
        BoundedAt cf (depth + 1) (descend cf orders depth rest (lookupChild s cs)) := by
  rw [boundedAt_set, forall_mem_getOrCreate hnames, length_getOrCreate]
  refine and_iff_right fun h1 _ => ?_
  by_contra hlt
  exact h ⟨by omega, by omega⟩

/-- A merged node keeps the bound exactly if the sets of names below it fit, one by one. -/
theorem forall_boundedAt_iff_mergeFits {depth : ℕ} {s name : Bytes} {cs L : List Node}
    (hp : ∀ c ∈ cs, c.Plain) (hwf : ∀ c ∈ cs, c.WellFormed)
    (hnames : (cs.map Node.segmentName).Nodup) (hm : IsMerge (.set name cs) L) :
    (∀ c ∈ cs, c.segmentName ≠ s → BoundedAt cf (depth + 1) c) ↔
      ∀ x ≠ s, MergeFits cf (depth + 1) (under x L) := by
  constructor
  · intro hb x hx
    -- either there is a child of that name, or there is nothing below the name
    have hmx := hm.lookupChild hnames x
    rcases lookupChild_spec x cs with ⟨hmem, hname⟩ | ⟨-, hnew⟩
    · exact (boundedAt_iff_mergeFits (hp _ hmem) (hwf _ hmem) hmx (by omega)).1
        (hb _ hmem (by rwa [hname]))
    · rw [hnew] at hmx
      exact (boundedAt_iff_mergeFits (plain_createNode x) (wellFormed_createNode x) hmx
        (by omega)).1 (boundedAt_createNode x)
  · intro hf c hc hx
    exact (boundedAt_iff_mergeFits (hp c hc) (hwf c hc) (hm.child hnames hc)
      (by omega)).2 (hf _ hx)

/-- What a call does to a merged node keeps the bound exactly if it fits. -/
theorem boundedAt_addSegments_merged (hcf : 0 < cf.toInt) (segs : List Bytes) {depth : ℕ}
    {n : Node} {L : List Node} (h1 : 1 ≤ depth) (hp : n.Plain) (hn : n.WellFormed)
    (hm : IsMerge n L) :
    BoundedAt cf depth (addSegments cf orders depth segs n) ↔ MergedCallFits cf depth segs L := by
  induction segs generalizing depth n L with
  | nil => exact boundedAt_iff_mergeFits hp hn hm h1
  | cons s rest ih =>
    cases hp with
    | @set name cs hcs =>
    cases hn with
    | set hnames hwf =>
    rw [MergedCallFits, ← hm.length_getOrCreate hnames s]
    by_cases hlt : levelBound cf depth < (getOrCreate s id cs).length
    · have h : depth ≠ 0 ∧ cardinalityLimit cf depth < (getOrCreate s id cs).length :=
        ⟨by omega, by rwa [cardinalityLimit_eq_levelBound hcf]⟩
      rw [if_pos hlt, addSegments_set_of_lt h, boundedAt_squashed]
      exact boundedAt_descend fun hd => ih (by omega) (plain_squashInto _)
        (wellFormed_squashInto _) (hm.squashedChild (orders depth) s)
    · have h : ¬ (depth ≠ 0 ∧ levelBound cf depth < (getOrCreate s id cs).length) :=
        fun h => hlt h.2
      have hplain := plain_lookupChild hcs s
      have hchild := wellFormed_lookupChild hwf s
      rw [if_neg hlt, addSegments_set_of_not_lt (by rwa [cardinalityLimit_eq_levelBound hcf]),
        boundedAt_getOrCreate hnames h]
      exact and_congr (forall_boundedAt_iff_mergeFits hcs hwf hnames hm)
        (boundedAt_descend fun hd =>
          ih (by omega) hplain hchild (hm.lookupChild hnames s))

/-- One call keeps the bound exactly if whatever it merges and leaves merged is within it. -/
theorem boundedAt_addSegments_iff (hcf : 0 < cf.toInt) (segs : List Bytes) {depth : ℕ} {n : Node}
    (hn : n.WellFormed) (hb : BoundedAt cf depth n) :
    BoundedAt cf depth (addSegments cf orders depth segs n) ↔ CallFits cf depth segs n := by
  induction segs generalizing depth n with
  | nil => exact iff_of_true hb trivial
  | cons s rest ih =>
    cases hn with
    | squashed hname hwf =>
      rw [addSegments_squashed, boundedAt_squashed, CallFits]
      exact boundedAt_descend fun _ => ih hwf (boundedAt_squashed.1 hb)
    | @set name cs hnames hwf =>
      have hbelow := (boundedAt_set.1 hb).2
      rw [CallFits]
      by_cases h : depth ≠ 0 ∧ levelBound cf depth < (getOrCreate s id cs).length
      · rw [if_pos h, addSegments_set_of_lt (by rwa [cardinalityLimit_eq_levelBound hcf]),
          boundedAt_squashed]
        exact boundedAt_descend fun hd => boundedAt_addSegments_merged hcf rest (by omega)
          (plain_squashInto _) (wellFormed_squashInto _)
          (isMerge_squashedChild (orders depth) name s cs)
      · have hchild := wellFormed_lookupChild hwf s
        have hbound := forall_lookupChild hbelow (boundedAt_createNode s)
        rw [if_neg h, addSegments_set_of_not_lt (by rwa [cardinalityLimit_eq_levelBound hcf]),
          boundedAt_getOrCreate hnames h, and_iff_right fun c hc _ => hbelow c hc]
        exact boundedAt_descend fun _ => ih hchild hbound

end OneCall

/-! ### Runs -/

/-- The factor of a squasher never changes. -/
theorem cardinalityFactor_of_run {cf : Int32} {tr : List (Event PathSquasher Call)}
    {ps : PathSquasher} (h : Run addPathStep (tmPathSquasherAlloc cf) tr ps) :
    (∀ e ∈ tr, e.before.cardinalityFactor = cf ∧ e.after.cardinalityFactor = cf) ∧
      ps.cardinalityFactor = cf := by
  refine h.invariant (fun ps => ps.cardinalityFactor = cf) rfl ?_
  rintro u a _ hu rfl
  exact hu

/-- **The cardinality bound over runs.**  After every call of a run each child set at depth `1`
to `4` is within the bound of its depth exactly if no call leaves a merged set beyond it. -/
theorem bounded_iff_callFits {cf : Int32} (hcf : 0 < cf.toInt)
    {tr : List (Event PathSquasher Call)} {ps : PathSquasher}
    (h : Run addPathStep (tmPathSquasherAlloc cf) tr ps) :
    (∀ e ∈ tr, Bounded cf e.after.rootNode) ↔
      ∀ e ∈ tr, CallFits cf 0 (segments e.label.urlPath) e.before.rootNode := by
  have hfactor := (cardinalityFactor_of_run h).1
  have hiff := h.forall_iff (fun u => u.cardinalityFactor = cf ∧ Bounded cf u.rootNode)
    (fun u call => CallFits cf 0 (segments call.urlPath) u.rootNode)
    ⟨rfl, boundedAt_createNode _⟩ (by
      rintro u call _ ⟨hu, hb⟩ rfl
      subst hu
      exact (and_iff_right rfl).trans (boundedAt_addSegments_iff hcf _ u.wellFormed hb))
  rw [← hiff]
  exact forall₂_congr fun e he => (and_iff_right (hfactor e he).2).symm

theorem nextNames_nil (q : List Bytes) : nextNames [] q = [] := by
  induction q with
  | nil => rfl
  | cons x q ih => exact ih

/-- The tree after `/a/x`. -/
def oneChild : Node := .set (cstr "<ROOT>") [.set (cstr "a") [createNode (cstr "x")]]

/-- Two children of a node with bound `1` are squashed; they have nothing below them. -/
theorem bounded_of_two_leaves :
    ∃ tr ps, Run addPathStep (tmPathSquasherAlloc 6) tr ps ∧ tr.length = 2 ∧
      ∀ e ∈ tr, Bounded 6 e.after.rootNode := by
  have h : Run addPathStep (tmPathSquasherAlloc 6) _ _ :=
    (Run.single (a := .listed "/a/x") rfl).snoc (a := .listed "/a/y") rfl
  refine ⟨_, _, h, rfl, (bounded_iff_callFits (by decide) h).2 fun e he => ?_⟩
  have hleaf : MergeFits 6 2 [createNode (cstr "x")] := by
    intro q hq
    have : nextNames [createNode (cstr "x")] q = [] := by
      cases q with
      | nil => rfl
      | cons y q => exact nextNames_nil q
    rw [this]
    exact Nat.zero_le _
  simp only [List.cons_append, List.nil_append, List.mem_cons, List.not_mem_nil, or_false] at he
  rcases he with rfl | rfl
  · show CallFits 6 0 [cstr "a", cstr "x"] (createNode (cstr "<ROOT>"))
    rw [createNode, CallFits, if_neg (by decide)]
    show 0 < 4 → CallFits 6 1 [cstr "x"] (createNode (cstr "a"))
    rw [createNode, CallFits, if_neg (by decide)]
    exact fun _ _ => trivial
  · show CallFits 6 0 [cstr "a", cstr "y"] oneChild
    rw [oneChild, CallFits, if_neg (by decide)]
    show 0 < 4 → CallFits 6 1 [cstr "y"] (.set (cstr "a") [createNode (cstr "x")])
    rw [CallFits, if_pos (by decide)]
    exact fun _ _ => hleaf

/-- Three paths with the factor `12`: the third squashes the children of `a`, and the merged
node has two children where its depth allows one. -/
theorem merged_set_exceeds_bound :
    ∃ tr ps, Run addPathStep (tmPathSquasherAlloc 12) tr ps ∧
      tr.map (fun e => e.label.urlPath) = [cstr "/a/x/1", cstr "/a/y/2", cstr "/a/z"] ∧
      ¬ Bounded 12 ps.rootNode := by
  have h : Run addPathStep (tmPathSquasherAlloc 12) _ _ :=
    ((Run.single (a := .listed "/a/x/1") rfl).snoc (a := .listed "/a/y/2") rfl).snoc
      (a := .listed "/a/z") rfl
  refine ⟨_, _, h, rfl, fun hb => ?_⟩
  have hbound : 2 ≤ levelBound 12 2 := by
    refine hb [cstr "a", squashedName] squashedName [createNode (cstr "1"), createNode (cstr "2")]
      ?_ (by decide) (by decide)
    show Walk (.set (cstr "<ROOT>") [.squashed (cstr "a")
      (.set squashedName [createNode (cstr "1"), createNode (cstr "2")])]) _ _
    exact ⟨_, List.mem_singleton_self _, rfl, _, List.mem_singleton_self _, rfl, rfl⟩
  exact absurd hbound (by decide)

end Tracemate.Squasher
