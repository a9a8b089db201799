import Tracemate.Squasher.Cardinality

/-!
# What becomes of a squash when an enclosing level is squashed

`squash_children` hands everything below the old children to `recurse_add_children`, which puts
a node `{...}` back as an ordinary child of its new parent: the flag of the old parent is lost.

* `SquashesKept`: every node `{...}` below a root is the child of a squashed node;
* `SquashFree L`: no path below the nodes `L` goes through a node `{...}`;
* `CallKeeps`: what a call merges, and does not squash again on its way, is free of squashes;
* `squashesKept_addSegments_iff`: one call keeps the squashes exactly under that condition;
* `squashesKept_iff_callKeeps`: the same over runs.
-/

namespace Tracemate.Squasher

open CStr Runs

/-! ### The property -/

/-- Every node below `root` that is named `{...}` is the child of a node whose children are
squashed, and then its only one. -/
def SquashesKept (root : Node) : Prop :=
  ∀ w n, Walk root w n → ∀ c ∈ n.childNodes, c.segmentName = squashedName →
    n.childrenSquashed = true

theorem squashesKept_squashed {name : Bytes} {c : Node} :
    SquashesKept (.squashed name c) ↔ SquashesKept c := by
  constructor
  · intro h w n hw
    exact h (c.segmentName :: w) n ⟨c, List.mem_singleton_self c, rfl, hw⟩
  · intro h w n hw d hd hs
    cases w with
    | nil =>
      obtain rfl : n = .squashed name c := hw
      rfl
    | cons x w =>
      obtain ⟨c', hc', -, hw⟩ := hw
      obtain rfl : c' = c := by simpa using hc'
      exact h w n hw d hd hs

theorem squashesKept_set {name : Bytes} {cs : List Node} :
    SquashesKept (.set name cs) ↔
      squashedName ∉ cs.map Node.segmentName ∧ ∀ c ∈ cs, SquashesKept c := by
  constructor
  · intro h
    refine ⟨fun hmem => ?_, fun c hc w n hw => h (c.segmentName :: w) n ⟨c, hc, rfl, hw⟩⟩
    obtain ⟨c, hc, hs⟩ := List.mem_map.1 hmem
    exact Bool.noConfusion (h [] _ rfl c hc hs)
  · rintro ⟨hnames, hbelow⟩ w n hw d hd hs
    cases w with
    | nil =>
      obtain rfl : n = .set name cs := hw
      exact absurd (hs ▸ List.mem_map_of_mem hd) hnames
    | cons x w =>
      obtain ⟨c, hc, -, hw⟩ := hw
      exact hbelow c hc w n hw d hd hs

theorem squashesKept_createNode (name : Bytes) : SquashesKept (createNode name) :=
  squashesKept_set.2 ⟨by simp, by simp⟩

/-! ### Squashes among merged siblings -/

/-- No path below the nodes `L` goes through a node `{...}`. -/
def SquashFree (L : List Node) : Prop := ∀ l ∈ L, ∀ w ∈ l.paths, squashedName ∉ w

theorem squashFree_of_plain {L : List Node} (hk : ∀ l ∈ L, SquashesKept l)
    (hp : ∀ l ∈ L, l.Plain) : SquashFree L := by
  rintro l hl w ⟨m, hw⟩ hmem
  obtain ⟨u, v, rfl⟩ := List.append_of_mem hmem
  obtain ⟨n, hn, c, hc, hs, -⟩ := walk_append.1 hw
  obtain @⟨name, cs, -⟩ := (hp l hl).of_walk hn
  exact Bool.noConfusion (hk l hl u _ hn c hc hs)

/-- A merged node has no flag left: it keeps the squashes exactly if there was none. -/
theorem squashesKept_iff_squashFree {n : Node} {L : List Node} (hp : n.Plain)
    (hm : IsMerge n L) : SquashesKept n ↔ SquashFree L := by
  constructor
  · intro h l hl w hw
    have hn : w ∈ n.paths := (hm w).2 (.inr ⟨l, hl, hw⟩)
    exact squashFree_of_plain (L := [n]) (by simpa using h) (by simpa using hp) n
      (List.mem_singleton_self n) w hn
  · intro h w m hw c hc hs
    have hn : w ++ [squashedName] ∈ n.paths := ⟨c, walk_append.2 ⟨m, hw, c, hc, hs, rfl⟩⟩
    obtain ⟨l, hl, hw⟩ := ((hm _).1 hn).resolve_left (by simp)
    exact absurd (List.mem_append_right w (List.mem_singleton_self _)) (h l hl _ hw)

/-! ### Which calls keep the squashes -/

/-- What a call that has squashed the parents of the nodes `L` leaves merged is free of
squashes.  Where the call walks through a merged set that is too large, it squashes it in turn,
and the nodes `{...}` of that set do not matter. -/
def MergedCallKeeps (cf : Int32) : ℕ → List Bytes → List Node → Prop
  | _, [], L => SquashFree L
  | depth, segment :: rest, L =>
    if cardinalityLimit cf depth < (namesWith segment L).length then
      if depth < 4 then MergedCallKeeps cf (depth + 1) rest (levelBelow L)
      else SquashFree (levelBelow L)
    else
      squashedName ∉ nextNames L [] ∧ (∀ x ≠ segment, SquashFree (under x L)) ∧
        if depth < 4 then MergedCallKeeps cf (depth + 1) rest (under segment L)
        else SquashFree (under segment L)

/-- The siblings that the call with these segments merges are free of squashes, but for those
that it squashes in turn. -/
def CallKeeps (cf : Int32) : ℕ → List Bytes → Node → Prop
  | _, [], _ => True
  | depth, _ :: rest, .squashed _ child => depth < 4 → CallKeeps cf (depth + 1) rest child
  | depth, segment :: rest, .set _ children =>
    if depth ≠ 0 ∧ cardinalityLimit cf depth < (getOrCreate segment id children).length then
      if depth < 4 then MergedCallKeeps cf (depth + 1) rest children else SquashFree children
    else depth < 4 → CallKeeps cf (depth + 1) rest (lookupChild segment children)

/-! ### One call -/

section OneCall

variable {cf : Int32} {orders : ℕ → IterOrder}

/-- The squashes after a call that leaves a child set unsquashed: those below the children it
does not move to, and those below the one it moves to. -/
theorem squashesKept_getOrCreate {k : Node → Node} (hk : KeepsName k) {s name : Bytes}
    {cs : List Node} (hs : s ≠ squashedName) (hnames : (cs.map Node.segmentName).Nodup) :
    SquashesKept (.set name (getOrCreate s k cs)) ↔
      squashedName ∉ cs.map Node.segmentName ∧
        (∀ c ∈ cs, c.segmentName ≠ s → SquashesKept c) ∧
          SquashesKept (k (lookupChild s cs)) := by
  rw [squashesKept_set, forall_mem_getOrCreate hnames, map_segmentName_getOrCreate hk]
  refine and_congr_left fun _ => ?_
  split_ifs
  · rfl
  · simp [Ne.symm hs]

/-- The children of a merged node that the call does not move to. -/
theorem forall_squashesKept_iff_squashFree {s name : Bytes} {cs L : List Node}
    (hp : ∀ c ∈ cs, c.Plain) (hnames : (cs.map Node.segmentName).Nodup)
    (hm : IsMerge (.set name cs) L) :
    (∀ c ∈ cs, c.segmentName ≠ s → SquashesKept c) ↔ ∀ x ≠ s, SquashFree (under x L) := by
  constructor
  · intro hkept x hx
    have hmx := hm.lookupChild hnames x
    rcases lookupChild_spec x cs with ⟨hmem, hname⟩ | ⟨-, hnew⟩
    · exact (squashesKept_iff_squashFree (hp _ hmem) hmx).1 (hkept _ hmem (by rwa [hname]))
    · rw [hnew] at hmx
      exact (squashesKept_iff_squashFree (plain_createNode x) hmx).1 (squashesKept_createNode x)
  · intro hfree c hc hx
    exact (squashesKept_iff_squashFree (hp c hc) (hm.child hnames hc)).2 (hfree _ hx)

/-- What a call does to a merged node keeps the squashes exactly under the condition. -/
theorem squashesKept_addSegments_merged {segs : List Bytes} (hsegs : squashedName ∉ segs)
    {depth : ℕ} {n : Node} {L : List Node} (h1 : 1 ≤ depth) (h4 : depth ≤ 4) (hp : n.Plain)
    (hn : n.WellFormed) (hm : IsMerge n L) :
    SquashesKept (addSegments cf orders depth segs n) ↔ MergedCallKeeps cf depth segs L := by
  induction segs generalizing depth n L with
  | nil => exact squashesKept_iff_squashFree hp hm
  | cons s rest ih =>
    obtain ⟨hs, hrest⟩ := not_or.1 (mt List.mem_cons.2 hsegs)
    cases hp with
    | @set name cs hcs =>
    cases hn with
    | set hnames hwf =>
    -- the rest of the call, on the node it moves to
    have hdescend : ∀ {m : Node} {K : List Node}, m.Plain → m.WellFormed → IsMerge m K →
        (SquashesKept (descend cf orders depth rest m) ↔
          if depth < 4 then MergedCallKeeps cf (depth + 1) rest K else SquashFree K) := by
      intro m K hpm hnm hmm
      unfold descend
      split_ifs with h5 hlt hlt
      · omega
      · exact squashesKept_iff_squashFree hpm hmm
      · exact ih hrest (by omega) (by omega) hpm hnm hmm
      · omega
    rw [MergedCallKeeps, ← hm.length_getOrCreate hnames s]
    by_cases hlt : cardinalityLimit cf depth < (getOrCreate s id cs).length
    · rw [if_pos hlt, addSegments_set_of_lt ⟨by omega, hlt⟩, squashesKept_squashed]
      exact hdescend (plain_squashInto _) (wellFormed_squashInto _)
        (hm.squashedChild (orders depth) s)
    · have hplain := plain_lookupChild hcs s
      have hchild := wellFormed_lookupChild hwf s
      rw [if_neg hlt, addSegments_set_of_not_lt fun h => hlt h.2,
        squashesKept_getOrCreate (keepsName_descend _ _ _ _) (Ne.symm hs) hnames, hm.mem_names_iff,
        forall_squashesKept_iff_squashFree hcs hnames hm,
        hdescend hplain hchild (hm.lookupChild hnames s)]

/-- One call keeps the squashes exactly under the condition. -/
theorem squashesKept_addSegments_iff {segs : List Bytes} (hsegs : squashedName ∉ segs)
    {depth : ℕ} {n : Node} (h4 : depth ≤ 4) (hn : n.WellFormed) (hk : SquashesKept n) :
    SquashesKept (addSegments cf orders depth segs n) ↔ CallKeeps cf depth segs n := by
  induction segs generalizing depth n with
  | nil => exact iff_of_true hk trivial
  | cons s rest ih =>
    obtain ⟨hs, hrest⟩ := not_or.1 (mt List.mem_cons.2 hsegs)
    have hdescend : ∀ {m : Node}, m.WellFormed → SquashesKept m →
        (SquashesKept (descend cf orders depth rest m) ↔
          (depth < 4 → CallKeeps cf (depth + 1) rest m)) := by
      intro m hm hkm
      unfold descend
      split_ifs with h5
      · exact iff_of_true hkm fun h => by omega
      · rw [ih hrest (by omega) hm hkm]
        exact (imp_iff_right (show depth < 4 by omega)).symm
    cases hn with
    | squashed hc hwf =>
      rw [addSegments_squashed, squashesKept_squashed, CallKeeps]
      exact hdescend hwf (squashesKept_squashed.1 hk)
    | @set name cs hnames hwf =>
      obtain ⟨hfree, hkept⟩ := squashesKept_set.1 hk
      rw [CallKeeps]
      by_cases h : depth ≠ 0 ∧ cardinalityLimit cf depth < (getOrCreate s id cs).length
      · rw [if_pos h, addSegments_set_of_lt h, squashesKept_squashed]
        have hm := isMerge_squashedChild (orders depth) name s cs
        unfold descend
        split_ifs with h5 hlt hlt
        · omega
        · exact squashesKept_iff_squashFree (plain_squashInto _) hm
        · exact squashesKept_addSegments_merged hrest (by omega) (by omega) (plain_squashInto _)
            (wellFormed_squashInto _) hm
        · omega
      · have hchild := wellFormed_lookupChild hwf s
        have hkeeps := forall_lookupChild hkept (squashesKept_createNode s)
        rw [if_neg h, addSegments_set_of_not_lt h,
          squashesKept_getOrCreate (keepsName_descend _ _ _ _) (Ne.symm hs) hnames,
          and_iff_right hfree, and_iff_right fun c hc _ => hkept c hc]
        exact hdescend hchild hkeeps

end OneCall

/-! ### Runs -/

/-- **Squashes over runs.**  With no segment that is literally `{...}`, every node `{...}` is
the child of a squashed node after every call of a run exactly if no call merges, and leaves
merged, siblings with a squash below them. -/
theorem squashesKept_iff_callKeeps {cf : Int32} {tr : List (Event PathSquasher Call)}
    {ps : PathSquasher} (h : Run addPathStep (tmPathSquasherAlloc cf) tr ps)
    (hsegs : ∀ e ∈ tr, squashedName ∉ segments e.label.urlPath) :
    (∀ e ∈ tr, SquashesKept e.after.rootNode) ↔
      ∀ e ∈ tr, CallKeeps cf 0 (segments e.label.urlPath) e.before.rootNode := by
  have hfactor := (cardinalityFactor_of_run h).1
  have hrun : Run (fun u call v => squashedName ∉ segments call.urlPath ∧ addPathStep u call v)
      (tmPathSquasherAlloc cf) tr ps :=
    h.restrict fun e he => ⟨hsegs e he, h.step_of_mem e he⟩
  have hiff := hrun.forall_iff (fun u => u.cardinalityFactor = cf ∧ SquashesKept u.rootNode)
    (fun u call => CallKeeps cf 0 (segments call.urlPath) u.rootNode)
    ⟨rfl, squashesKept_createNode _⟩ (by
      rintro u call _ ⟨hu, hk⟩ ⟨hsegs, rfl⟩
      subst hu
      exact (and_iff_right rfl).trans
        (squashesKept_addSegments_iff hsegs (by omega) u.wellFormed hk))
  rw [← hiff]
  exact forall₂_congr fun e he => (and_iff_right (hfactor e he).2).symm

/-- Two leaves are merged; there is no squash below them. -/
theorem squashesKept_of_two_leaves :
    ∃ tr ps, Run addPathStep (tmPathSquasherAlloc 6) tr ps ∧ tr.length = 2 ∧
      ∀ e ∈ tr, SquashesKept e.after.rootNode := by
  have h : Run addPathStep (tmPathSquasherAlloc 6) _ _ :=
    (Run.single (a := .listed "/a/x") rfl).snoc (a := .listed "/a/y") rfl
  refine ⟨_, _, h, rfl, (squashesKept_iff_callKeeps h (by decide)).2 fun e he => ?_⟩
  simp only [List.cons_append, List.nil_append, List.mem_cons, List.not_mem_nil, or_false] at he
  rcases he with rfl | rfl
  · show CallKeeps 6 0 [cstr "a", cstr "x"] (createNode (cstr "<ROOT>"))
    rw [createNode, CallKeeps, if_neg (by decide)]
    show 0 < 4 → CallKeeps 6 1 [cstr "x"] (createNode (cstr "a"))
    rw [createNode, CallKeeps, if_neg (by decide)]
    exact fun _ _ => trivial
  · show CallKeeps 6 0 [cstr "a", cstr "y"] oneChild
    rw [oneChild, CallKeeps, if_neg (by decide)]
    show 0 < 4 → CallKeeps 6 1 [cstr "y"] (.set (cstr "a") [createNode (cstr "x")])
    rw [CallKeeps, if_pos (by decide)]
    exact fun _ => squashFree_of_plain (by simpa using squashesKept_createNode _)
      (by simpa using plain_createNode _)

/-- Two paths with the factor `6`: the first squashes the children of `x`, the second those of
`a`, and the old `{...}` below `x` is now an ordinary child of the new one. -/
theorem inner_squash_undone :
    ∃ tr ps, Run addPathStep (tmPathSquasherAlloc 6) tr ps ∧
      tr.map (fun e => e.label.urlPath) = [cstr "/a/x/1", cstr "/a/y"] ∧
      (∀ e ∈ tr, squashedName ∉ segments e.label.urlPath) ∧ ¬ SquashesKept ps.rootNode := by
  have h : Run addPathStep (tmPathSquasherAlloc 6) _ _ :=
    (Run.single (a := .listed "/a/x/1") rfl).snoc (a := .listed "/a/y") rfl
  refine ⟨_, _, h, rfl, by decide, fun hk => ?_⟩
  have hflag : (Node.set squashedName [createNode squashedName]).childrenSquashed = true := by
    refine hk [cstr "a", squashedName] _ ?_ _ (List.mem_singleton_self _) rfl
    show Walk (.set (cstr "<ROOT>") [.squashed (cstr "a")
      (.set squashedName [createNode squashedName])]) _ _
    exact ⟨_, List.mem_singleton_self _, rfl, _, List.mem_singleton_self _, rfl, rfl⟩
  exact Bool.noConfusion hflag

end Tracemate.Squasher
