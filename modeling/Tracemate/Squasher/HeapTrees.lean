import Tracemate.Squasher.Cardinality
import Tracemate.Squasher.HeapNodes

/-!
# The trees in the memory

* `Placed`: a tree with the addresses of its nodes; `Placed.erase`: the tree without them;
* `Holds h par t`: the heap holds the tree `t`, whose root has the parent `par`;
* `Becomes E h h' par t t'`: `t` has become `t'`, and besides it only objects at the addresses `E`
  have been changed;
* `Becomes.trans`, `Becomes.set`, `Becomes.squashed`: rules for programs in parts, and for programs
  that change one subtree.
-/

namespace Tracemate.Squasher

open CStr HeapMemory

/-- A tree with the addresses of its nodes. -/
inductive Placed
  | set (addr : ℕ) (segmentName : Bytes) (children : List Placed)
  | squashed (addr : ℕ) (segmentName : Bytes) (squashedChild : Placed)

namespace Placed

def addr : Placed → ℕ
  | set a _ _ => a
  | squashed a _ _ => a

def segmentName : Placed → Bytes
  | set _ name _ => name
  | squashed _ name _ => name

def childNodes : Placed → List Placed
  | set _ _ cs => cs
  | squashed _ _ c => [c]

/-- The union of the node. -/
def union : Placed → NodeUnion
  | set _ _ cs => .children (cs.map addr)
  | squashed _ _ c => .squashedChild c.addr

/-- The object of the root of the tree. -/
def nodeT (par : Option ℕ) (t : Placed) : NodeT := ⟨t.segmentName, par, t.union⟩

/-- Induction over a tree. -/
theorem induct {P : Placed → Prop} (h : ∀ t : Placed, (∀ c ∈ t.childNodes, P c) → P t)
    (t : Placed) : P t :=
  @Placed.rec P (fun cs => ∀ c ∈ cs, P c)
    (fun a name cs ih => h (.set a name cs) ih)
    (fun a name c ih => h (.squashed a name c) (by simpa [childNodes] using ih))
    (by simp)
    (fun c cs hc hcs => by simpa using ⟨hc, hcs⟩) t

mutual
/-- The tree without the addresses. -/
def erase : Placed → Node
  | set _ name cs => .set name (eraseAll cs)
  | squashed _ name c => .squashed name c.erase
/-- The same for the nodes of a child set. -/
def eraseAll : List Placed → List Node
  | [] => []
  | c :: cs => c.erase :: eraseAll cs
end

mutual
/-- The addresses of the nodes. -/
def addrs : Placed → List ℕ
  | set a _ cs => a :: addrsAll cs
  | squashed a _ c => a :: c.addrs
/-- The same for the nodes of a child set. -/
def addrsAll : List Placed → List ℕ
  | [] => []
  | c :: cs => c.addrs ++ addrsAll cs
end

theorem eraseAll_eq_map (cs : List Placed) : eraseAll cs = cs.map erase := by
  induction cs with
  | nil => rw [eraseAll, List.map_nil]
  | cons c cs ih => rw [eraseAll, ih, List.map_cons]

theorem addrsAll_eq_flatMap (cs : List Placed) : addrsAll cs = cs.flatMap addrs := by
  induction cs with
  | nil => rw [addrsAll, List.flatMap_nil]
  | cons c cs ih => rw [addrsAll, ih, List.flatMap_cons]

@[simp] theorem erase_set (a : ℕ) (name : Bytes) (cs : List Placed) :
    (set a name cs).erase = .set name (cs.map erase) := by
  rw [erase, eraseAll_eq_map]

@[simp] theorem erase_squashed (a : ℕ) (name : Bytes) (c : Placed) :
    (squashed a name c).erase = .squashed name c.erase := by
  rw [erase]

theorem addrs_set (a : ℕ) (name : Bytes) (cs : List Placed) :
    (set a name cs).addrs = a :: cs.flatMap addrs := by
  rw [addrs, addrsAll_eq_flatMap]

theorem addrs_squashed (a : ℕ) (name : Bytes) (c : Placed) :
    (squashed a name c).addrs = a :: c.addrs := by
  rw [addrs]

theorem addrs_eq (t : Placed) : t.addrs = t.addr :: t.childNodes.flatMap addrs := by
  cases t with
  | set a name cs => exact addrs_set a name cs
  | squashed a name c => rw [addrs_squashed]; simp [addr, childNodes]

theorem addr_mem_addrs (t : Placed) : t.addr ∈ t.addrs := by
  rw [addrs_eq]
  exact List.mem_cons_self

theorem mem_addrs_of_child {t c : Placed} (hc : c ∈ t.childNodes) {a : ℕ} (ha : a ∈ c.addrs) :
    a ∈ t.addrs := by
  rw [addrs_eq]
  exact List.mem_cons_of_mem _ (List.mem_flatMap.2 ⟨c, hc, ha⟩)

@[simp] theorem segmentName_erase (t : Placed) : t.erase.segmentName = t.segmentName := by
  cases t with
  | set a name cs => rw [erase_set]; rfl
  | squashed a name c => rw [erase_squashed]; rfl

@[simp] theorem childNodes_erase (t : Placed) : t.erase.childNodes = t.childNodes.map erase := by
  cases t with
  | set a name cs => rw [erase_set]; rfl
  | squashed a name c => rw [erase_squashed]; rfl

end Placed

/-! ### Trees on the heap -/

/-- The heap holds the tree: every node is there, its pointers to children are those of the tree,
and so is its pointer to the parent. -/
inductive Holds (h : Heap NodeT) : Option ℕ → Placed → Prop
  | mk {par : Option ℕ} {t : Placed} : h.cell t.addr = some (t.nodeT par) →
      (∀ c ∈ t.childNodes, Holds h (some t.addr) c) → Holds h par t

variable {h h' h'' : Heap NodeT} {par : Option ℕ} {t t' t'' c c' : Placed} {E F : Set ℕ} {a : ℕ}

theorem Holds.cell (ht : Holds h par t) : h.cell t.addr = some (t.nodeT par) := by
  cases ht with
  | mk hcell _ => exact hcell

theorem Holds.child (ht : Holds h par t) (hc : c ∈ t.childNodes) : Holds h (some t.addr) c := by
  cases ht with
  | mk _ hbelow => exact hbelow c hc

/-- The nodes of a tree on the heap have been allocated. -/
theorem Holds.lt_next (ht : Holds h par t) (ha : a ∈ t.addrs) : a < h.next := by
  induction t using Placed.induct generalizing par with
  | h t ih =>
    rw [Placed.addrs_eq] at ha
    rcases List.mem_cons.1 ha with rfl | ha
    · exact Heap.lt_next ht.cell
    · obtain ⟨c, hc, ha⟩ := List.mem_flatMap.1 ha
      exact ih c hc (ht.child hc) ha

/-- A tree outside the frame is still there. -/
theorem Holds.frame (ht : Holds h par t) (hf : Heap.Frame F h h') (hF : ∀ a ∈ t.addrs, a ∉ F) :
    Holds h' par t := by
  induction t using Placed.induct generalizing par with
  | h t ih =>
    refine .mk (hf.cell ht.cell (hF _ t.addr_mem_addrs)) fun c hc => ?_
    exact ih c hc (ht.child hc) fun a ha => hF a (Placed.mem_addrs_of_child hc ha)

/-- The tree `t` has become `t'`: it is on the heap, at the same address, with old nodes of `t` and
new ones, and besides the nodes of `t` only objects at the addresses `E` have been changed. -/
structure Becomes (E : Set ℕ) (h h' : Heap NodeT) (par : Option ℕ) (t t' : Placed) : Prop where
  holds : Holds h' par t'
  addr : t'.addr = t.addr
  nodup : t'.addrs.Nodup
  addrs : ∀ a ∈ t'.addrs, a < h.next → a ∈ t.addrs
  frame : Heap.Frame ({a | a ∈ t.addrs} ∪ E) h h'

namespace Becomes

theorem refl (ht : Holds h par t) (hnodup : t.addrs.Nodup) (E : Set ℕ) : Becomes E h h par t t :=
  ⟨ht, rfl, hnodup, fun _ ha _ => ha, .refl _ h⟩

theorem trans (ht : Becomes E h h' par t t') (ht' : Becomes E h' h'' par t' t'') :
    Becomes E h h'' par t t'' where
  holds := ht'.holds
  addr := ht'.addr.trans ht.addr
  nodup := ht'.nodup
  addrs a ha hlt := ht.addrs a (ht'.addrs a ha (hlt.trans_le ht.frame.next_le)) hlt
  frame := ht.frame.trans ht'.frame fun a ha hlt => ha.imp_left fun ha => ht.addrs a ha hlt

theorem mono (ht : Becomes E h h' par t t') (hEF : ∀ a ∈ E, a ∈ F) : Becomes F h h' par t t' :=
  { ht with frame := ht.frame.mono fun a ha _ => ha.imp_right (hEF a) }

end Becomes

/-- Parts of a list of addresses that are exchanged for new ones. -/
theorem nodup_exchange {as bs bs' cs : List ℕ} (h : (as ++ (bs ++ cs)).Nodup) (hbs : bs'.Nodup)
    (hnew : ∀ x ∈ bs', x ∈ bs ∨ (x ∉ as ∧ x ∉ cs)) : (as ++ (bs' ++ cs)).Nodup := by
  rw [List.nodup_append, List.nodup_append] at h ⊢
  obtain ⟨has, ⟨-, hcs, hbc⟩, habc⟩ := h
  refine ⟨has, ⟨hbs, hcs, ?_⟩, ?_⟩
  · rintro x hx y hy rfl
    rcases hnew x hx with hb | ⟨-, hc⟩
    · exact hbc x hb x hy rfl
    · exact hc hy
  · rintro x hx y hy rfl
    rcases List.mem_append.1 hy with hy | hy
    · rcases hnew x hy with hb | ⟨ha, -⟩
      · exact habc x hx x (List.mem_append_left _ hb) rfl
      · exact ha hx
    · exact habc x hx x (List.mem_append_right _ hy) rfl

section Context

variable {name : Bytes} {before after : List Placed}

/-- One node of a child set is changed. -/
theorem Becomes.set (ht : Holds h par (.set a name (before ++ c :: after)))
    (hnodup : (Placed.set a name (before ++ c :: after)).addrs.Nodup)
    (hE : ∀ x ∈ E, x ∉ (Placed.set a name (before ++ c :: after)).addrs)
    (hc : Becomes E h h' (some a) c c') :
    Becomes E h h' par (.set a name (before ++ c :: after))
      (.set a name (before ++ c' :: after)) := by
  have haddrs : ∀ d : Placed, (Placed.set a name (before ++ d :: after)).addrs =
      (a :: before.flatMap Placed.addrs) ++ (d.addrs ++ after.flatMap Placed.addrs) := by
    intro d
    simp [Placed.addrs_set]
  have hold : ∀ x, x ∈ a :: before.flatMap Placed.addrs ∨ x ∈ after.flatMap Placed.addrs →
      x < h.next ∧ x ∉ c.addrs ∧ x ∉ E := by
    intro x hx
    have hmem : x ∈ (Placed.set a name (before ++ c :: after)).addrs := by
      rw [haddrs]
      exact hx.elim (List.mem_append_left _)
        fun hx => List.mem_append_right _ (List.mem_append_right _ hx)
    refine ⟨ht.lt_next hmem, fun hxc => ?_, fun hxE => hE x hxE hmem⟩
    rw [haddrs, List.nodup_append, List.nodup_append] at hnodup
    obtain ⟨-, ⟨-, -, hca⟩, hall⟩ := hnodup
    rcases hx with hx | hx
    · exact hall x hx x (List.mem_append_left _ hxc) rfl
    · exact hca x hxc x hx rfl
  have hframe : ∀ x, x ∈ a :: before.flatMap Placed.addrs ∨ x ∈ after.flatMap Placed.addrs →
      x ∉ ({y | y ∈ c.addrs} ∪ E : Set ℕ) := by
    rintro x hx (hxc | hxE)
    · exact (hold x hx).2.1 hxc
    · exact (hold x hx).2.2 hxE
  constructor
  · refine .mk ?_ fun d hd => ?_
    · have hnode : (Placed.set a name (before ++ c' :: after)).nodeT par =
          (Placed.set a name (before ++ c :: after)).nodeT par := by
        simp [Placed.nodeT, Placed.segmentName, Placed.union, hc.addr]
      rw [hnode]
      exact hc.frame.cell ht.cell (hframe a (.inl List.mem_cons_self))
    · have hmem : d ∈ before ∨ d = c' ∨ d ∈ after := by simpa [Placed.childNodes] using hd
      have hsib (hd : d ∈ before ∨ d ∈ after) : Holds h' (some a) d := by
        have hdh : Holds h (some a) d := ht.child (by
          rcases hd with hd | hd
          · exact List.mem_append_left _ hd
          · exact List.mem_append_right _ (List.mem_cons_of_mem _ hd))
        refine hdh.frame hc.frame fun x hx => hframe x ?_
        exact hd.imp (fun hd => List.mem_cons_of_mem _ (List.mem_flatMap.2 ⟨d, hd, hx⟩))
          fun hd => List.mem_flatMap.2 ⟨d, hd, hx⟩
      rcases hmem with hd | rfl | hd
      · exact hsib (.inl hd)
      · exact hc.holds
      · exact hsib (.inr hd)
  · rfl
  · rw [haddrs] at hnodup ⊢
    refine nodup_exchange hnodup hc.nodup fun x hx => ?_
    by_cases hlt : x < h.next
    · exact .inl (hc.addrs x hx hlt)
    · exact .inr ⟨fun hx => hlt (hold x (.inl hx)).1, fun hx => hlt (hold x (.inr hx)).1⟩
  · intro x hx hlt
    rw [haddrs] at hx ⊢
    simp only [List.mem_append] at hx ⊢
    exact hx.imp_right (Or.imp_left fun hx => hc.addrs x hx hlt)
  · refine hc.frame.mono fun x hx _ => hx.imp_left fun hx => ?_
    show x ∈ (Placed.set a name (before ++ c :: after)).addrs
    rw [haddrs]
    exact List.mem_append_right _ (List.mem_append_left _ hx)

/-- The node below a squashed one is changed. -/
theorem Becomes.squashed (ht : Holds h par (.squashed a name c))
    (hnodup : (Placed.squashed a name c).addrs.Nodup)
    (hE : ∀ x ∈ E, x ∉ (Placed.squashed a name c).addrs) (hc : Becomes E h h' (some a) c c') :
    Becomes E h h' par (.squashed a name c) (.squashed a name c') := by
  rw [Placed.addrs_squashed] at hnodup hE
  obtain ⟨hac, -⟩ := List.nodup_cons.1 hnodup
  have hlt : a < h.next := Heap.lt_next ht.cell
  have hframe : a ∉ ({x | x ∈ c.addrs} ∪ E : Set ℕ) := by
    rintro (hx | hx)
    · exact hac hx
    · exact hE a hx List.mem_cons_self
  constructor
  · refine .mk ?_ fun d hd => ?_
    · have hnode : (Placed.squashed a name c').nodeT par = (Placed.squashed a name c).nodeT par := by
        simp [Placed.nodeT, Placed.segmentName, Placed.union, hc.addr]
      rw [hnode]
      exact hc.frame.cell ht.cell hframe
    · obtain rfl : d = c' := by simpa [Placed.childNodes] using hd
      exact hc.holds
  · rfl
  · rw [Placed.addrs_squashed]
    exact List.nodup_cons.2 ⟨fun hx => hac (hc.addrs a hx hlt), hc.nodup⟩
  · intro x hx hlt
    rw [Placed.addrs_squashed] at hx ⊢
    rcases List.mem_cons.1 hx with rfl | hx
    · exact List.mem_cons_self
    · exact List.mem_cons_of_mem _ (hc.addrs x hx hlt)
  · refine hc.frame.mono fun x hx _ => hx.imp_left fun hx => ?_
    show x ∈ (Placed.squashed a name c).addrs
    rw [Placed.addrs_squashed]
    exact List.mem_cons_of_mem _ hx

end Context

end Tracemate.Squasher
