import Mathlib.Tactic

/-!
# Heaps

Objects that are allocated, read, written and freed.  The address of a freed object is not given
out again, so a pointer to it stays a pointer to nothing.

* `Heap`: the live objects by their addresses; `alloc`, `modify`, `erase`, and their fallible
  forms `store` and `free` for pointers that may dangle;
* `Frame F h h'`: between `h` and `h'` nothing but the objects at the addresses `F` has changed,
  with `Frame.trans` for programs in parts.
-/

namespace HeapMemory

/-- A heap: the addresses from `next` on have not been given out. -/
structure Heap (α : Type*) where
  next : ℕ
  cell : ℕ → Option α
  fresh : ∀ a, next ≤ a → cell a = none

namespace Heap

variable {α : Type*}

/-- The heap without objects. -/
def empty : Heap α := ⟨0, fun _ => none, fun _ _ => rfl⟩

/-- `malloc` and the initialisation of the object: its address, and the heap with it. -/
def alloc (h : Heap α) (x : α) : ℕ × Heap α :=
  (h.next,
    { next := h.next + 1
      cell := Function.update h.cell h.next (some x)
      fresh := fun a ha => by
        rw [Function.update_of_ne (by omega)]
        exact h.fresh a (by omega) })

/-- A write to an object. -/
def modify (h : Heap α) (a : ℕ) (f : α → α) : Heap α where
  next := h.next
  cell := Function.update h.cell a ((h.cell a).map f)
  fresh b hb := by
    by_cases hba : b = a
    · subst hba
      simp [h.fresh b hb]
    · rw [Function.update_of_ne hba]
      exact h.fresh b hb

/-- The heap without an object. -/
def erase (h : Heap α) (a : ℕ) : Heap α where
  next := h.next
  cell := Function.update h.cell a none
  fresh b hb := by
    by_cases hba : b = a
    · subst hba
      simp
    · rw [Function.update_of_ne hba]
      exact h.fresh b hb

/-- A write through a pointer, which must not dangle. -/
def store (h : Heap α) (a : ℕ) (f : α → α) : Option (Heap α) :=
  if (h.cell a).isSome then some (h.modify a f) else none

/-- `free` of a pointer, which must not dangle. -/
def free (h : Heap α) (a : ℕ) : Option (Heap α) :=
  if (h.cell a).isSome then some (h.erase a) else none

variable {h h' h'' : Heap α} {a b : ℕ} {x : α} {f : α → α} {F G : Set ℕ}

/-- The address of an object has been given out. -/
theorem lt_next (hx : h.cell a = some x) : a < h.next := by
  by_contra hge
  rw [h.fresh a (by omega)] at hx
  cases hx

theorem cell_alloc_self (h : Heap α) (x : α) : (h.alloc x).2.cell h.next = some x :=
  Function.update_self ..

theorem cell_modify_self (hx : h.cell a = some x) : (h.modify a f).cell a = some (f x) := by
  show Function.update h.cell a ((h.cell a).map f) a = _
  rw [Function.update_self, hx, Option.map_some]

theorem cell_modify_ne (hb : b ≠ a) : (h.modify a f).cell b = h.cell b :=
  Function.update_of_ne hb ..

theorem store_eq (hx : h.cell a = some x) : h.store a f = some (h.modify a f) :=
  if_pos (by rw [hx]; rfl)

theorem free_eq (hx : h.cell a = some x) : h.free a = some (h.erase a) :=
  if_pos (by rw [hx]; rfl)

/-! ### Frames -/

/-- Nothing but the objects at the addresses `F` has changed; others may have been allocated. -/
structure Frame (F : Set ℕ) (h h' : Heap α) : Prop where
  next_le : h.next ≤ h'.next
  cell_eq : ∀ a < h.next, a ∉ F → h'.cell a = h.cell a

namespace Frame

theorem refl (F : Set ℕ) (h : Heap α) : Frame F h h := ⟨le_rfl, fun _ _ _ => rfl⟩

theorem mono (hf : Frame F h h') (hFG : ∀ a ∈ F, a < h.next → a ∈ G) : Frame G h h' where
  next_le := hf.next_le
  cell_eq a ha hG := hf.cell_eq a ha fun hF => hG (hFG a hF ha)

/-- What the second part changes may have been allocated by the first one. -/
theorem trans (hf : Frame F h h') (hg : Frame G h' h'') (hG : ∀ a ∈ G, a < h.next → a ∈ F) :
    Frame F h h'' where
  next_le := hf.next_le.trans hg.next_le
  cell_eq a ha hF := by
    rw [hg.cell_eq a (ha.trans_le hf.next_le) fun h => hF (hG a h ha), hf.cell_eq a ha hF]

/-- An object outside the frame is still there. -/
theorem cell (hf : Frame F h h') (hx : h.cell a = some x) (ha : a ∉ F) : h'.cell a = some x := by
  rw [hf.cell_eq a (lt_next hx) ha, hx]

theorem alloc (F : Set ℕ) (h : Heap α) (x : α) : Frame F h (h.alloc x).2 where
  next_le := Nat.le_succ _
  cell_eq a ha _ := Function.update_of_ne (by omega) ..

theorem modify (ha : a ∈ F) (h : Heap α) (f : α → α) : Frame F h (h.modify a f) where
  next_le := le_rfl
  cell_eq b _ hb := Function.update_of_ne (by rintro rfl; exact hb ha) ..

theorem erase (ha : a ∈ F) (h : Heap α) : Frame F h (h.erase a) where
  next_le := le_rfl
  cell_eq b _ hb := Function.update_of_ne (by rintro rfl; exact hb ha) ..

end Frame

end Heap

end HeapMemory
