import Mathlib.Tactic

/-!
# Paths with wildcards

A path is a list of names, one of which is a wildcard.

* `Covers wild w p`: name by name, `w` has the name of `p` or the wildcard;
* `Subsumes wild A B`: every path of the set `A` is covered by one of `B`;
* `consAll x A`: the paths of `A` below the name `x`.
-/

namespace Wildcard

variable {α : Type*} {wild x : α} {u v w : List α} {A B C : Set (List α)}

/-- Name by name, `w` has the name of `p` or the wildcard. -/
def Covers (wild : α) (w p : List α) : Prop := List.Forall₂ (fun a b => a = b ∨ a = wild) w p

instance [DecidableEq α] : Decidable (Covers wild v w) := by
  unfold Covers
  infer_instance

theorem Covers.refl (w : List α) : Covers wild w w := by
  unfold Covers
  induction w with
  | nil => exact .nil
  | cons a w ih => exact .cons (.inl rfl) ih

theorem Covers.trans (h₁ : Covers wild u v) (h₂ : Covers wild v w) : Covers wild u w := by
  unfold Covers at *
  induction h₁ generalizing w with
  | nil => exact h₂
  | @cons a b u v hab _ ih =>
    cases h₂ with
    | @cons _ c _ w hbc h₂ =>
      refine .cons ?_ (ih h₂)
      rcases hab with rfl | rfl
      · exact hbc
      · exact .inr rfl

@[simp] theorem covers_nil : Covers wild w [] ↔ w = [] := by
  constructor
  · intro h
    cases h
    rfl
  · rintro rfl
    exact .nil

/-- The paths of `A` below the name `x`. -/
def consAll (x : α) (A : Set (List α)) : Set (List α) := {w | ∃ v ∈ A, w = x :: v}

theorem mem_consAll : w ∈ consAll x A ↔ ∃ v ∈ A, w = x :: v := Iff.rfl

theorem consAll_union : consAll x (A ∪ B) = consAll x A ∪ consAll x B := by
  ext w
  simp only [mem_consAll, Set.mem_union, or_and_right, exists_or]

@[simp] theorem cons_mem_consAll {y : α} : y :: v ∈ consAll x A ↔ y = x ∧ v ∈ A := by
  constructor
  · rintro ⟨u, hu, h⟩
    cases h
    exact ⟨rfl, hu⟩
  · rintro ⟨rfl, h⟩
    exact ⟨v, h, rfl⟩

/-- Every path of `A` is covered by one of `B`. -/
def Subsumes (wild : α) (A B : Set (List α)) : Prop := ∀ v ∈ A, ∃ w ∈ B, Covers wild w v

theorem Subsumes.of_subset (h : A ⊆ B) : Subsumes wild A B := fun v hv => ⟨v, h hv, .refl v⟩

theorem Subsumes.trans (h₁ : Subsumes wild A B) (h₂ : Subsumes wild B C) :
    Subsumes wild A C := by
  intro u hu
  obtain ⟨v, hv, huv⟩ := h₁ u hu
  obtain ⟨w, hw, hvw⟩ := h₂ v hv
  exact ⟨w, hw, hvw.trans huv⟩

end Wildcard
