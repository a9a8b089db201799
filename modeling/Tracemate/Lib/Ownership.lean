import Mathlib.Data.Finset.Basic
import Mathlib.Data.List.Basic

/-!
# Objects that are read and released

A program reads objects and releases them; an object may not be touched again after it has been
released.

* `Touch`: a read or a release of an object;
* `touch`, `touchAll`: the objects that have been released, unless one of them is touched again;
* `touchAll_reads`, `touchAll_releases`, `touchAll_append`: rules for parts of a program;
* `ReleasedOnce`: the object is released once and not read after it;
* `releasedOnce_of_touchAll`, `not_releasedOnce`: how it is shown, and refuted.
-/

namespace Ownership

variable {ι : Type*}

/-- What is done to an object. -/
inductive Touch (ι : Type*)
  | reads (i : ι)
  | releases (i : ι)

/-- The object is released once, and neither released nor read after it. -/
def ReleasedOnce (i : ι) (touches : List (Touch ι)) : Prop :=
  ∃ before after, touches = before ++ .releases i :: after ∧ .releases i ∉ before ∧
    .releases i ∉ after ∧ .reads i ∉ after

/-- An object that is read after a release. -/
theorem not_releasedOnce {i : ι} {before after : List (Touch ι)} (h : .reads i ∈ after) :
    ¬ ReleasedOnce i (before ++ .releases i :: after) := by
  rintro ⟨before', after', heq, hbefore, hafter, hread⟩
  -- the other release is this one, or one of the two comes before the other
  rcases List.append_eq_append_iff.1 heq with ⟨mid, hmid, hrest⟩ | ⟨mid, hmid, hrest⟩
  · cases mid with
    | nil =>
      obtain ⟨-, rfl⟩ := List.cons.inj hrest
      exact hread h
    | cons t mid =>
      obtain ⟨rfl, rfl⟩ := List.cons.inj hrest
      exact hbefore (by rw [hmid]; simp)
  · cases mid with
    | nil =>
      obtain ⟨-, rfl⟩ := List.cons.inj hrest
      exact hread h
    | cons t mid =>
      obtain ⟨rfl, rfl⟩ := List.cons.inj hrest
      exact hafter (by simp)

/-! ### The released objects -/

variable [DecidableEq ι]

/-- The released objects after one touch. -/
def touch (released : Finset ι) : Touch ι → Option (Finset ι)
  | .reads i => if i ∈ released then none else some released
  | .releases i => if i ∈ released then none else some (insert i released)

/-- The released objects after some touches. -/
def touchAll : Finset ι → List (Touch ι) → Option (Finset ι)
  | released, [] => some released
  | released, t :: touches => (touch released t).bind fun released => touchAll released touches

variable {i : ι} {released next r : Finset ι} {t : Touch ι} {touches : List (Touch ι)}

/-- A touch of an object that has not been released. -/
theorem touch_eq_some (h : touch released t = some next) :
    (∃ i ∉ released, t = .reads i ∧ next = released) ∨
      ∃ i ∉ released, t = .releases i ∧ next = insert i released := by
  cases t with
  | reads i =>
    dsimp only [touch] at h
    split_ifs at h with hi
    exact .inl ⟨i, hi, rfl, (Option.some.inj h).symm⟩
  | releases i =>
    dsimp only [touch] at h
    split_ifs at h with hi
    exact .inr ⟨i, hi, rfl, (Option.some.inj h).symm⟩

theorem touchAll_append (released : Finset ι) (first second : List (Touch ι)) :
    touchAll released (first ++ second) =
      (touchAll released first).bind fun released => touchAll released second := by
  induction first generalizing released with
  | nil => rfl
  | cons t first ih =>
    rw [List.cons_append, touchAll, touchAll]
    cases touch released t with
    | none => rfl
    | some released => exact ih released

/-- Reads of objects that have not been released. -/
theorem touchAll_reads (h : ∀ t ∈ touches, ∃ i ∉ released, t = .reads i) :
    touchAll released touches = some released := by
  induction touches with
  | nil => rfl
  | cons t touches ih =>
    obtain ⟨⟨i, hi, rfl⟩, hrest⟩ := List.forall_mem_cons.1 h
    rw [touchAll, touch, if_neg hi]
    exact ih hrest

/-- Releases of different objects that have not been released. -/
theorem touchAll_releases {objects : List ι} (hnodup : objects.Nodup)
    (h : ∀ i ∈ objects, i ∉ released) :
    ∃ r, touchAll released (objects.map .releases) = some r ∧
      ∀ i, i ∈ r ↔ i ∈ released ∨ i ∈ objects := by
  induction objects generalizing released with
  | nil => exact ⟨released, rfl, fun i => by simp⟩
  | cons i objects ih =>
    obtain ⟨hi, hrest⟩ := List.forall_mem_cons.1 h
    obtain ⟨hnotMem, hnodup⟩ := List.nodup_cons.1 hnodup
    obtain ⟨r, hr, hmem⟩ := @ih (insert i released) hnodup fun k hk hk' => by
      rcases Finset.mem_insert.1 hk' with rfl | hk'
      · exact hnotMem hk
      · exact hrest k hk hk'
    refine ⟨r, ?_, fun k => ?_⟩
    · rw [List.map_cons, touchAll, touch, if_neg hi]
      exact hr
    · rw [hmem, Finset.mem_insert, List.mem_cons]
      tauto

/-- A released object is not touched again, and stays released. -/
theorem touchAll_frame (h : touchAll released touches = some r) (hi : i ∈ released) :
    .reads i ∉ touches ∧ .releases i ∉ touches ∧ i ∈ r := by
  induction touches generalizing released with
  | nil =>
    obtain rfl := Option.some.inj h
    exact ⟨List.not_mem_nil, List.not_mem_nil, hi⟩
  | cons t touches ih =>
    obtain ⟨next, hnext, hrest⟩ := Option.bind_eq_some_iff.1 h
    rcases touch_eq_some hnext with ⟨k, hk, rfl, rfl⟩ | ⟨k, hk, rfl, rfl⟩
    · obtain ⟨hreads, hreleases, hr⟩ := ih hrest hi
      have hik : i ≠ k := fun hik => hk (hik ▸ hi)
      exact ⟨by simp [hreads, hik], by simp [hreleases], hr⟩
    · obtain ⟨hreads, hreleases, hr⟩ := ih hrest (Finset.mem_insert_of_mem hi)
      have hik : i ≠ k := fun hik => hk (hik ▸ hi)
      exact ⟨by simp [hreads], by simp [hreleases, hik], hr⟩

/-- What has been released in the end is released once. -/
theorem releasedOnce_of_touchAll (h : touchAll released touches = some r) (hi : i ∉ released)
    (hr : i ∈ r) : ReleasedOnce i touches := by
  induction touches generalizing released with
  | nil =>
    obtain rfl := Option.some.inj h
    exact absurd hr hi
  | cons t touches ih =>
    obtain ⟨next, hnext, hrest⟩ := Option.bind_eq_some_iff.1 h
    have hcons : ∀ {t : Touch ι}, t ≠ .releases i → ReleasedOnce i touches →
        ReleasedOnce i (t :: touches) := by
      rintro t hne ⟨before, after, rfl, hbefore, hafter, hread⟩
      exact ⟨t :: before, after, rfl, by simp [hne.symm, hbefore], hafter, hread⟩
    rcases touch_eq_some hnext with ⟨k, hk, rfl, rfl⟩ | ⟨k, hk, rfl, rfl⟩
    · exact hcons (by simp) (ih hrest hi)
    · by_cases hik : i = k
      · -- this is the release
        subst hik
        obtain ⟨hreads, hreleases, -⟩ := touchAll_frame hrest (Finset.mem_insert_self i released)
        exact ⟨[], touches, rfl, List.not_mem_nil, hreleases, hreads⟩
      · refine hcons (by simpa using Ne.symm hik) (ih hrest ?_)
        rw [Finset.mem_insert, not_or]
        exact ⟨hik, hi⟩

end Ownership
