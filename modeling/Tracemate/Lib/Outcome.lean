import Mathlib.Tactic
import Tracemate.Lib.CStr

/-!
# Outcomes of C functions

A function returns, or the process ends in it, or it leaves one of its buffers.

* `Fault`, `Outcome`: the two ways to fail, and results with them;
* `nonNull`, `fitting`: the null check of a pointer that is read, the size check of a string that
  is written;
* `Outcome.Safe P x`: `x` stays inside its buffers, and if it returns, its result satisfies `P`.
  `safe_bind_iff` and the rules below it are rules for programs;
* `Outcome.Yields P x`: if `x` returns, its result satisfies `P`, with `yields_bind`;
* `Outcome.whenOk d F x`: what `F` makes of the result, or `d`.
-/

namespace COutcome

open CStr

/-- What keeps a function from returning. -/
inductive Fault
  /-- A null pointer is read, an assertion fails, a number is divided by zero: the process ends. -/
  | crash
  /-- A buffer is left, or memory is read that was never written. -/
  | outOfBounds
  deriving DecidableEq

/-- The result of a C function. -/
abbrev Outcome (α : Type) := Except Fault α

/-- A pointer that the code reads without a check. -/
def nonNull {α : Type} : Option α → Outcome α
  | some a => .ok a
  | none => .error .crash

/-- A string that is written with its terminator to a buffer of `size` bytes. -/
def fitting (size : ℕ) (s : Bytes) : Outcome Bytes :=
  if s.length < size then .ok s else .error .outOfBounds

/-- Memory that may not have been written. -/
def written {α : Type} : Option α → Outcome α
  | some a => .ok a
  | none => .error .outOfBounds

namespace Outcome

variable {α β : Type} {P Q : α → Prop} {R : β → Prop} {x : Outcome α} {f : α → Outcome β}

/-- `x` stays inside its buffers, and its result, if there is one, satisfies `P`. -/
def Safe (P : α → Prop) : Outcome α → Prop
  | .ok a => P a
  | .error .crash => True
  | .error .outOfBounds => False

@[simp] theorem safe_ok {a : α} : Safe P (.ok a) ↔ P a := Iff.rfl

@[simp] theorem safe_pure {a : α} : Safe P (pure a) ↔ P a := Iff.rfl

@[simp] theorem safe_crash : Safe P (.error .crash) := trivial

@[simp] theorem not_safe_outOfBounds : ¬ Safe P (.error .outOfBounds) := id

instance [DecidablePred P] : DecidablePred (Safe P)
  | .ok a => inferInstanceAs (Decidable (P a))
  | .error .crash => isTrue trivial
  | .error .outOfBounds => isFalse id

theorem Safe.mono (h : Safe P x) (hPQ : ∀ a, P a → Q a) : Safe Q x := by
  cases x with
  | ok a => exact hPQ a h
  | error e =>
    cases e with
    | crash => exact trivial
    | outOfBounds => exact h

theorem safe_bind_iff : Safe R (x >>= f) ↔ Safe (fun a => Safe R (f a)) x := by
  cases x with
  | ok a => rfl
  | error e => cases e <;> rfl

theorem safe_map_iff {g : α → β} : Safe R (x.map g) ↔ Safe (fun a => R (g a)) x := by
  cases x with
  | ok a => rfl
  | error e => cases e <;> rfl

/-- The result of a program that is safe. -/
theorem Safe.of_eq_ok {a : α} (h : Safe P x) (ha : x = .ok a) : P a := by
  rw [ha] at h
  exact h

theorem safe_congr (h : ∀ a, P a ↔ Q a) : Safe P x ↔ Safe Q x :=
  ⟨fun hx => hx.mono fun a => (h a).1, fun hx => hx.mono fun a => (h a).2⟩

theorem safe_nonNull_iff {o : Option α} : Safe P (nonNull o) ↔ ∀ a, o = some a → P a := by
  cases o with
  | none => simp [nonNull]
  | some a => simp [nonNull]

theorem safe_fitting_iff {size : ℕ} {s : Bytes} {P : Bytes → Prop} :
    Safe P (fitting size s) ↔ s.length < size ∧ P s := by
  unfold fitting
  split_ifs with h
  · simp [h]
  · simp [h]

/-- The result of `x`, if there is one, satisfies `P`. -/
def Yields (P : α → Prop) (x : Outcome α) : Prop := ∀ a, x = .ok a → P a

@[simp] theorem yields_ok {a : α} : Yields P (.ok a) ↔ P a := by
  constructor
  · intro h
    exact h a rfl
  · rintro h _ ⟨rfl⟩
    exact h

@[simp] theorem yields_error {e : Fault} : Yields P (.error e) := fun _ h => by cases h

theorem bind_eq_ok {b : β} : x >>= f = .ok b ↔ ∃ a, x = .ok a ∧ f a = .ok b := by
  cases x with
  | ok a =>
    constructor
    · intro h
      exact ⟨a, rfl, h⟩
    · rintro ⟨a', ha, h⟩
      obtain rfl := Except.ok.inj ha
      exact h
  | error e =>
    constructor
    · intro h
      cases h
    · rintro ⟨_, h, _⟩
      cases h

/-- That there is a result can be computed. -/
theorem exists_ok_of_isSome (h : x.toOption.isSome = true) : ∃ a, x = .ok a := by
  cases x with
  | ok a => exact ⟨a, rfl⟩
  | error e => cases h

/-- A step that returns, and then the rest. -/
theorem exists_bind (hx : ∃ a, x = .ok a) (hf : ∀ a, ∃ b, f a = .ok b) :
    ∃ b, x >>= f = .ok b := by
  obtain ⟨a, ha⟩ := hx
  obtain ⟨b, hb⟩ := hf a
  exact ⟨b, bind_eq_ok.2 ⟨a, ha, hb⟩⟩

/-- The rule for one step, whose result may be any, and the rest. -/
theorem yields_bind (h : ∀ a, x = .ok a → Yields R (f a)) : Yields R (x >>= f) := by
  intro b hb
  obtain ⟨a, ha, hfb⟩ := bind_eq_ok.1 hb
  exact h a ha b hfb

theorem nonNull_eq_ok {o : Option α} {a : α} : nonNull o = .ok a ↔ o = some a := by
  cases o with
  | none => simp [nonNull]
  | some b => simp [nonNull]

theorem fitting_eq_ok {size : ℕ} {s t : Bytes} :
    fitting size s = .ok t ↔ s.length < size ∧ s = t := by
  unfold fitting
  split_ifs with h
  · simp [h]
  · simp [h]

/-- What `F` makes of the result, if there is one. -/
def whenOk {γ : Type} (d : γ) (F : α → γ) : Outcome α → γ
  | .ok a => F a
  | .error _ => d

@[simp] theorem whenOk_ok {γ : Type} {d : γ} {F : α → γ} {a : α} : whenOk d F (.ok a) = F a := rfl

@[simp] theorem whenOk_error {γ : Type} {d : γ} {F : α → γ} {e : Fault} :
    whenOk d F (.error e) = d := rfl

theorem whenOk_bind {γ : Type} {d : γ} {F : β → γ} :
    whenOk d F (x >>= f) = whenOk d (fun a => whenOk d F (f a)) x := by
  cases x <;> rfl

/-- Two programs whose steps agree up to `f` agree up to `g`. -/
theorem map_bind_congr {γ δ : Type} {x x' : Outcome α} {k k' : α → Outcome β} {f : α → γ}
    {g : β → δ} (hx : x.map f = x'.map f)
    (hk : ∀ a a', f a = f a' → (k a).map g = (k' a').map g) :
    (x >>= k).map g = (x' >>= k').map g := by
  cases x with
  | error e =>
    cases x' with
    | error e' =>
      obtain rfl := Except.error.inj hx
      rfl
    | ok a' => cases hx
  | ok a =>
    cases x' with
    | error e' => cases hx
    | ok a' => exact hk a a' (Except.ok.inj hx)

/-- A first step that is the same. -/
theorem map_bind_congr_left {δ : Type} {k k' : α → Outcome β} {g : β → δ}
    (hk : ∀ a, (k a).map g = (k' a).map g) : (x >>= k).map g = (x >>= k').map g := by
  cases x with
  | error e => rfl
  | ok a => exact hk a

end Outcome

end COutcome
