import Mathlib.Data.List.Basic

/-!
# Programs that talk to a server

A program asks, one request after the other, and goes on with the answers; it may fail.  The
answers may depend on everything that was asked before.

* `Exchange`, `Server`, `Talk`: a request with its answer, what answers, and programs; `ask`;
* `ask_eq_ok`, `pure_eq_ok`, `lift_eq_ok`, `bind_eq_ok`: what one construct returns and asks;
* `collect f as`: the lists that `f` returns, one after the other; `Preserves Inv x`: an invariant
  of what has been collected and asked, with `preserves_collect`.
-/

namespace Dialogue

/-- A request and the answer, if there was one. -/
structure Exchange (ρ σ : Type) where
  request : ρ
  response : Option σ

/-- What is answered after a number of exchanges. -/
abbrev Server (ρ σ : Type) := List (Exchange ρ σ) → ρ → Option σ

/-- A program that may ask and may fail. -/
abbrev Talk (ρ σ φ α : Type) := StateT (List (Exchange ρ σ)) (Except φ) α

variable {ρ σ φ α β : Type} {server : Server ρ σ} {request : ρ} {x : Talk ρ σ φ α}
  {f : α → Talk ρ σ φ β} {history history' : List (Exchange ρ σ)}

/-- One request. -/
def ask (server : Server ρ σ) (request : ρ) : Talk ρ σ φ (Option σ) := fun history =>
  .ok (server history request, history ++ [⟨request, server history request⟩])

theorem ask_eq_ok {response : Option σ} :
    (ask server request : Talk ρ σ φ _) history = .ok (response, history') ↔
      server history request = response ∧ history' = history ++ [⟨request, response⟩] := by
  constructor
  · intro h
    obtain ⟨rfl, rfl⟩ := Prod.mk.inj (Except.ok.inj h)
    exact ⟨rfl, rfl⟩
  · rintro ⟨rfl, rfl⟩
    rfl

theorem pure_eq_ok {a b : α} :
    (pure a : Talk ρ σ φ α) history = .ok (b, history') ↔ b = a ∧ history' = history := by
  constructor
  · intro h
    obtain ⟨rfl, rfl⟩ := Prod.mk.inj (Except.ok.inj h)
    exact ⟨rfl, rfl⟩
  · rintro ⟨rfl, rfl⟩
    rfl

/-- A step that asks nothing. -/
theorem lift_eq_ok {y : Except φ α} {a : α} :
    (liftM y : Talk ρ σ φ α) history = .ok (a, history') ↔ y = .ok a ∧ history' = history := by
  cases y with
  | error e =>
    constructor
    · intro h
      cases h
    · rintro ⟨h, -⟩
      cases h
  | ok b =>
    constructor
    · intro h
      obtain ⟨rfl, rfl⟩ := Prod.mk.inj (Except.ok.inj h)
      exact ⟨rfl, rfl⟩
    · rintro ⟨h, rfl⟩
      obtain rfl := Except.ok.inj h
      rfl

/-- One step, and then the rest. -/
theorem bind_eq_ok {b : β} :
    (x >>= f) history = .ok (b, history') ↔
      ∃ a between, x history = .ok (a, between) ∧ f a between = .ok (b, history') := by
  change (x history >>= fun r => f r.1 r.2) = _ ↔ _
  cases hx : x history with
  | error e =>
    constructor
    · intro h
      cases h
    · rintro ⟨a, between, h, -⟩
      cases h
  | ok r =>
    constructor
    · intro h
      exact ⟨r.1, r.2, rfl, h⟩
    · rintro ⟨a, between, h, hf⟩
      obtain rfl := Except.ok.inj h
      exact hf

/-! ### Loops that collect -/

/-- The results of `f`, one after the other. -/
def collect (f : α → Talk ρ σ φ (List β)) : List α → Talk ρ σ φ (List β)
  | [] => pure []
  | a :: as => do
    let results ← f a
    let rest ← collect f as
    pure (results ++ rest)

/-- The invariant, of all results so far and of what was asked, is kept by `x`. -/
def Preserves (Inv : List β → List (Exchange ρ σ) → Prop) (x : Talk ρ σ φ (List β)) : Prop :=
  ∀ collected history results history', Inv collected history →
    x history = .ok (results, history') → Inv (collected ++ results) history'

variable {Inv : List β → List (Exchange ρ σ) → Prop} {g : α → Talk ρ σ φ (List β)}

theorem preserves_nothing : Preserves Inv (pure [] : Talk ρ σ φ (List β)) := by
  intro collected history results history' hinv h
  obtain ⟨rfl, rfl⟩ := pure_eq_ok.1 h
  rw [List.append_nil]
  exact hinv

/-- What each call keeps, the loop keeps. -/
theorem preserves_collect {as : List α} (h : ∀ a ∈ as, Preserves Inv (g a)) :
    Preserves Inv (collect g as) := by
  induction as with
  | nil => exact preserves_nothing
  | cons a as ih =>
    obtain ⟨hhead, htail⟩ := List.forall_mem_cons.1 h
    intro collected history results history' hinv hcollect
    obtain ⟨first, between, hfirst, hrest⟩ := bind_eq_ok.1 hcollect
    obtain ⟨rest, between', hrest, hpure⟩ := bind_eq_ok.1 hrest
    obtain ⟨rfl, rfl⟩ := pure_eq_ok.1 hpure
    rw [← List.append_assoc]
    exact ih htail _ _ _ _ (hhead _ _ _ _ hinv hfirst) hrest

end Dialogue
