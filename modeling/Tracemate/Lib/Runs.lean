import Mathlib.Data.List.Basic

/-!
# Runs of a labelled transition system

A system is a relation `step : σ → α → σ → Prop`: from a state, a label (an operation with the
answers of its environment) leads to a state.  A run keeps the list of its events.

* `Run.invariant`: what holds at the start and is kept by every step holds at the end;
* `Run.guarded`: the same when only the steps that meet a guard keep it;
* `Run.forall_iff`: when, from a state that satisfies `Inv`, a step leads to a state that
  satisfies `Inv` exactly if it meets the guard, then all states of a run satisfy `Inv` exactly
  if all its steps meet the guard;
* `exec`, `Run.of_exec`, `Run.of_foldl`: the run of a list of labels, where the steps can be
  computed;
* `Reaches`: some run leads from the one state to the other.
-/

namespace Runs

variable {σ α : Type*}

/-- One step of a run: the state before it, its label, the state after it. -/
structure Event (σ α : Type*) where
  before : σ
  label : α
  after : σ

/-- `Run step s tr t`: the events `tr` lead from `s` to `t`. -/
inductive Run (step : σ → α → σ → Prop) (s : σ) : List (Event σ α) → σ → Prop
  | nil : Run step s [] s
  | snoc {tr : List (Event σ α)} {t u : σ} {a : α} :
      Run step s tr t → step t a u → Run step s (tr ++ [⟨t, a, u⟩]) u

variable {step : σ → α → σ → Prop}
variable {s t : σ} {tr : List (Event σ α)}

/-- A run of one step. -/
theorem Run.single {a : α} (h : step s a t) : Run step s [⟨s, a, t⟩] t :=
  Run.snoc .nil h

/-- Every event of a run is a step of the system. -/
theorem Run.step_of_mem (h : Run step s tr t) : ∀ e ∈ tr, step e.before e.label e.after := by
  induction h with
  | nil => simp
  | snoc _ hs ih =>
    intro e he
    rcases List.mem_append.1 he with he | he
    · exact ih e he
    · rw [List.mem_singleton.1 he]; exact hs

/-- A run whose events are all steps of another system is a run of that system. -/
theorem Run.restrict {step' : σ → α → σ → Prop} (h : Run step s tr t)
    (hs : ∀ e ∈ tr, step' e.before e.label e.after) : Run step' s tr t := by
  induction h with
  | nil => exact .nil
  | snoc _ _ ih =>
    exact (ih fun e he => hs e (List.mem_append_left _ he)).snoc (hs ⟨_, _, _⟩ (by simp))

/-- The last state of a run is its first one or the state after one of its events. -/
theorem Run.last_mem (h : Run step s tr t) : t = s ∨ ∃ e ∈ tr, e.after = t := by
  cases h with
  | nil => exact .inl rfl
  | snoc _ _ => exact .inr ⟨_, List.mem_append_right _ (List.mem_singleton_self _), rfl⟩

/-- What a run starts with and every step that meets the guard keeps holds before and after
every event of a run whose steps all meet the guard, and at its end. -/
theorem Run.guarded (h : Run step s tr t) (Inv : σ → Prop) (guard : σ → α → Prop) (h0 : Inv s)
    (hstep : ∀ u a v, Inv u → guard u a → step u a v → Inv v)
    (hg : ∀ e ∈ tr, guard e.before e.label) :
    (∀ e ∈ tr, Inv e.before ∧ Inv e.after) ∧ Inv t := by
  induction h with
  | nil => exact ⟨by simp, h0⟩
  | @snoc tr t u a _ hs ih =>
    obtain ⟨hall, ht⟩ := ih fun e he => hg e (List.mem_append_left _ he)
    have hu : Inv u := hstep t a u ht (hg ⟨t, a, u⟩ (by simp)) hs
    refine ⟨fun e he => ?_, hu⟩
    rcases List.mem_append.1 he with he | he
    · exact hall e he
    · rw [List.mem_singleton.1 he]; exact ⟨ht, hu⟩

/-- What every step keeps holds before and after every event of a run, and at its end. -/
theorem Run.invariant (h : Run step s tr t) (Inv : σ → Prop) (h0 : Inv s)
    (hstep : ∀ u a v, Inv u → step u a v → Inv v) :
    (∀ e ∈ tr, Inv e.before ∧ Inv e.after) ∧ Inv t :=
  h.guarded Inv (fun _ _ => True) h0 (fun u a v hu _ => hstep u a v hu) fun _ _ => trivial

/-- An exact guard: all states of a run satisfy `Inv` exactly if all its steps meet it. -/
theorem Run.forall_iff (h : Run step s tr t) (Inv : σ → Prop) (guard : σ → α → Prop) (h0 : Inv s)
    (hstep : ∀ u a v, Inv u → step u a v → (Inv v ↔ guard u a)) :
    (∀ e ∈ tr, Inv e.after) ↔ ∀ e ∈ tr, guard e.before e.label := by
  constructor
  · intro hinv
    induction h with
    | nil => simp
    | @snoc tr t u a hr hs ih =>
      have hpre : ∀ e ∈ tr, Inv e.after := fun e he => hinv e (List.mem_append_left _ he)
      have ht : Inv t := by
        rcases hr.last_mem with rfl | ⟨e, he, rfl⟩
        · exact h0
        · exact hpre e he
      intro e he
      rcases List.mem_append.1 he with he | he
      · exact ih hpre e he
      · rw [List.mem_singleton.1 he]
        exact (hstep t a u ht hs).1 (hinv ⟨t, a, u⟩ (by simp))
  · intro hg e he
    exact ((h.guarded Inv guard h0 (fun u a v hu ha hs => (hstep u a v hu hs).2 ha) hg).1 e he).2

/-! ### Computed runs -/

/-- The events of a list of labels, when the steps are computed by `next`. -/
def exec (next : σ → α → Option σ) (s : σ) : List α → Option (List (Event σ α) × σ)
  | [] => some ([], s)
  | a :: as =>
    (next s a).bind fun t => (exec next t as).map fun p => (⟨s, a, t⟩ :: p.1, p.2)

theorem Run.cons {a : α} {u : σ} (hs : step s a t) (h : Run step t tr u) :
    Run step s (⟨s, a, t⟩ :: tr) u := by
  induction h with
  | nil => exact .single hs
  | snoc _ hu ih => exact ih.snoc hu

/-- The run of a list of labels whose steps always lead on. -/
theorem Run.of_foldl {β : Type*} {next : σ → β → σ} {label : β → α}
    (hnext : ∀ s b, step s (label b) (next s b)) (bs : List β) (s : σ) :
    ∃ tr, Run step s tr (bs.foldl next s) := by
  induction bs generalizing s with
  | nil => exact ⟨[], .nil⟩
  | cons b bs ih =>
    obtain ⟨tr, h⟩ := ih (next s b)
    exact ⟨_, .cons (hnext s b) h⟩

/-- Computed events are a run of the system. -/
theorem Run.of_exec {next : σ → α → Option σ} (hnext : ∀ s a t, next s a = some t → step s a t)
    {as : List α} (h : exec next s as = some (tr, t)) : Run step s tr t := by
  induction as generalizing s tr with
  | nil =>
    obtain ⟨rfl, rfl⟩ : [] = tr ∧ s = t := by simpa [exec] using h
    exact .nil
  | cons a as ih =>
    obtain ⟨u, hu, h⟩ := Option.bind_eq_some_iff.1 h
    obtain ⟨p, hp, h⟩ := Option.map_eq_some_iff.1 h
    obtain ⟨rfl, rfl⟩ := Prod.mk.inj h
    exact .cons (hnext s a u hu) (ih hp)

/-- The events of a computed run have the labels that it was computed from. -/
theorem labels_of_exec {next : σ → α → Option σ} {as : List α}
    (h : exec next s as = some (tr, t)) : tr.map Event.label = as := by
  induction as generalizing s tr with
  | nil =>
    obtain ⟨rfl, -⟩ : [] = tr ∧ s = t := by simpa [exec] using h
    rfl
  | cons a as ih =>
    obtain ⟨u, -, h⟩ := Option.bind_eq_some_iff.1 h
    obtain ⟨p, hp, h⟩ := Option.map_eq_some_iff.1 h
    obtain ⟨rfl, rfl⟩ := Prod.mk.inj h
    rw [List.map_cons, ih hp]

/-! ### Reachability -/

theorem Run.append {tr' : List (Event σ α)} {u : σ} (h : Run step s tr t)
    (h' : Run step t tr' u) : Run step s (tr ++ tr') u := by
  induction h' with
  | nil => rwa [List.append_nil]
  | snoc _ hs ih =>
    rw [← List.append_assoc]
    exact ih.snoc hs

/-- Some run leads from the one state to the other. -/
def Reaches (step : σ → α → σ → Prop) (s t : σ) : Prop := ∃ tr, Run step s tr t

theorem Reaches.refl (s : σ) : Reaches step s s := ⟨[], .nil⟩

theorem Reaches.single {a : α} (h : step s a t) : Reaches step s t := ⟨_, Run.single h⟩

theorem Reaches.trans {u : σ} (h : Reaches step s t) (h' : Reaches step t u) :
    Reaches step s u := by
  obtain ⟨tr, hr⟩ := h
  obtain ⟨tr', hr'⟩ := h'
  exact ⟨tr ++ tr', hr.append hr'⟩

end Runs
