import Mathlib.Data.List.Basic

/-!
# Logs whose events act on parts of a state

A state is computed from a log of events; a view of it depends on what some of the events carry.

* `ActsOn`: the events that carry something act on the view, and the others leave it alone;
* `view_of_log`: the view is computed from what the events carry;
* `filterMap_filter_of_isSome`: a shard of the log that has all of these events will do;
* `firstWins`, `AtLeastOnce`, `firstWins_atLeastOnce`: views that keep the first value they are
  given, and logs whose events come more than once.
-/

namespace KeyedLog

variable {σ ε β γ φ : Type*}

/-- What an event carries is an action on the view; an event that carries nothing keeps it. -/
def ActsOn (step : σ → ε → Except φ σ) (view : σ → β) (carried : ε → Option γ)
    (act : β → γ → Except φ β) : Prop :=
  ∀ s s' e, step s e = .ok s' → (carried e).elim (.ok (view s)) (act (view s)) = .ok (view s')

theorem foldlM_cons_eq_ok {step : σ → ε → Except φ σ} {s t : σ} {e : ε} {es : List ε} :
    (e :: es).foldlM step s = .ok t ↔ ∃ u, step s e = .ok u ∧ es.foldlM step u = .ok t := by
  rw [List.foldlM_cons]
  cases hstep : step s e with
  | error x => simp [bind, Except.bind]
  | ok u => simp [bind, Except.bind]

/-- Actions that do not fail. -/
theorem foldlM_ok (f : β → γ → β) (xs : List γ) (b : β) :
    xs.foldlM (fun b x => (.ok (f b x) : Except φ β)) b = .ok (xs.foldl f b) := by
  induction xs generalizing b with
  | nil => rfl
  | cons x xs ih => exact ih (f b x)

variable {step : σ → ε → Except φ σ} {view : σ → β} {carried : ε → Option γ}
  {act : β → γ → Except φ β} {s t : σ}

/-- The view is computed from what the events carry. -/
theorem view_of_log (h : ActsOn step view carried act) {log : List ε}
    (hlog : log.foldlM step s = .ok t) :
    (log.filterMap carried).foldlM act (view s) = .ok (view t) := by
  induction log generalizing s with
  | nil =>
    obtain rfl : s = t := Except.ok.inj hlog
    rfl
  | cons e log ih =>
    obtain ⟨u, hstep, hlog⟩ := foldlM_cons_eq_ok.1 hlog
    have hact := h s u e hstep
    cases hcarried : carried e with
    | none =>
      rw [hcarried] at hact
      rw [List.filterMap_cons_none hcarried, Except.ok.inj hact]
      exact ih hlog
    | some x =>
      rw [hcarried] at hact
      rw [List.filterMap_cons_some hcarried]
      exact foldlM_cons_eq_ok.2 ⟨_, hact, ih hlog⟩

/-- What is carried by a shard of the log that has all events that carry something. -/
theorem filterMap_filter_of_isSome {carried : ε → Option γ} {shard : ε → Bool}
    (hshard : ∀ e, (carried e).isSome → shard e = true) (log : List ε) :
    (log.filter shard).filterMap carried = log.filterMap carried := by
  rw [List.filterMap_filter]
  refine List.filterMap_congr fun e _ => ?_
  cases hcarried : carried e with
  | none => simp
  | some x => rw [hshard e (by rw [hcarried]; rfl), if_pos rfl]

/-! ### Values that are given once -/

/-- The value that is there, or the first one that an event gives. -/
def firstWins (value : ε → Option β) (log : List ε) (start : Option β) : Option β :=
  start.or (log.findSome? value)

/-- The first of the values, given one after another. -/
theorem foldl_or (value : ε → Option β) (log : List ε) (start : Option β) :
    (log.filterMap value).foldl (fun b x => b.or (some x)) start = firstWins value log start := by
  unfold firstWins
  rw [← List.head?_filterMap]
  generalize log.filterMap value = xs
  induction xs generalizing start with
  | nil => exact Option.or_none.symm
  | cons x xs ih =>
    rw [List.foldl_cons, ih]
    cases start <;> rfl

/-- The second log has the events of the first in their order, and in between events that it has had
before, up to `same`. -/
inductive AtLeastOnce (same : ε → ε → Prop) : List ε → List ε → Prop
  | nil : AtLeastOnce same [] []
  | first {log log' : List ε} {e e' : ε} : AtLeastOnce same log log' → same e e' →
      AtLeastOnce same (log ++ [e]) (log' ++ [e'])
  | again {log log' : List ε} {e e' : ε} : AtLeastOnce same log log' → e ∈ log → same e e' →
      AtLeastOnce same log (log' ++ [e'])

theorem findSome?_append_singleton (value : ε → Option β) (log : List ε) (e : ε) :
    (log ++ [e]).findSome? value = (log.findSome? value).or (value e) := by
  have hsingle : [e].findSome? value = value e := by
    rw [List.findSome?_cons]
    cases value e <;> rfl
  rw [List.findSome?_append, hsingle]

/-- Events that come again give nothing new. -/
theorem firstWins_atLeastOnce {same : ε → ε → Prop} {value : ε → Option β}
    (hvalue : ∀ e e', same e e' → value e = value e') {log log' : List ε}
    (h : AtLeastOnce same log log') (start : Option β) :
    firstWins value log' start = firstWins value log start := by
  unfold firstWins
  refine congrArg _ ?_
  induction h with
  | nil => rfl
  | first _ hsame ih =>
    rw [findSome?_append_singleton, findSome?_append_singleton, ih, hvalue _ _ hsame]
  | @again log log' e e' _ hmem hsame ih =>
    rw [findSome?_append_singleton, ih, ← hvalue _ _ hsame]
    cases hfirst : log.findSome? value with
    | some b => rfl
    | none => exact List.findSome?_eq_none_iff.1 hfirst e hmem

end KeyedLog
