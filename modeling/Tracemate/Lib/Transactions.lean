import Mathlib.Data.Finset.Basic
import Mathlib.Data.List.Count
import Mathlib.Data.Finset.Option

/-!
# Transactions that are begun and ended under a lock

A call takes a lock, begins transactions and ends them by a commit or an abort, and releases the
lock.  The transactions are numbered in the order in which they are begun.

* `Step`, `Calls`: what is done, and the number of transactions that have been begun;
* `Calls.begins`, `Calls.ends`: through a variable that points to a transaction, or is null;
* `Balanced`: the lock is taken and released once, and every transaction is ended once;
* `Calls.Owes`: the transactions that are still open; rules for it;
* `Calls.Owes.balanced_iff`: what has been done is balanced if none is open;
* `Calls.Doubled`: a transaction has been ended twice, and stays so.
-/

namespace Transactions

inductive Step
  | locks
  | unlocks
  | begins (n : ℕ)
  | ends (n : ℕ)
  deriving DecidableEq

/-- The lock is taken and released once, and every transaction that is begun is ended once. -/
structure Balanced (steps : List Step) : Prop where
  locks : steps.count .locks = 1
  unlocks : steps.count .unlocks = 1
  ends : ∀ n, .begins n ∈ steps → steps.count (.ends n) = 1

/-- What a call has done. -/
structure Calls where
  begun : ℕ
  steps : List Step

namespace Calls

/-- The lock has been taken. -/
def locked : Calls := ⟨0, [.locks]⟩

def unlock (c : Calls) : Calls := { c with steps := c.steps ++ [.unlocks] }

/-- A transaction is begun, if that succeeds, and the variable points to it. -/
def begins (c : Calls) (ok : Bool) (txn : Option ℕ) : Option ℕ × Calls :=
  if ok then (some c.begun, ⟨c.begun + 1, c.steps ++ [.begins c.begun]⟩) else (txn, c)

/-- The transaction that the variable points to is committed or aborted. -/
def ends (c : Calls) (txn : Option ℕ) : Calls :=
  { c with steps := c.steps ++ (txn.map .ends).toList }

/-- The transactions that have been begun are ended, the open ones apart; the lock is held, or has
been released. -/
structure Owes (held : Bool) (opened : Finset ℕ) (c : Calls) : Prop where
  locks : c.steps.count .locks = 1
  unlocks : c.steps.count .unlocks = if held then 0 else 1
  begun : ∀ n, .begins n ∈ c.steps ↔ n < c.begun
  ended : ∀ n, c.steps.count (.ends n) = if n < c.begun ∧ n ∉ opened then 1 else 0
  opened_lt : ∀ n ∈ opened, n < c.begun

/-- A transaction has been ended twice. -/
def Doubled (c : Calls) : Prop := ∃ n, .begins n ∈ c.steps ∧ 2 ≤ c.steps.count (.ends n)

variable {c : Calls} {held ok : Bool} {opened : Finset ℕ} {txn : Option ℕ} {n : ℕ}

theorem owes_locked : locked.Owes true ∅ where
  locks := rfl
  unlocks := rfl
  begun n := by simp [locked]
  ended n := by simp [locked]
  opened_lt := by simp

theorem Owes.unlock (h : c.Owes true opened) : c.unlock.Owes false opened where
  locks := by simp [Calls.unlock, h.locks]
  unlocks := by simp [Calls.unlock, h.unlocks]
  begun n := by simpa [Calls.unlock] using h.begun n
  ended n := by
    have hcount : c.unlock.steps.count (.ends n) = c.steps.count (.ends n) := by
      simp [Calls.unlock]
    exact hcount.trans (h.ended n)
  opened_lt := h.opened_lt

/-- A transaction is begun. -/
theorem Owes.begins (h : c.Owes held opened) (txn : Option ℕ) :
    c.begins true txn = (some c.begun, (c.begins true txn).2) ∧
      (c.begins true txn).2.Owes held (insert c.begun opened) := by
  have hnew : c.begun ∉ opened := fun hmem => lt_irrefl _ (h.opened_lt _ hmem)
  refine ⟨rfl, ?_, ?_, fun n => ?_, fun n => ?_, fun n hn => ?_⟩
  · simp [Calls.begins, h.locks]
  · simp [Calls.begins, h.unlocks]
  · simp only [Calls.begins, if_pos, List.mem_append, h.begun, List.mem_singleton, Step.begins.injEq]
    omega
  · have hended := h.ended n
    simp only [Calls.begins, if_pos, List.count_append, Finset.mem_insert, hended]
    rw [List.count_singleton]
    by_cases hn : n = c.begun
    · subst hn
      simp
    · have hiff : n < c.begun ∧ n ∉ opened ↔ n < c.begun + 1 ∧ ¬ (n = c.begun ∨ n ∈ opened) := by
        constructor
        · rintro ⟨hlt, hnot⟩
          exact ⟨by omega, fun hc => hc.elim hn hnot⟩
        · rintro ⟨hlt, hnot⟩
          exact ⟨by omega, fun hc => hnot (.inr hc)⟩
      simp [hiff]
  · rcases Finset.mem_insert.1 hn with rfl | hn
    · exact Nat.lt_succ_self _
    · exact (h.opened_lt n hn).trans (Nat.lt_succ_self _)

/-- An open transaction is ended. -/
theorem Owes.ends (h : c.Owes held opened) (hn : n ∈ opened) :
    (c.ends (some n)).Owes held (opened.erase n) := by
  refine ⟨?_, ?_, fun k => ?_, fun k => ?_, fun k hk => ?_⟩
  · simp [Calls.ends, h.locks]
  · simp [Calls.ends, h.unlocks]
  · simpa [Calls.ends] using h.begun k
  · have hended := h.ended k
    have hlt := h.opened_lt n hn
    by_cases hk : k = n
    · subst hk
      simp [Calls.ends, hended, hn, hlt]
    · have hne : ¬ n = k := fun heq => hk heq.symm
      simp [Calls.ends, hended, hk, hne]
  · exact h.opened_lt k (Finset.mem_of_mem_erase hk)

/-- A transaction is begun and ended; what is open stays open. -/
theorem Owes.begins_ends (h : c.Owes held opened) (txn : Option ℕ) :
    ((c.begins true txn).2.ends (some c.begun)).Owes held opened := by
  have hnew : c.begun ∉ opened := fun hmem => lt_irrefl _ (h.opened_lt _ hmem)
  have hend := (h.begins txn).2.ends (Finset.mem_insert_self c.begun opened)
  rwa [Finset.erase_insert hnew] at hend

/-- The variable points to the only open transaction, or is null. -/
theorem Owes.ends_txn (h : c.Owes held txn.toFinset) : (c.ends txn).Owes held ∅ := by
  cases txn with
  | none => simpa [Calls.ends] using h
  | some n =>
    have hend := h.ends (by simp : n ∈ (some n).toFinset)
    simpa using hend

/-- A transaction is begun through a variable that is null. -/
theorem Owes.begins_null (h : c.Owes held ∅) (ok : Bool) :
    (c.begins ok none).2.Owes held (c.begins ok none).1.toFinset := by
  cases ok with
  | false => simpa [Calls.begins] using h
  | true =>
    have hbegin := (h.begins none).2
    rw [(h.begins none).1]
    simpa using hbegin

/-- What has been done is balanced exactly if no transaction is open. -/
theorem Owes.balanced_iff (h : c.Owes false opened) : Balanced c.steps ↔ opened = ∅ := by
  constructor
  · intro hbalanced
    refine Finset.eq_empty_of_forall_notMem fun n hn => ?_
    have hone := hbalanced.ends n ((h.begun n).2 (h.opened_lt n hn))
    rw [h.ended, if_neg fun hc => hc.2 hn] at hone
    cases hone
  · rintro rfl
    refine ⟨h.locks, h.unlocks, fun n hn => ?_⟩
    rw [h.ended, if_pos ⟨(h.begun n).1 hn, Finset.notMem_empty n⟩]

/-! ### Transactions that are ended twice -/

/-- A transaction that is not open is ended. -/
theorem Owes.doubled (h : c.Owes held opened) (hn : n < c.begun) (hnot : n ∉ opened) :
    (c.ends (some n)).Doubled := by
  refine ⟨n, ?_, ?_⟩
  · simpa [Calls.ends] using (h.begun n).2 hn
  · simp [Calls.ends, h.ended, hn, hnot]

/-- What is done later does not undo it. -/
theorem Doubled.mono {c' : Calls} (h : c.Doubled) (hle : c.steps <+: c'.steps) :
    c'.Doubled := by
  obtain ⟨n, hmem, hcount⟩ := h
  exact ⟨n, hle.subset hmem, hcount.trans (hle.sublist.count_le _)⟩

theorem Doubled.not_balanced (h : c.Doubled) : ¬ Balanced c.steps := by
  rintro hbalanced
  obtain ⟨n, hmem, hcount⟩ := h
  have hone := hbalanced.ends n hmem
  omega

end Calls

end Transactions
