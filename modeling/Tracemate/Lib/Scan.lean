import Tracemate.Lib.Lmdb

/-!
# Scans of the keys with a prefix

A cursor is set to the first key that is not below a prefix, and moved on while the keys start with
it.

* `Env.scan`: the entries that are visited;
* `prefix_of_le_of_le`: the strings with a prefix have no others between them;
* `scan_eq_filter`: the entries visited are those whose keys start with the prefix;
* `pairwise_cursor`, `nodup_keys_cursor`: a cursor visits the entries in order, and each once.
-/

namespace Lmdb

open CStr

variable {N V : Type*} {e : Env N V} {dbi : ℕ} {name : N} {w a b : Bytes}

/-! ### Prefixes and the order of strings -/

/-- A string with a prefix is not below it. -/
theorem le_of_prefix (h : w <+: a) : w ≤ a := List.IsPrefix.le h

/-- Between the prefix and a string with it are only strings with it. -/
theorem prefix_of_le_of_le (hwa : w ≤ a) (hab : a ≤ b) (hwb : w <+: b) : w <+: a := by
  induction w generalizing a b with
  | nil => exact List.nil_prefix
  | cons c w ih =>
    obtain ⟨t, rfl⟩ := hwb
    cases a with
    | nil => exact absurd hwa (by simp)
    | cons x a =>
      rw [List.cons_append, List.cons_le_cons_iff] at hab
      rw [List.cons_le_cons_iff] at hwa
      -- the first bytes are the same, or one of the two inequalities fails
      have hx : c = x := by
        rcases hwa with hlt | ⟨heq, -⟩
        · rcases hab with hlt' | ⟨heq', -⟩
          · exact absurd (UInt8.lt_trans hlt hlt') (UInt8.lt_irrefl c)
          · exact heq'.symm
        · exact heq
      subst hx
      have hwa' : w ≤ a := by
        rcases hwa with hlt | ⟨-, hle⟩
        · exact absurd hlt (UInt8.lt_irrefl c)
        · exact hle
      have hab' : a ≤ w ++ t := by
        rcases hab with hlt | ⟨-, hle⟩
        · exact absurd hlt (UInt8.lt_irrefl c)
        · exact hle
      exact List.cons_prefix_cons.2 ⟨rfl, ih hwa' hab' (List.prefix_append w t)⟩

/-! ### The scan -/

/-- `MDB_SET_RANGE` to the prefix, and `MDB_NEXT` while the keys start with it. -/
def scan (entries : List (Bytes × V)) (w : Bytes) : List (Bytes × V) :=
  (entries.dropWhile fun p => p.1 < w).takeWhile fun p => w.isPrefixOf p.1

theorem takeWhile_eq_filter {entries : List (Bytes × V)}
    (hsorted : entries.Pairwise fun p q => p.1 ≤ q.1) (hle : ∀ p ∈ entries, w ≤ p.1) :
    (entries.takeWhile fun p => w.isPrefixOf p.1) = entries.filter fun p => w.isPrefixOf p.1 := by
  induction entries with
  | nil => rfl
  | cons p entries ih =>
    obtain ⟨hfirst, hsorted⟩ := List.pairwise_cons.1 hsorted
    obtain ⟨hp, hle⟩ := List.forall_mem_cons.1 hle
    rw [List.takeWhile_cons, List.filter_cons]
    split_ifs with hprefix
    · rw [ih hsorted hle]
    · -- no key after one without the prefix has it
      rw [eq_comm, List.filter_eq_nil_iff]
      intro q hq hqprefix
      rw [List.isPrefixOf_iff_prefix] at hprefix hqprefix
      exact hprefix (prefix_of_le_of_le hp (hfirst q hq) hqprefix)

/-- The entries that are visited are those whose keys start with the prefix. -/
theorem scan_eq_filter {entries : List (Bytes × V)}
    (hsorted : entries.Pairwise fun p q => p.1 ≤ q.1) (w : Bytes) :
    scan entries w = entries.filter fun p => w.isPrefixOf p.1 := by
  unfold scan
  induction entries with
  | nil => rfl
  | cons p entries ih =>
    obtain ⟨hfirst, hsorted'⟩ := List.pairwise_cons.1 hsorted
    by_cases hp : p.1 < w
    · have hno : ¬ w.isPrefixOf p.1 = true := fun hprefix =>
        le_of_prefix (List.isPrefixOf_iff_prefix.1 hprefix) hp
      rw [List.dropWhile_cons_of_pos (by simpa using hp), List.filter_cons, if_neg hno]
      exact ih hsorted'
    · rw [List.dropWhile_cons_of_neg (by simpa using hp)]
      refine takeWhile_eq_filter hsorted (List.forall_mem_cons.2 ⟨hp, fun q hq => ?_⟩)
      exact List.le_trans hp (hfirst q hq)

/-! ### Cursors -/

/-- A cursor visits the entries in the order of their keys. -/
theorem pairwise_cursor (e : Env N V) (dbi : ℕ) :
    (e.cursor dbi).Pairwise fun p q => p.1 ≤ q.1 := by
  unfold Env.cursor
  cases e.dbName dbi with
  | none => exact List.Pairwise.nil
  | some name =>
    have htotal : Std.Total fun p q : Bytes × V => p.1 ≤ q.1 := ⟨fun p q => List.le_total p.1 q.1⟩
    have htrans : IsTrans (Bytes × V) fun p q => p.1 ≤ q.1 := ⟨fun _ _ _ => List.le_trans⟩
    exact List.pairwise_insertionSort _ _

/-- A cursor visits every key once. -/
theorem nodup_keys_cursor (e : Env N V) (dbi : ℕ) : ((e.cursor dbi).map Prod.fst).Nodup := by
  unfold Env.cursor
  cases e.dbName dbi with
  | none => exact List.nodup_nil
  | some name =>
    dsimp only
    rw [((List.perm_insertionSort _ _).map Prod.fst).nodup_iff, List.map_map]
    exact (e.file name).nodupKeys

end Lmdb
