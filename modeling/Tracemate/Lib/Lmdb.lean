import Mathlib.Data.List.AList
import Mathlib.Data.List.Sort
import Mathlib.Logic.Function.Basic
import Tracemate.Lib.CStr

/-!
# Environments with named databases

An environment holds named databases.  A database is opened by its name and then denoted by a
number, its handle; the numbers are given out in the order in which the names are opened, so that
the same number may denote databases of several environments.

* `Env`: the databases of an environment and the names opened so far;
* `Env.dbiOpen`, `Env.get`, `Env.put`, `Env.del`: opening a name, reading, writing and deleting
  through a handle;
* `Env.cursor`: the entries in the order in which a cursor visits them;
* `put_eq`, `get_eq`, `del_eq`, `mem_cursor_iff`: their effect, by the name
  that the handle denotes.
-/

namespace Lmdb

open CStr

/-- A database. -/
abbrev Db (V : Type*) := AList fun _ : Bytes => V

/-- The outcome of a lookup. -/
inductive Found (α : Type*)
  | error
  | notFound
  | found (a : α)

/-- The longest key that can be stored. -/
def maxKeySize : ℕ := 511

/-- An environment: what is in its file, and the names that are open. -/
structure Env (N V : Type*) where
  file : N → Db V
  slots : List N

variable {N V : Type*}

namespace Env

/-- An environment that has just been opened. -/
def ofFile (file : N → Db V) : Env N V := ⟨file, []⟩

/-- Handles `0` and `1` are the library's own. -/
def dbiOpen [DecidableEq N] (e : Env N V) (name : N) : Env N V × ℕ :=
  if name ∈ e.slots then (e, e.slots.idxOf name + 2)
  else ({ e with slots := e.slots ++ [name] }, e.slots.length + 2)

/-- The name that a handle denotes. -/
def dbName (e : Env N V) (dbi : ℕ) : Option N := if dbi < 2 then none else e.slots[dbi - 2]?

/-- Reading a key, in a transaction of the environment. -/
def get (e : Env N V) (dbi : ℕ) (key : Bytes) : Found V :=
  match e.dbName dbi with
  | none => .error
  | some name =>
    if key = [] then .error
    else match (e.file name).lookup key with
      | some v => .found v
      | none => .notFound

/-- Writing a key, in a transaction of the environment. -/
def put [DecidableEq N] (e : Env N V) (dbi : ℕ) (key : Bytes) (v : V) : Option (Env N V) :=
  match e.dbName dbi with
  | none => none
  | some name =>
    if key = [] ∨ maxKeySize < key.length then none
    else some { e with file := Function.update e.file name ((e.file name).insert key v) }

/-- Deleting a key, in a transaction of the environment. -/
def del [DecidableEq N] (e : Env N V) (dbi : ℕ) (key : Bytes) : Option (Env N V) :=
  match e.dbName dbi with
  | none => none
  | some name =>
    if key ∈ e.file name then
      some { e with file := Function.update e.file name ((e.file name).erase key) }
    else none

/-- The entries of a database, in the order of their keys. -/
def cursor (e : Env N V) (dbi : ℕ) : List (Bytes × V) :=
  match e.dbName dbi with
  | none => []
  | some name =>
    ((e.file name).entries.map fun p => (p.1, p.2)).insertionSort fun p q => p.1 ≤ q.1

end Env

variable {e e' : Env N V} {dbi : ℕ} {name : N} {key : Bytes} {v : V}

/-- What a handle reads is in the database that it denotes. -/
theorem get_eq (h : e.dbName dbi = some name) (hkey : key ≠ []) :
    e.get dbi key = match (e.file name).lookup key with
      | some v => .found v
      | none => .notFound := by
  unfold Env.get
  rw [h]
  exact if_neg hkey

/-- A cursor visits the entries of the database. -/
theorem mem_cursor_iff (h : e.dbName dbi = some name) :
    (key, v) ∈ e.cursor dbi ↔ (e.file name).lookup key = some v := by
  unfold Env.cursor
  rw [h]
  dsimp only
  rw [List.mem_insertionSort, ← Option.mem_def, AList.mem_lookup_iff, List.mem_map]
  constructor
  · rintro ⟨⟨k, w⟩, hmem, heq⟩
    obtain ⟨rfl, rfl⟩ := Prod.mk.inj heq
    exact hmem
  · intro hmem
    exact ⟨⟨key, v⟩, hmem, rfl⟩

section Write

variable [DecidableEq N]

/-- A write goes to the database that the handle denotes. -/
theorem put_eq (h : e.dbName dbi = some name) (hkey : key ≠ [] ∧ key.length ≤ maxKeySize) :
    e.put dbi key v =
      some { e with file := Function.update e.file name ((e.file name).insert key v) } := by
  unfold Env.put
  rw [h]
  exact if_neg (by simpa using hkey)

/-- A key that is there is deleted from the database that the handle denotes. -/
theorem del_eq (h : e.dbName dbi = some name) (hkey : key ∈ e.file name) :
    e.del dbi key =
      some { e with file := Function.update e.file name ((e.file name).erase key) } := by
  unfold Env.del
  rw [h]
  exact if_pos hkey

/-- A key of another size is refused. -/
theorem put_eq_none (h : e.dbName dbi = some name) (hkey : ¬ (key ≠ [] ∧ key.length ≤ maxKeySize)) :
    e.put dbi key v = none := by
  unfold Env.put
  rw [h]
  refine if_pos ?_
  rwa [not_and_or, not_not, not_le] at hkey

end Write

end Lmdb
