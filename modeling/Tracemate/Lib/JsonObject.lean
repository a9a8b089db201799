import Mathlib.Tactic
import Tracemate.Lib.Json

/-!
# Objects with optional members

* `Value`: a JSON value other than `null`;
* `members`: the members of an object of which some may be absent;
* `group`: the object, which is absent itself when all its members are;
* `get_members`, `get_group`: the members that are read back.
-/

namespace JsonC

open CStr

/-- A value that a member can have: a `null` is no value. -/
def Value := {j : Json // j ≠ .null}

/-- The pointer to a value that may be absent. -/
def ptr (v : Option Value) : Option Json := v.map Subtype.val

@[simp] theorem ptr_none : ptr none = none := rfl

@[simp] theorem ptr_some (v : Value) : ptr (some v) = some v.val := rfl

@[simp] theorem isSome_ptr (v : Option Value) : (ptr v).isSome = v.isSome := Option.isSome_map

theorem Value.pointer (v : Value) : v.val.pointer = some v.val := by
  obtain ⟨j, hj⟩ := v
  cases j with
  | null => exact absurd rfl hj
  | _ => rfl

/-- The members that are there. -/
def members (ms : List (Bytes × Option Value)) : List (Bytes × Json) :=
  ms.filterMap fun m => m.2.map fun v => (m.1, v.val)

/-- An object whose members are there or not. -/
def object (ms : List (Bytes × Option Value)) : Value := ⟨.obj (members ms), nofun⟩

/-- The object, if any of its members is there. -/
def group (ms : List (Bytes × Option Value)) : Option Value :=
  if ∃ m ∈ ms, m.2.isSome then some (object ms) else none

variable {ms : List (Bytes × Option Value)} {name : Bytes} {v : Option Value}

theorem lookup_members_eq_none (h : name ∉ ms.map Prod.fst) : (members ms).lookup name = none := by
  refine List.lookup_eq_none_iff.2 fun m hm => ?_
  obtain ⟨⟨n, w⟩, hn, hw⟩ := List.mem_filterMap.1 hm
  obtain ⟨j, -, rfl⟩ := Option.map_eq_some_iff.1 hw
  have hne : name ≠ n := fun heq => h (heq ▸ List.mem_map_of_mem hn)
  simpa using hne

/-- The member of a name that occurs once. -/
theorem get_members (hnames : (ms.map Prod.fst).Nodup) (h : (name, v) ∈ ms) :
    Json.get name (some (object ms).val) = ptr v := by
  have hlookup : (members ms).lookup name = ptr v := by
    induction ms with
    | nil => cases h
    | cons m ms ih =>
      obtain ⟨n, w⟩ := m
      obtain ⟨hm, hrest⟩ := List.nodup_cons.1 hnames
      rcases List.mem_cons.1 h with heq | hmem
      · obtain ⟨rfl, rfl⟩ := Prod.mk.inj heq
        cases v with
        | none => simpa [members] using lookup_members_eq_none hm
        | some v => simp [members]
      · have hne : (name == n) = false := by
          refine beq_eq_false_iff_ne.2 ?_
          rintro rfl
          exact hm (List.mem_map.2 ⟨_, hmem, rfl⟩)
        cases w with
        | none => simpa [members] using ih hrest hmem
        | some w => simpa [members, List.lookup_cons, hne] using ih hrest hmem
  show ((members ms).lookup name).bind Json.pointer = ptr v
  rw [hlookup]
  cases v with
  | none => rfl
  | some v => exact v.pointer

theorem get_members_of_notMem (h : name ∉ ms.map Prod.fst) :
    Json.get name (some (object ms).val) = none := by
  show ((members ms).lookup name).bind Json.pointer = none
  rw [lookup_members_eq_none h]
  rfl

/-- An absent object has no members, and none of its members is there. -/
theorem get_group (name : Bytes) (ms : List (Bytes × Option Value)) :
    Json.get name (ptr (group ms)) = Json.get name (some (object ms).val) := by
  unfold group
  split_ifs with hsome
  · rfl
  · have hnil : members ms = [] := by
      refine List.filterMap_eq_nil_iff.2 fun m hm => ?_
      cases hv : m.2 with
      | none => rfl
      | some v => exact absurd ⟨m, hm, by rw [hv]; rfl⟩ hsome
    show none = ((members ms).lookup name).bind Json.pointer
    rw [hnil]
    rfl

@[simp] theorem get_group_nil : Json.get name (ptr (group [])) = none := rfl

theorem get_group_cons_self :
    Json.get name (ptr (group ((name, v) :: ms))) =
      (ptr v).or (Json.get name (ptr (group ms))) := by
  rw [get_group, get_group]
  cases v with
  | none => rfl
  | some v =>
    show (((name, v.val) :: members ms).lookup name).bind Json.pointer = _
    simp [v.pointer]

theorem get_group_cons_ne {n : Bytes} (h : name ≠ n) :
    Json.get name (ptr (group ((n, v) :: ms))) = Json.get name (ptr (group ms)) := by
  rw [get_group, get_group]
  cases v with
  | none => rfl
  | some v =>
    show (((n, v.val) :: members ms).lookup name).bind Json.pointer = _
    rw [List.lookup_cons, beq_eq_false_iff_ne.2 h]
    rfl

theorem isSome_group : (group ms).isSome ↔ ∃ m ∈ ms, m.2.isSome = true := by
  unfold group
  split_ifs with h <;> simpa using h

@[simp] theorem isSome_group_singleton {v : Option Value} :
    (group [(name, v)]).isSome = v.isSome := by
  rw [Bool.eq_iff_iff, isSome_group]
  simp

@[simp] theorem isSome_group_cons {v : Option Value} {m : Bytes × Option Value} :
    (group ((name, v) :: m :: ms)).isSome = (v.isSome || (group (m :: ms)).isSome) := by
  rw [Bool.eq_iff_iff, Bool.or_eq_true, isSome_group, isSome_group, List.exists_mem_cons_iff]

end JsonC
