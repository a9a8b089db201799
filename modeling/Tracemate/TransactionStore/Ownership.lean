import Tracemate.Lib.Ownership
import Tracemate.TransactionStore.Visibility

/-!
# Who releases the children of a trace

The documents of the children are read in two passes and released by the second one or by the sweep
after it; `data` is null for those that the second pass has released.

* `errorTouch`, `childTouch`: what the two passes do to one child, and to errors that are found
  for it;
* `handleChildren`: all that is done to the children of a trace, from the first pass to the sweep;
* `IsOrphan`, `Followable`: errors without a parent, and children that the passes can read;
* `handleChildren_ok_iff`: the handling comes to its end if all children can be read;
* `children_released_once_iff`: every child is released once and not read after it exactly if all of
  them can be read and none is an error without a parent;
* `jaegerizeTrace_ok_iff`: these are the traces that are sent.
-/

namespace Tracemate.TransactionStore

open CStr JsonC Lmdb COutcome Outcome Ownership

section Definitions

-- `looks`: whether `jaegerize_transaction` or `jaegerize_span` comes to its lookup of an error, as
-- they return before it if a field of the message is missing
variable (j : JaegerEnv) (looks : Json → Bool)

/-- `processor.event`. -/
def eventName (c : Json) : Option Bytes :=
  (Json.get (cstr "processor") (some c)).bind fun processor =>
    j.lib.getString (Json.get (cstr "event") (some processor))

/-- The id under which `jaegerize_transaction` looks for an error. -/
def transactionId (message : Json) : Option Bytes :=
  j.lib.getString (Json.get (cstr "id") (Json.get (cstr "transaction") (some message)))

/-- The id under which `jaegerize_span` looks for an error. -/
def spanId (message : Json) : Option Bytes :=
  j.lib.getString
    (Json.get
      (if tmApmServerMajorVersion j.lib (some message) = 6 then cstr "hex_id" else cstr "id")
      (Json.get (cstr "span") (some message)))

/-- The place of the error that goes with an id. -/
def attachedTo (errors : Db ℕ) (id : Option Bytes) : Option ℕ := id.bind errors.lookup

/-- `jaegerize_error` reads the error that goes with the id of a message. -/
def readError (errors : Db ℕ) (message : Json) (id : Option Bytes) : List (Touch ℕ) :=
  if looks message then (attachedTo errors id).toList.map .reads else []

/-! ### The passes -/

/-- The body of the first pass, for the child at the place `i`. -/
def errorTouch (i : ℕ) (child : Json) (errors : Db ℕ) : Outcome (List (Touch ℕ) × Db ℕ) :=
  match Json.get (cstr "processor") (some child) with
  | none => .ok ([.reads i], errors)
  | some processor => do
    let event ← eventOf j processor
    if event = cstr "error" then
      match Json.get (cstr "parent") (some child) with
      -- `data` is not set to null
      | none => .ok ([.reads i, .releases i], errors)
      | some parent => do
        let parentHex ← nonNull (j.lib.getString (Json.get (cstr "id") (some parent)))
        .ok ([.reads i], if parentHex ∈ errors then errors else errors.insert parentHex i)
    else .ok ([.reads i], errors)

def errorTouches : ℕ → List Json → Db ℕ → Outcome (List (Touch ℕ) × Db ℕ)
  | _, [], errors => .ok ([], errors)
  | i, child :: children, errors => do
    let (touches, errors) ← errorTouch j i child errors
    let (rest, errors) ← errorTouches (i + 1) children errors
    .ok (touches ++ rest, errors)

/-- The body of the second pass, for the child at the place `i`: what is done, `rejaegered_root`,
and whether `data` is null after it. -/
def childTouch (team : Bytes) (trans : Json) (errors : Db ℕ) (i : ℕ) (child : Json)
    (rejaegeredRoot : Bool) : Outcome (List (Touch ℕ) × Bool × Bool) :=
  match Json.get (cstr "processor") (some child) with
  | none => .ok ([.reads i, .releases i], rejaegeredRoot, true)
  | some processor => do
    let other := (← teamOf j child).filter (· ≠ team)
    let again :=
      if other.isSome = true ∧ rejaegeredRoot = false then
        readError looks errors trans (transactionId j trans)
      else []
    let rejaegeredRoot := rejaegeredRoot || other.isSome
    let event ← eventOf j processor
    if event = cstr "transaction" then
      .ok (.reads i :: again ++ readError looks errors child (transactionId j child) ++
        [.releases i], rejaegeredRoot, true)
    else if event = cstr "span" then
      .ok (.reads i :: again ++ readError looks errors child (spanId j child) ++ [.releases i],
        rejaegeredRoot, true)
    else .ok (.reads i :: again, rejaegeredRoot, false)

/-- The second pass, and the places at which `data` is not null after it. -/
def childTouches (team : Bytes) (trans : Json) (errors : Db ℕ) :
    ℕ → List Json → Bool → Outcome (List (Touch ℕ) × List ℕ)
  | _, [], _ => .ok ([], [])
  | i, child :: children, rejaegeredRoot => do
    let (touches, rejaegeredRoot, null) ←
      childTouch j looks team trans errors i child rejaegeredRoot
    let (rest, left) ← childTouches team trans errors (i + 1) children rejaegeredRoot
    .ok (touches ++ rest, if null then left else i :: left)

/-- What is done to the children of a trace. -/
def handleChildren (team : Bytes) (trans : Json) (children : List Json) :
    Outcome (List (Touch ℕ)) := do
  let (first, errors) ← errorTouches j 0 children ∅
  let (second, left) ← childTouches j looks team trans errors 0 children false
  -- the root is sent between the passes, and the sweep comes last
  .ok (first ++ readError looks errors trans (transactionId j trans) ++ second ++
    left.map .releases)

/-! ### Children -/

/-- An error without the object `parent`. -/
def IsOrphan (c : Json) : Prop :=
  eventName j c = some (cstr "error") ∧ Json.get (cstr "parent") (some c) = none

/-- A child that the passes can read: if it has a processor, there is an event, the parent of an
error has an id, and the team fits its buffer. -/
def Followable (c : Json) : Prop :=
  HasProcessor c →
    (∃ event, eventName j c = some event ∧ (event = cstr "error" →
      ∀ parent, Json.get (cstr "parent") (some c) = some parent →
        (j.lib.getString (Json.get (cstr "id") (some parent))).isSome = true)) ∧
    ∃ team, teamOf j c = .ok team

/-- The second pass releases the child. -/
def ReleasedInPass (c : Json) : Prop :=
  ¬ HasProcessor c ∨ eventName j c = some (cstr "transaction") ∨ eventName j c = some (cstr "span")

end Definitions

variable {j : JaegerEnv} {looks : Json → Bool} {team : Bytes} {trans c : Json}
  {children : List Json} {i k : ℕ} {errors errors' : Db ℕ} {touches : List (Touch ℕ)}
  {left : List ℕ} {rejaegered rejaegered' null : Bool}

theorem eventName_eq {processor : Json}
    (h : Json.get (cstr "processor") (some c) = some processor) :
    eventName j c = j.lib.getString (Json.get (cstr "event") (some processor)) := by
  unfold eventName
  rw [h]
  rfl

theorem hasProcessor_of_eventName {event : Bytes} (h : eventName j c = some event) :
    HasProcessor c := by
  obtain ⟨processor, hprocessor, -⟩ := Option.bind_eq_some_iff.1 h
  unfold HasProcessor
  rw [hprocessor]
  rfl

/-! ### The first pass -/

/-- The first pass comes to an end for a child whose event, and an error's parent, have a name. -/
theorem errorTouch_ok_iff : (∃ r, errorTouch j i c errors = .ok r) ↔
    (HasProcessor c → ∃ event, eventName j c = some event ∧ (event = cstr "error" →
      ∀ parent, Json.get (cstr "parent") (some c) = some parent →
        (j.lib.getString (Json.get (cstr "id") (some parent))).isSome = true)) := by
  unfold errorTouch
  cases hprocessor : Json.get (cstr "processor") (some c) with
  | none => simp [HasProcessor, hprocessor]
  | some processor =>
    have hhas : HasProcessor c := by simp [HasProcessor, hprocessor]
    dsimp only
    rw [eventName_eq hprocessor, imp_iff_right hhas]
    unfold eventOf
    cases j.lib.getString (Json.get (cstr "event") (some processor)) with
    | none =>
      refine iff_of_false ?_ ?_
      · rintro ⟨r, hr⟩
        cases hr
      · rintro ⟨event, hevent, -⟩
        cases hevent
    | some event =>
      have hbind : ∀ f : Bytes → Outcome (List (Touch ℕ) × Db ℕ),
          (nonNull (some event) >>= f) = f event := fun _ => rfl
      rw [hbind]
      by_cases herror : event = cstr "error"
      · rw [if_pos herror]
        cases hparent : Json.get (cstr "parent") (some c) with
        | none => simp
        | some parent =>
          dsimp only
          cases hid : j.lib.getString (Json.get (cstr "id") (some parent)) with
          | none =>
            refine iff_of_false ?_ ?_
            · rintro ⟨r, hr⟩
              cases hr
            · rintro ⟨event', hevent', hsome⟩
              obtain rfl := Option.some.inj hevent'
              have := hsome herror parent rfl
              rw [hid] at this
              cases this
          | some id =>
            refine iff_of_true ⟨_, rfl⟩ ⟨event, rfl, fun _ parent' hparent' => ?_⟩
            obtain rfl := Option.some.inj hparent'
            rw [hid]
            rfl
      · rw [if_neg herror]
        exact iff_of_true ⟨_, rfl⟩ ⟨event, rfl, fun h => absurd h herror⟩

/-- What the first pass does to one child. -/
theorem errorTouch_spec (h : errorTouch j i c errors = .ok (touches, errors')) :
    ((IsOrphan j c ∧ touches = [.reads i, .releases i]) ∨
      (¬ IsOrphan j c ∧ touches = [.reads i])) ∧
    ∀ id k, errors'.lookup id = some k → errors.lookup id = some k ∨
      (k = i ∧ eventName j c = some (cstr "error")) := by
  unfold errorTouch at h
  cases hprocessor : Json.get (cstr "processor") (some c) with
  | none =>
    rw [hprocessor] at h
    obtain ⟨rfl, rfl⟩ := Prod.mk.inj (Except.ok.inj h)
    refine ⟨.inr ⟨fun horphan => ?_, rfl⟩, fun _ _ hk => .inl hk⟩
    have hhas := hasProcessor_of_eventName horphan.1
    simp [HasProcessor, hprocessor] at hhas
  | some processor =>
    rw [hprocessor] at h
    obtain ⟨event, hevent, h⟩ := bind_eq_ok.1 h
    have hname : eventName j c = some event :=
      (eventName_eq hprocessor).trans (nonNull_eq_ok.1 hevent)
    by_cases herror : event = cstr "error"
    · rw [if_pos herror] at h
      subst herror
      cases hparent : Json.get (cstr "parent") (some c) with
      | none =>
        rw [hparent] at h
        obtain ⟨rfl, rfl⟩ := Prod.mk.inj (Except.ok.inj h)
        exact ⟨.inl ⟨⟨hname, hparent⟩, rfl⟩, fun _ _ hk => .inl hk⟩
      | some parent =>
        rw [hparent] at h
        obtain ⟨parentHex, -, h⟩ := bind_eq_ok.1 h
        obtain ⟨rfl, rfl⟩ := Prod.mk.inj (Except.ok.inj h)
        refine ⟨.inr ⟨fun horphan => ?_, rfl⟩, fun id k hk => ?_⟩
        · have hnone := horphan.2
          rw [hparent] at hnone
          cases hnone
        · split_ifs at hk
          · exact .inl hk
          · by_cases hid : id = parentHex
            · subst hid
              rw [AList.lookup_insert] at hk
              exact .inr ⟨(Option.some.inj hk).symm, hname⟩
            · rw [AList.lookup_insert_ne hid] at hk
              exact .inl hk
    · rw [if_neg herror] at h
      obtain ⟨rfl, rfl⟩ := Prod.mk.inj (Except.ok.inj h)
      refine ⟨.inr ⟨fun horphan => herror ?_, rfl⟩, fun _ _ hk => .inl hk⟩
      exact Option.some.inj (hname.symm.trans horphan.1)

theorem errorTouches_ok_iff : (∃ r, errorTouches j i children errors = .ok r) ↔
    ∀ c ∈ children, HasProcessor c → ∃ event, eventName j c = some event ∧
      (event = cstr "error" → ∀ parent, Json.get (cstr "parent") (some c) = some parent →
        (j.lib.getString (Json.get (cstr "id") (some parent))).isSome = true) := by
  induction children generalizing i errors with
  | nil => exact iff_of_true ⟨_, rfl⟩ (by simp)
  | cons c children ih =>
    rw [List.forall_mem_cons, ← @errorTouch_ok_iff j c i errors]
    constructor
    · rintro ⟨r, hr⟩
      obtain ⟨⟨touches, errors'⟩, hfirst, hr⟩ := bind_eq_ok.1 hr
      obtain ⟨rest, hrest, -⟩ := bind_eq_ok.1 hr
      exact ⟨⟨_, hfirst⟩, ih.1 ⟨rest, hrest⟩⟩
    · rintro ⟨⟨⟨touches, errors'⟩, hfirst⟩, hall⟩
      obtain ⟨⟨rest, errors''⟩, hrest⟩ := (@ih (i + 1) errors').2 hall
      exact ⟨_, bind_eq_ok.2 ⟨_, hfirst, bind_eq_ok.2 ⟨_, hrest, rfl⟩⟩⟩

/-- Without orphans the first pass only reads, and the errors that it finds are errors. -/
theorem errorTouches_spec (h : errorTouches j i children errors = .ok (touches, errors'))
    (horphan : ∀ c ∈ children, ¬ IsOrphan j c) :
    (∀ t ∈ touches, ∃ k, t = .reads k) ∧
    ∀ id k, errors'.lookup id = some k → errors.lookup id = some k ∨
      ∃ c, children[k - i]? = some c ∧ i ≤ k ∧ eventName j c = some (cstr "error") := by
  induction children generalizing i errors touches with
  | nil =>
    obtain ⟨rfl, rfl⟩ := Prod.mk.inj (Except.ok.inj h)
    exact ⟨by simp, fun _ _ hk => .inl hk⟩
  | cons c children ih =>
    obtain ⟨hc, horphan⟩ := List.forall_mem_cons.1 horphan
    obtain ⟨⟨first, mid⟩, hfirst, h⟩ := bind_eq_ok.1 h
    obtain ⟨⟨rest, last⟩, hrest, h⟩ := bind_eq_ok.1 h
    obtain ⟨rfl, rfl⟩ := Prod.mk.inj (Except.ok.inj h)
    obtain ⟨htouches, herrors⟩ := errorTouch_spec hfirst
    obtain ⟨hreads, hlast⟩ := ih hrest horphan
    constructor
    · rcases htouches with ⟨ho, -⟩ | ⟨-, rfl⟩
      · exact absurd ho hc
      · simpa using hreads
    · intro id k hk
      rcases hlast id k hk with hk | ⟨c', hc', hle, herror⟩
      · rcases herrors id k hk with hk | ⟨rfl, herror⟩
        · exact .inl hk
        · exact .inr ⟨c, by simp, le_rfl, herror⟩
      · refine .inr ⟨c', ?_, by omega, herror⟩
        have hsucc : k - i = k - (i + 1) + 1 := by omega
        rw [hsucc, List.getElem?_cons_succ]
        exact hc'

/-- An orphan is released in the first pass. -/
theorem releases_mem_errorTouches (h : errorTouches j i children errors = .ok (touches, errors'))
    (hc : children[k]? = some c) (horphan : IsOrphan j c) : .releases (i + k) ∈ touches := by
  induction children generalizing i errors touches k with
  | nil => cases hc
  | cons c' children ih =>
    obtain ⟨⟨first, mid⟩, hfirst, h⟩ := bind_eq_ok.1 h
    obtain ⟨⟨rest, last⟩, hrest, h⟩ := bind_eq_ok.1 h
    obtain ⟨rfl, rfl⟩ := Prod.mk.inj (Except.ok.inj h)
    cases k with
    | zero =>
      obtain rfl : c' = c := by simpa using hc
      rcases (errorTouch_spec hfirst).1 with ⟨-, rfl⟩ | ⟨ho, -⟩
      · simp
      · exact absurd horphan ho
    | succ k =>
      have hmem := ih hrest (by simpa using hc)
      rw [Nat.add_right_comm, Nat.add_assoc] at hmem
      exact List.mem_append_right _ hmem

/-! ### The second pass -/

theorem mem_readError {id : Option Bytes} {t : Touch ℕ} (h : t ∈ readError looks errors c id) :
    ∃ id k, errors.lookup id = some k ∧ t = .reads k := by
  unfold readError at h
  split_ifs at h
  · obtain ⟨k, hk, rfl⟩ := List.mem_map.1 h
    obtain ⟨id, -, hlookup⟩ := Option.bind_eq_some_iff.1 (Option.mem_toList.1 hk)
    exact ⟨id, k, hlookup, rfl⟩
  · cases h

/-- The second pass comes to an end for a child with an event and a team that fits. -/
theorem childTouch_ok_iff : (∃ r, childTouch j looks team trans errors i c rejaegered = .ok r) ↔
    (HasProcessor c → (∃ event, eventName j c = some event) ∧ ∃ team, teamOf j c = .ok team) := by
  unfold childTouch
  cases hprocessor : Json.get (cstr "processor") (some c) with
  | none => simp [HasProcessor, hprocessor]
  | some processor =>
    have hhas : HasProcessor c := by simp [HasProcessor, hprocessor]
    rw [imp_iff_right hhas, eventName_eq hprocessor]
    constructor
    · rintro ⟨r, hr⟩
      obtain ⟨o, hteam, hr⟩ := bind_eq_ok.1 hr
      obtain ⟨event, hevent, -⟩ := bind_eq_ok.1 hr
      exact ⟨⟨event, nonNull_eq_ok.1 hevent⟩, o, hteam⟩
    · rintro ⟨⟨event, hevent⟩, o, hteam⟩
      simp only [bind_eq_ok]
      by_cases htransaction : event = cstr "transaction"
      · exact ⟨_, o, hteam, event, nonNull_eq_ok.2 hevent, if_pos htransaction⟩
      · by_cases hspan : event = cstr "span"
        · exact ⟨_, o, hteam, event, nonNull_eq_ok.2 hevent,
            (if_neg htransaction).trans (if_pos hspan)⟩
        · exact ⟨_, o, hteam, event, nonNull_eq_ok.2 hevent,
            (if_neg htransaction).trans (if_neg hspan)⟩

/-- What the second pass does to one child: it reads it, and errors, and may release it. -/
theorem childTouch_spec
    (h : childTouch j looks team trans errors i c rejaegered = .ok (touches, rejaegered', null)) :
    ∃ reads : List (Touch ℕ), (∀ t ∈ reads, ∃ id k, errors.lookup id = some k ∧ t = .reads k) ∧
      ((ReleasedInPass j c ∧ null = true ∧ touches = .reads i :: reads ++ [.releases i]) ∨
        (¬ ReleasedInPass j c ∧ null = false ∧ touches = .reads i :: reads)) := by
  unfold childTouch at h
  cases hprocessor : Json.get (cstr "processor") (some c) with
  | none =>
    rw [hprocessor] at h
    obtain ⟨rfl, hstate⟩ := Prod.mk.inj (Except.ok.inj h)
    obtain ⟨-, rfl⟩ := Prod.mk.inj hstate
    exact ⟨[], by simp, .inl ⟨.inl (by simp [HasProcessor, hprocessor]), rfl, rfl⟩⟩
  | some processor =>
    have hhas : HasProcessor c := by simp [HasProcessor, hprocessor]
    rw [hprocessor] at h
    obtain ⟨o, -, h⟩ := bind_eq_ok.1 h
    obtain ⟨event, hevent, h⟩ := bind_eq_ok.1 h
    have hname : eventName j c = some event :=
      (eventName_eq hprocessor).trans (nonNull_eq_ok.1 hevent)
    -- the error of the root, if the root is sent again
    have hagain : ∀ t ∈ (if (o.filter (· ≠ team)).isSome = true ∧ rejaegered = false then
        readError looks errors trans (transactionId j trans) else []),
        ∃ id k, errors.lookup id = some k ∧ t = .reads k := by
      intro t ht
      split_ifs at ht
      · exact mem_readError ht
      · cases ht
    have happend : ∀ id, ∀ t ∈ (if (o.filter (· ≠ team)).isSome = true ∧ rejaegered = false then
        readError looks errors trans (transactionId j trans) else []) ++
          readError looks errors c id, ∃ id k, errors.lookup id = some k ∧ t = .reads k := fun id t ht =>
      (List.mem_append.1 ht).elim (hagain t) mem_readError
    by_cases htransaction : event = cstr "transaction"
    · rw [if_pos htransaction] at h
      obtain ⟨rfl, hstate⟩ := Prod.mk.inj (Except.ok.inj h)
      obtain ⟨-, rfl⟩ := Prod.mk.inj hstate
      exact ⟨_, happend _, .inl ⟨.inr (.inl (hname.trans (by rw [htransaction]))), rfl, rfl⟩⟩
    · by_cases hspan : event = cstr "span"
      · rw [if_neg htransaction, if_pos hspan] at h
        obtain ⟨rfl, hstate⟩ := Prod.mk.inj (Except.ok.inj h)
        obtain ⟨-, rfl⟩ := Prod.mk.inj hstate
        exact ⟨_, happend _, .inl ⟨.inr (.inr (hname.trans (by rw [hspan]))), rfl, rfl⟩⟩
      · rw [if_neg htransaction, if_neg hspan] at h
        obtain ⟨rfl, hstate⟩ := Prod.mk.inj (Except.ok.inj h)
        obtain ⟨-, rfl⟩ := Prod.mk.inj hstate
        refine ⟨_, hagain, .inr ⟨?_, rfl, rfl⟩⟩
        rintro (hno | ht | hs)
        · exact hno hhas
        · exact htransaction (Option.some.inj (hname.symm.trans ht))
        · exact hspan (Option.some.inj (hname.symm.trans hs))

theorem childTouches_ok_iff :
    (∃ r, childTouches j looks team trans errors i children rejaegered = .ok r) ↔
      ∀ c ∈ children, HasProcessor c →
        (∃ event, eventName j c = some event) ∧ ∃ team, teamOf j c = .ok team := by
  induction children generalizing i rejaegered with
  | nil => exact iff_of_true ⟨_, rfl⟩ (by simp)
  | cons c children ih =>
    rw [List.forall_mem_cons, ← @childTouch_ok_iff j looks team trans c i errors rejaegered]
    constructor
    · rintro ⟨r, hr⟩
      obtain ⟨⟨touches, rejaegered', null⟩, hfirst, hr⟩ := bind_eq_ok.1 hr
      obtain ⟨rest, hrest, -⟩ := bind_eq_ok.1 hr
      exact ⟨⟨_, hfirst⟩, ih.1 ⟨rest, hrest⟩⟩
    · rintro ⟨⟨⟨touches, rejaegered', null⟩, hfirst⟩, hall⟩
      obtain ⟨⟨rest, left⟩, hrest⟩ := (@ih (i + 1) rejaegered').2 hall
      exact ⟨_, bind_eq_ok.2 ⟨_, hfirst, bind_eq_ok.2 ⟨_, hrest, rfl⟩⟩⟩

/-- The places at which `data` is not null after the second pass. -/
theorem mem_left_iff
    (h : childTouches j looks team trans errors i children rejaegered = .ok (touches, left)) :
    left.Nodup ∧ ∀ k, k ∈ left ↔
      i ≤ k ∧ ∃ c, children[k - i]? = some c ∧ ¬ ReleasedInPass j c := by
  induction children generalizing i rejaegered touches left with
  | nil =>
    obtain ⟨rfl, rfl⟩ := Prod.mk.inj (Except.ok.inj h)
    exact ⟨List.nodup_nil, by simp⟩
  | cons c children ih =>
    obtain ⟨⟨first, rejaegered', null⟩, hfirst, h⟩ := bind_eq_ok.1 h
    obtain ⟨⟨rest, left'⟩, hrest, h⟩ := bind_eq_ok.1 h
    obtain ⟨rfl, rfl⟩ := Prod.mk.inj (Except.ok.inj h)
    obtain ⟨hnodup, hmem⟩ := ih hrest
    have hsucc : ∀ k, k ∈ left' ↔ i < k ∧ ∃ c', (c :: children)[k - i]? = some c' ∧
        ¬ ReleasedInPass j c' := by
      intro k
      rw [hmem, Nat.add_one_le_iff]
      refine and_congr_right fun hk => ?_
      have hsub : k - i = k - (i + 1) + 1 := by omega
      rw [hsub, List.getElem?_cons_succ]
    have hi : i ∉ left' := fun hi => lt_irrefl i ((hsucc i).1 hi).1
    obtain ⟨reads, -, ⟨hreleased, rfl, -⟩ | ⟨hreleased, rfl, -⟩⟩ := childTouch_spec hfirst
    · rw [if_pos rfl]
      refine ⟨hnodup, fun k => ?_⟩
      rw [hsucc]
      constructor
      · rintro ⟨hk, hc⟩
        exact ⟨hk.le, hc⟩
      · rintro ⟨hk, c', hc', hno⟩
        refine ⟨lt_of_le_of_ne hk ?_, c', hc', hno⟩
        rintro rfl
        rw [Nat.sub_self, List.getElem?_cons_zero] at hc'
        exact hno (Option.some.inj hc' ▸ hreleased)
    · rw [if_neg (by decide)]
      refine ⟨List.nodup_cons.2 ⟨hi, hnodup⟩, fun k => ?_⟩
      rw [List.mem_cons, hsucc]
      constructor
      · rintro (rfl | ⟨hk, hc⟩)
        · exact ⟨le_rfl, c, by simp, hreleased⟩
        · exact ⟨hk.le, hc⟩
      · rintro ⟨hk, hc⟩
        rcases hk.eq_or_lt with rfl | hk
        · exact .inl rfl
        · exact .inr ⟨hk, hc⟩

/-- The second pass reads no child that it has released, if no error that is found is one of those
that it releases. -/
theorem touchAll_childTouches {released : Finset ℕ}
    (h : childTouches j looks team trans errors i children rejaegered = .ok (touches, left))
    (hreleased : ∀ k ∈ released, k < i)
    (herrors : ∀ id k, errors.lookup id = some k → k ∉ released ∧
      ∀ c, i ≤ k → children[k - i]? = some c → ¬ ReleasedInPass j c) :
    ∃ r, touchAll released touches = some r ∧ ∀ k, k ∈ r ↔ k ∈ released ∨
      (i ≤ k ∧ ∃ c, children[k - i]? = some c ∧ ReleasedInPass j c) := by
  induction children generalizing i rejaegered touches left released with
  | nil =>
    obtain ⟨rfl, rfl⟩ := Prod.mk.inj (Except.ok.inj h)
    exact ⟨released, rfl, by simp⟩
  | cons c children ih =>
    obtain ⟨⟨first, rejaegered', null⟩, hfirst, h⟩ := bind_eq_ok.1 h
    obtain ⟨⟨rest, left'⟩, hrest, h⟩ := bind_eq_ok.1 h
    obtain ⟨rfl, rfl⟩ := Prod.mk.inj (Except.ok.inj h)
    have hi : i ∉ released := fun hi => lt_irrefl i (hreleased i hi)
    have hsub : ∀ k, i < k → (c :: children)[k - i]? = children[k - (i + 1)]? := fun k hk => by
      have hsucc : k - i = k - (i + 1) + 1 := by omega
      rw [hsucc, List.getElem?_cons_succ]
    obtain ⟨reads, hreads, hcase⟩ := childTouch_spec hfirst
    have hread : touchAll released (.reads i :: reads) = some released :=
      touchAll_reads <| List.forall_mem_cons.2 ⟨⟨i, hi, rfl⟩, fun t ht => by
        obtain ⟨id, k, hk, rfl⟩ := hreads t ht
        exact ⟨k, (herrors id k hk).1, rfl⟩⟩
    rcases hcase with ⟨hpass, -, rfl⟩ | ⟨hpass, -, rfl⟩
    · -- the child is released
      obtain ⟨r, hr, hmem⟩ := @ih (i + 1) rest left' rejaegered' (insert i released) hrest
        (fun k hk => (Finset.mem_insert.1 hk).elim (fun h => h ▸ Nat.lt_succ_self i)
          fun hk => (hreleased k hk).trans (Nat.lt_succ_self i))
        (fun id k hk => by
          obtain ⟨hnot, hc⟩ := herrors id k hk
          refine ⟨fun hk' => ?_, fun c' hle hc' => hc c' (by omega) ((hsub k hle).trans hc')⟩
          rcases Finset.mem_insert.1 hk' with rfl | hk'
          · exact hc c le_rfl (by simp) hpass
          · exact hnot hk')
      refine ⟨r, ?_, fun k => ?_⟩
      · rw [touchAll_append, touchAll_append, hread, Option.bind_some, touchAll, touch, if_neg hi]
        exact hr
      · rw [hmem, Finset.mem_insert]
        constructor
        · rintro ((rfl | hk) | ⟨hk, c', hc', hp⟩)
          · exact .inr ⟨le_rfl, c, by simp, hpass⟩
          · exact .inl hk
          · exact .inr ⟨by omega, c', (hsub k hk).trans hc', hp⟩
        · rintro (hk | ⟨hk, c', hc', hp⟩)
          · exact .inl (.inr hk)
          · rcases hk.eq_or_lt with rfl | hk
            · exact .inl (.inl rfl)
            · exact .inr ⟨hk, c', (hsub k hk).symm.trans hc', hp⟩
    · obtain ⟨r, hr, hmem⟩ := @ih (i + 1) rest left' rejaegered' released hrest
        (fun k hk => (hreleased k hk).trans (Nat.lt_succ_self i))
        (fun id k hk => ⟨(herrors id k hk).1, fun c' hle hc' =>
          (herrors id k hk).2 c' (by omega) ((hsub k hle).trans hc')⟩)
      refine ⟨r, ?_, fun k => ?_⟩
      · rw [touchAll_append, hread]
        exact hr
      · rw [hmem]
        refine or_congr_right ?_
        constructor
        · rintro ⟨hk, c', hc', hp⟩
          exact ⟨by omega, c', (hsub k hk).trans hc', hp⟩
        · rintro ⟨hk, c', hc', hp⟩
          rcases hk.eq_or_lt with rfl | hk
          · rw [Nat.sub_self, List.getElem?_cons_zero] at hc'
            exact absurd (Option.some.inj hc' ▸ hp) hpass
          · exact ⟨hk, c', (hsub k hk).symm.trans hc', hp⟩

/-- Every child is read in the second pass. -/
theorem reads_mem_childTouches
    (h : childTouches j looks team trans errors i children rejaegered = .ok (touches, left))
    (hk : k < children.length) : .reads (i + k) ∈ touches := by
  induction children generalizing i rejaegered touches left k with
  | nil => exact absurd hk (Nat.not_lt_zero k)
  | cons c children ih =>
    obtain ⟨⟨first, rejaegered', null⟩, hfirst, h⟩ := bind_eq_ok.1 h
    obtain ⟨⟨rest, left'⟩, hrest, h⟩ := bind_eq_ok.1 h
    obtain ⟨rfl, rfl⟩ := Prod.mk.inj (Except.ok.inj h)
    cases k with
    | zero =>
      obtain ⟨reads, -, ⟨-, -, rfl⟩ | ⟨-, -, rfl⟩⟩ := childTouch_spec hfirst
      · simp
      · simp
    | succ k =>
      have hmem := ih hrest (Nat.lt_of_succ_lt_succ hk)
      rw [Nat.add_right_comm, Nat.add_assoc] at hmem
      exact List.mem_append_right _ hmem

/-! ### From the first pass to the sweep -/

theorem followable_iff : Followable j c ↔
    (HasProcessor c → ∃ event, eventName j c = some event ∧ (event = cstr "error" →
      ∀ parent, Json.get (cstr "parent") (some c) = some parent →
        (j.lib.getString (Json.get (cstr "id") (some parent))).isSome = true)) ∧
    (HasProcessor c → (∃ event, eventName j c = some event) ∧ ∃ team, teamOf j c = .ok team) := by
  constructor
  · intro h
    refine ⟨fun hhas => (h hhas).1, fun hhas => ⟨?_, (h hhas).2⟩⟩
    obtain ⟨event, hevent, -⟩ := (h hhas).1
    exact ⟨event, hevent⟩
  · rintro ⟨hevent, hteam⟩ hhas
    exact ⟨hevent hhas, (hteam hhas).2⟩

/-- The handling comes to its end exactly if all children can be read. -/
theorem handleChildren_ok_iff :
    (∃ touches, handleChildren j looks team trans children = .ok touches) ↔
      ∀ c ∈ children, Followable j c := by
  constructor
  · rintro ⟨touches, h⟩ c hc
    obtain ⟨⟨first, errors⟩, hfirst, h⟩ := bind_eq_ok.1 h
    obtain ⟨second, hsecond, -⟩ := bind_eq_ok.1 h
    exact followable_iff.2
      ⟨errorTouches_ok_iff.1 ⟨_, hfirst⟩ c hc, childTouches_ok_iff.1 ⟨_, hsecond⟩ c hc⟩
  · intro h
    obtain ⟨⟨first, errors⟩, hfirst⟩ := (@errorTouches_ok_iff j children 0 ∅).2 fun c hc =>
      (followable_iff.1 (h c hc)).1
    obtain ⟨⟨second, left⟩, hsecond⟩ :=
      (@childTouches_ok_iff j looks team trans children 0 errors false).2 fun c hc =>
        (followable_iff.1 (h c hc)).2
    exact ⟨_, bind_eq_ok.2 ⟨_, hfirst, bind_eq_ok.2 ⟨_, hsecond, rfl⟩⟩⟩

/-- An error is not released in the second pass. -/
theorem not_releasedInPass_of_error (h : eventName j c = some (cstr "error")) :
    ¬ ReleasedInPass j c := by
  rintro (hno | ht | hs)
  · exact hno (hasProcessor_of_eventName h)
  · rw [h] at ht
    exact absurd (Option.some.inj ht) (by decide)
  · rw [h] at hs
    exact absurd (Option.some.inj hs) (by decide)

/-- Without orphans every child is released once and not read after it. -/
theorem releasedOnce_of_no_orphan (h : handleChildren j looks team trans children = .ok touches)
    (horphan : ∀ c ∈ children, ¬ IsOrphan j c) (hi : i < children.length) :
    ReleasedOnce i touches := by
  obtain ⟨⟨first, errors⟩, hfirst, h⟩ := bind_eq_ok.1 h
  obtain ⟨⟨second, left⟩, hsecond, h⟩ := bind_eq_ok.1 h
  obtain rfl := Except.ok.inj h
  obtain ⟨hreads, hlookup⟩ := errorTouches_spec hfirst horphan
  -- the errors that are found are children that the second pass does not release
  have herrors : ∀ id k, errors.lookup id = some k → k ∉ (∅ : Finset ℕ) ∧
      ∀ c, 0 ≤ k → children[k - 0]? = some c → ¬ ReleasedInPass j c := by
    intro id k hk
    refine ⟨Finset.notMem_empty k, fun c _ hc => ?_⟩
    rcases hlookup id k hk with hnone | ⟨c', hc', -, herror⟩
    · cases hnone
    · obtain rfl := Option.some.inj (hc'.symm.trans hc)
      exact not_releasedInPass_of_error herror
  obtain ⟨r, hr, hmem⟩ := touchAll_childTouches hsecond
    (fun k hk => absurd hk (Finset.notMem_empty k)) herrors
  obtain ⟨hnodup, hleft⟩ := mem_left_iff hsecond
  have hkept : ∀ k ∈ left, k ∉ r := by
    intro k hk hk'
    obtain ⟨-, c, hc, hno⟩ := (hleft k).1 hk
    rcases (hmem k).1 hk' with hk' | ⟨-, c', hc', hyes⟩
    · exact absurd hk' (Finset.notMem_empty k)
    · obtain rfl := Option.some.inj (hc.symm.trans hc')
      exact hno hyes
  obtain ⟨r', hr', hmem'⟩ := touchAll_releases hnodup hkept
  have hroot : ∀ t ∈ readError looks errors trans (transactionId j trans), ∃ k ∉ (∅ : Finset ℕ),
      t = .reads k := fun t ht => by
    obtain ⟨-, k, -, rfl⟩ := mem_readError ht
    exact ⟨k, Finset.notMem_empty k, rfl⟩
  have hall : touchAll ∅ (first ++ readError looks errors trans (transactionId j trans) ++ second ++
      left.map .releases) = some r' := by
    rw [touchAll_append, touchAll_append, touchAll_append,
      touchAll_reads fun t ht => (hreads t ht).imp fun k hk => ⟨Finset.notMem_empty k, hk⟩,
      Option.bind_some, touchAll_reads hroot, Option.bind_some, hr, Option.bind_some]
    exact hr'
  refine releasedOnce_of_touchAll hall (Finset.notMem_empty i) ((hmem' i).2 ?_)
  -- the second pass releases the child, or the sweep does
  obtain ⟨c, hc⟩ : ∃ c, children[i]? = some c := ⟨_, List.getElem?_eq_getElem hi⟩
  by_cases hpass : ReleasedInPass j c
  · exact .inl ((hmem i).2 (.inr ⟨Nat.zero_le i, c, hc, hpass⟩))
  · exact .inr ((hleft i).2 ⟨Nat.zero_le i, c, hc, hpass⟩)

/-- An orphan is read after it has been released. -/
theorem not_releasedOnce_orphan (h : handleChildren j looks team trans children = .ok touches)
    (hc : children[i]? = some c) (horphan : IsOrphan j c) : ¬ ReleasedOnce i touches := by
  obtain ⟨⟨first, errors⟩, hfirst, h⟩ := bind_eq_ok.1 h
  obtain ⟨⟨second, left⟩, hsecond, h⟩ := bind_eq_ok.1 h
  obtain rfl := Except.ok.inj h
  have hreleases := releases_mem_errorTouches hfirst hc horphan
  have hreads := reads_mem_childTouches hsecond (List.getElem?_eq_some_iff.1 hc).1
  rw [Nat.zero_add] at hreleases hreads
  obtain ⟨before, after, rfl⟩ := List.append_of_mem hreleases
  have hsplit : before ++ .releases i :: after ++
      readError looks errors trans (transactionId j trans) ++ second ++ left.map .releases =
      before ++ .releases i :: (after ++
        readError looks errors trans (transactionId j trans) ++ second ++ left.map .releases) := by
    simp
  rw [hsplit]
  exact not_releasedOnce (by simp [hreads])

/-- **Who releases the children.**  The handling of the children of a trace comes to its end, and
every child is released once and not read after it, exactly if all children can be read and none of
them is an error without a parent. -/
theorem children_released_once_iff (j : JaegerEnv) (looks : Json → Bool) (team : Bytes)
    (trans : Json) (children : List Json) :
    (∃ touches, handleChildren j looks team trans children = .ok touches ∧
      ∀ i < children.length, ReleasedOnce i touches) ↔
      ∀ c ∈ children, Followable j c ∧ ¬ IsOrphan j c := by
  constructor
  · rintro ⟨touches, h, honce⟩ c hc
    refine ⟨handleChildren_ok_iff.1 ⟨touches, h⟩ c hc, fun horphan => ?_⟩
    obtain ⟨i, hi⟩ := List.mem_iff_getElem?.1 hc
    exact not_releasedOnce_orphan h hi horphan (honce i (List.getElem?_eq_some_iff.1 hi).1)
  · intro hall
    obtain ⟨touches, h⟩ := (@handleChildren_ok_iff j looks team trans children).2 fun c hc =>
      (hall c hc).1
    exact ⟨touches, h, fun i hi => releasedOnce_of_no_orphan h (fun c hc => (hall c hc).2) hi⟩

/-- An error of no span. -/
def orphan : Json := .obj [(cstr "processor", .obj [(cstr "event", .str (cstr "error"))])]

/-- An error without a parent is released by the first pass and read again by the second. -/
theorem orphan_released_early : ¬ ∀ (j : JaegerEnv) (looks : Json → Bool) (team : Bytes)
    (trans : Json) (children : List Json) (touches : List (Touch ℕ)),
    handleChildren j looks team trans children = .ok touches →
      ∀ i < children.length, ReleasedOnce i touches := by
  intro hall
  have hok : ∃ touches, handleChildren threeDocuments (fun _ => true) (cstr "a") rootTransaction
      [orphan] = .ok touches := ⟨_, rfl⟩
  obtain ⟨touches, htouches⟩ := hok
  have hat : [orphan][0]? = some orphan := rfl
  exact not_releasedOnce_orphan htouches hat ⟨rfl, rfl⟩
    (hall _ _ _ _ _ touches htouches 0 (by decide))

/-! ### The traces that are sent -/

theorem spanError_orphan (h : IsOrphan j c) : spanError j i c errors = .error .outOfBounds := by
  obtain ⟨processor, hprocessor, hevent⟩ := Option.bind_eq_some_iff.1 h.1
  unfold spanError eventOf
  rw [hprocessor, h.2]
  dsimp only
  rw [hevent]
  rfl

/-- The first pass, without what it does to the children. -/
theorem spanError_eq (h : ¬ IsOrphan j c) :
    spanError j i c errors = (errorTouch j i c errors).map Prod.snd := by
  unfold spanError errorTouch eventOf
  cases hprocessor : Json.get (cstr "processor") (some c) with
  | none => rfl
  | some processor =>
    have hname := eventName_eq (j := j) hprocessor
    dsimp only
    cases hevent : j.lib.getString (Json.get (cstr "event") (some processor)) with
    | none => rfl
    | some event =>
      have hbind : ∀ {α : Type} (f : Bytes → Outcome α), (nonNull (some event) >>= f) = f event :=
        fun _ => rfl
      rw [hbind, hbind]
      by_cases herror : event = cstr "error"
      · rw [if_pos herror, if_pos herror]
        cases hparent : Json.get (cstr "parent") (some c) with
        | none =>
          subst herror
          exact absurd ⟨hname.trans hevent, hparent⟩ h
        | some parent =>
          dsimp only
          cases j.lib.getString (Json.get (cstr "id") (some parent)) with
          | none => rfl
          | some id => rfl
      · rw [if_neg herror, if_neg herror]
        rfl

/-- The first pass comes to its end for children that it can read if none of them is an orphan. -/
theorem spanErrors_ok_iff : (∃ errors', spanErrors j i children errors = .ok errors') ↔
    (∃ r, errorTouches j i children errors = .ok r) ∧ ∀ c ∈ children, ¬ IsOrphan j c := by
  induction children generalizing i errors with
  | nil => exact iff_of_true ⟨_, rfl⟩ ⟨⟨_, rfl⟩, by simp⟩
  | cons c children ih =>
    rw [List.forall_mem_cons]
    constructor
    · rintro ⟨errors', h⟩
      obtain ⟨mid, hmid, hrest⟩ := bind_eq_ok.1 h
      have hc : ¬ IsOrphan j c := fun hc => by
        rw [spanError_orphan hc] at hmid
        cases hmid
      rw [spanError_eq hc] at hmid
      obtain ⟨⟨touches, mid'⟩, hfirst⟩ : ∃ r, errorTouch j i c errors = .ok r := by
        cases hr : errorTouch j i c errors with
        | error fault =>
          rw [hr] at hmid
          cases hmid
        | ok r => exact ⟨r, rfl⟩
      rw [hfirst] at hmid
      obtain rfl := Except.ok.inj hmid
      obtain ⟨⟨rest, hrest⟩, horphan⟩ := ih.1 ⟨errors', hrest⟩
      exact ⟨⟨_, bind_eq_ok.2 ⟨_, hfirst, bind_eq_ok.2 ⟨_, hrest, rfl⟩⟩⟩, hc, horphan⟩
    · rintro ⟨⟨r, h⟩, hc, horphan⟩
      obtain ⟨⟨touches, mid⟩, hfirst, h⟩ := bind_eq_ok.1 h
      obtain ⟨rest, hrest, -⟩ := bind_eq_ok.1 h
      obtain ⟨errors', herrors'⟩ := ih.2 ⟨⟨rest, hrest⟩, horphan⟩
      refine ⟨errors', bind_eq_ok.2 ⟨mid, ?_, herrors'⟩⟩
      rw [spanError_eq hc, hfirst]
      rfl

/-- The second pass sends children that it can read. -/
theorem jaegerizeChild_ok_iff {st : SecondPass} :
    (∃ st', jaegerizeChild j team i c st = .ok st') ↔
      (HasProcessor c →
        (∃ event, eventName j c = some event) ∧ ∃ team, teamOf j c = .ok team) := by
  unfold jaegerizeChild
  cases hprocessor : Json.get (cstr "processor") (some c) with
  | none => simp [HasProcessor, hprocessor]
  | some processor =>
    have hhas : HasProcessor c := by simp [HasProcessor, hprocessor]
    rw [imp_iff_right hhas, eventName_eq hprocessor]
    constructor
    · rintro ⟨st', h⟩
      obtain ⟨o, hteam, h⟩ := bind_eq_ok.1 h
      obtain ⟨event, hevent, -⟩ := bind_eq_ok.1 h
      exact ⟨⟨event, nonNull_eq_ok.1 hevent⟩, o, hteam⟩
    · rintro ⟨⟨event, hevent⟩, o, hteam⟩
      simp only [bind_eq_ok]
      by_cases hsent : event = cstr "transaction" ∨ event = cstr "span"
      · exact ⟨_, o, hteam, event, nonNull_eq_ok.2 hevent, if_pos hsent⟩
      · exact ⟨_, o, hteam, event, nonNull_eq_ok.2 hevent, if_neg hsent⟩

theorem jaegerizeChildren_ok_iff {st : SecondPass} :
    (∃ st', jaegerizeChildren j team i children st = .ok st') ↔
      ∀ c ∈ children, HasProcessor c →
        (∃ event, eventName j c = some event) ∧ ∃ team, teamOf j c = .ok team := by
  induction children generalizing i st with
  | nil => exact iff_of_true ⟨_, rfl⟩ (by simp)
  | cons c children ih =>
    rw [List.forall_mem_cons, ← @jaegerizeChild_ok_iff j team c i st]
    constructor
    · rintro ⟨st', h⟩
      obtain ⟨mid, hmid, h⟩ := bind_eq_ok.1 h
      exact ⟨⟨mid, hmid⟩, ih.1 ⟨st', h⟩⟩
    · rintro ⟨⟨mid, hmid⟩, hall⟩
      obtain ⟨st', hst'⟩ := (@ih (i + 1) mid).2 hall
      exact ⟨st', bind_eq_ok.2 ⟨mid, hmid, hst'⟩⟩

/-- A trace is sent if its root has a team that fits the buffer, all its children can be read and
none of them is an orphan. -/
theorem jaegerizeTrace_ok_iff :
    (∃ sending, jaegerizeTrace j trans children = .ok (some sending)) ↔
      (∃ team, teamOf j trans = .ok (some team)) ∧
        ∀ c ∈ children, Followable j c ∧ ¬ IsOrphan j c := by
  constructor
  · rintro ⟨sending, h⟩
    obtain ⟨o, hteam, h⟩ := bind_eq_ok.1 h
    cases o with
    | none => cases h
    | some team =>
      obtain ⟨errors, herrors, h⟩ := bind_eq_ok.1 h
      obtain ⟨st, hst, -⟩ := bind_eq_ok.1 h
      obtain ⟨hfirst, horphan⟩ := spanErrors_ok_iff.1 ⟨errors, herrors⟩
      refine ⟨⟨team, hteam⟩, fun c hc => ⟨?_, horphan c hc⟩⟩
      exact followable_iff.2
        ⟨errorTouches_ok_iff.1 hfirst c hc, jaegerizeChildren_ok_iff.1 ⟨st, hst⟩ c hc⟩
  · rintro ⟨⟨team, hteam⟩, hall⟩
    obtain ⟨errors, herrors⟩ := (@spanErrors_ok_iff j children 0 ∅).2
      ⟨errorTouches_ok_iff.2 fun c hc => (followable_iff.1 (hall c hc).1).1,
        fun c hc => (hall c hc).2⟩
    obtain ⟨st, hst⟩ := (@jaegerizeChildren_ok_iff j team children 0
      ⟨false, [⟨.root, j.jaegerDestUrl team⟩], 1⟩).2 fun c hc =>
        (followable_iff.1 (hall c hc).1).2
    exact ⟨_, bind_eq_ok.2 ⟨_, hteam, bind_eq_ok.2 ⟨_, herrors, bind_eq_ok.2 ⟨_, hst, rfl⟩⟩⟩⟩

end Tracemate.TransactionStore
