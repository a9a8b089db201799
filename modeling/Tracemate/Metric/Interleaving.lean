import Mathlib.Data.Finset.Basic
import Mathlib.Order.Interval.Finset.Nat
import Tracemate.Lib.Runs
import Tracemate.Metric.Flush

/-!
# Updates between the steps of a flush

Updates may fall between any two steps of a flush.  An entry counts as flushed when its stamp is
not older than its last update, and an entry that counts as flushed is skipped, or removed.

* `Provenance`: which updates an entry, the document, the message and the accepted outputs
  contain;
* `Forgets`: the flush skips or removes an entry, and an update of it is in no accepted output;
* `OpenTo`: the moments at which an update of a key is safe;
* `Accounted`: the invariant, and `accounted_step`, which keeps it for safe updates;
* `forgets_nothing`: in a run whose updates are all safe, the flush forgets nothing.
-/

namespace Tracemate.Metric

open Runs

/-! ### Where an update has got to -/

/-- The updates, by their position among all updates of the run, that are contained in the value
of an entry, in the document, in the message that is being sent, and in the accepted outputs. -/
structure Provenance where
  value : MetricKey → Finset ℕ
  document : Finset ℕ
  message : Finset ℕ
  accepted : Finset ℕ

namespace Provenance

/-- Before the first update. -/
def start : Provenance := ⟨fun _ => ∅, ∅, ∅, ∅⟩

/-- The body of the loop over the entries: an entry that is rendered passes on what it contains;
an aggregate entry is reset. -/
def afterRender (p : Provenance) (s : Scan) (key : MetricKey) (v : MetricValue) : Provenance :=
  if AlreadyFlushed v then p
  else if key.aggregate = false then
    if DueForJson s.now key v then { p with document := p.document ∪ p.value key } else p
  else if DueForKafka s.now v then
    { p with message := p.value key, value := Function.update p.value key ∅ }
  else p

/-- What an action does to the updates. -/
def after (p : Provenance) (w : World) : Action → Provenance
  | .update key _ _ =>
    { p with value := Function.update p.value key (insert w.updates.length (p.value key)) }
  | .startTeam => { p with document := ∅ }
  | .visit key _ =>
    match w.phase, w.table.lookup key with
    | .scan s, some v => p.afterRender s key v
    | _, _ => p
  | .produceAnswer ok =>
    { p with message := ∅, accepted := if ok then p.accepted ∪ p.message else p.accepted }
  | .journalAnswer ok =>
    { p with document := ∅, accepted := if ok then p.accepted ∪ p.document else p.accepted }
  | .delete =>
    match w.phase with
    | .delete (key :: _) => { p with value := Function.update p.value key ∅ }
    | _ => p
  | _ => p

end Provenance

/-- The updates of a key. -/
def applied (updates : List (MetricKey × Update)) (key : MetricKey) : Finset ℕ :=
  (Finset.range updates.length).filter fun i => (updates[i]?).map Prod.fst = some key

/-- The actions of the runs: no text updates, and every output is accepted. -/
def Accepting : Action → Prop
  | .update _ u _ => ∀ str, u ≠ .text str
  | .produceAnswer ok => ok = true
  | .journalAnswer ok => ok = true
  | _ => True

/-- The update is a text. -/
def Update.isText : Update → Bool
  | .text _ => true
  | _ => false

theorem Update.isText_eq_false_iff (u : Update) : u.isText = false ↔ ∀ str, u ≠ .text str := by
  cases u <;> simp [isText]

instance (a : Action) : Decidable (Accepting a) :=
  match a with
  | .update _ u _ => decidable_of_iff (u.isText = false) u.isText_eq_false_iff
  | .produceAnswer ok | .journalAnswer ok => inferInstanceAs (Decidable (ok = true))
  | .beginFlush _ | .startTeam | .visit _ _ | .endScan | .stampAggregate | .readClock _ | .stamp
  | .publish | .delete => inferInstanceAs (Decidable True)

/-- One step of such a run, with the provenance of the updates. -/
def tracedStep (owner : BitVec 32) (jsonLength : List MetricJson → ℕ) (x : World × Provenance)
    (a : Action) (y : World × Provenance) : Prop :=
  Step owner jsonLength x.1 a y.1 ∧ Accepting a ∧ y.2 = x.2.after x.1 a

/-- The step that an action makes in such a run. -/
def tracedNext (owner : BitVec 32) (jsonLength : List MetricJson → ℕ) (x : World × Provenance)
    (a : Action) : Option (World × Provenance) :=
  if Accepting a then (x.1.next owner jsonLength a).map fun w => (w, x.2.after x.1 a) else none

theorem tracedStep_of_next {owner : BitVec 32} {jsonLength : List MetricJson → ℕ}
    (x : World × Provenance) (a : Action) (y : World × Provenance)
    (h : tracedNext owner jsonLength x a = some y) : tracedStep owner jsonLength x a y := by
  unfold tracedNext at h
  split_ifs at h with haccept
  obtain ⟨w, hw, rfl⟩ := Option.map_eq_some_iff.1 h
  exact ⟨step_of_next hw, haccept, rfl⟩

/-- The flush skips the entry as already flushed, or schedules or removes it, and one of its
updates is in no accepted output. -/
def Forgets (x : World × Provenance) (a : Action) : Prop :=
  match a, x.1.phase with
  | .visit key _, .scan _ =>
    match x.1.table.lookup key with
    | some v => AlreadyFlushed v ∧ ¬ applied x.1.updates key ⊆ x.2.accepted
    | none => False
  | .delete, .delete (key :: _) => ¬ applied x.1.updates key ⊆ x.2.accepted
  | _, _ => False

/-- `Forgets`, decided. -/
def forgets (x : World × Provenance) (a : Action) : Bool :=
  match a, x.1.phase with
  | .visit key _, .scan _ =>
    match x.1.table.lookup key with
    | some v => decide (AlreadyFlushed v ∧ ¬ applied x.1.updates key ⊆ x.2.accepted)
    | none => false
  | .delete, .delete (key :: _) => decide (¬ applied x.1.updates key ⊆ x.2.accepted)
  | _, _ => false

theorem forgets_iff (x : World × Provenance) (a : Action) : forgets x a = true ↔ Forgets x a := by
  unfold forgets Forgets
  split
  · split <;> simp only [decide_eq_true_eq, Bool.false_eq_true]
  · exact decide_eq_true_iff
  · simp only [Bool.false_eq_true]

instance (x : World × Provenance) (a : Action) : Decidable (Forgets x a) :=
  decidable_of_iff (forgets x a = true) (forgets_iff x a)

/-! ### The safe moments -/

namespace Phase

/-- The keys that no update may reach before the flush is done with them: they are scheduled for
deletion, or their document is in the journal and their stamp is not read yet. -/
def frozen : Phase → List MetricKey
  | idle => []
  | begun _ => []
  | scan s => s.kafkaExpired
  | produce s _ _ => s.kafkaExpired
  | stampAggregate s _ => s.kafkaExpired
  | journal s _ => s.kafkaExpired
  | readClock s _ => s.kafkaExpired ++ s.jsonExpired
  | stamp s _ _ _ => s.kafkaExpired
  | publish s => s.kafkaExpired
  | delete todo => todo

/-- The keys in the document, before it is in the journal. -/
def rendered : Phase → List MetricKey
  | scan s => s.jsonExpired
  | produce s _ _ => s.jsonExpired
  | stampAggregate s _ => s.jsonExpired
  | journal s _ => s.jsonExpired
  | _ => []

/-- The stamps that are read already and not set yet. -/
def stamps : Phase → List (MetricKey × ℕ)
  | produce s key _ => [(key, s.now)]
  | stampAggregate s key => [(key, s.now)]
  | stamp _ _ flushedMs todo => todo.map fun key => (key, flushedMs)
  | _ => []

/-- A message is being sent. -/
def Sends : Phase → Prop
  | produce _ _ _ => True
  | _ => False

end Phase

/-- An update of the key is safe at this reading of the clock: the key is not scheduled for
deletion and not in a document without a stamp, and the stamps that the entry has or is about to
get are older. -/
def OpenTo (w : World) (key : MetricKey) (now : ℕ) : Prop :=
  key ∉ w.phase.frozen ∧ key ∉ w.phase.rendered ∧ (∀ st ∈ w.phase.stamps, st.1 = key → st.2 < now) ∧
    ∀ v ∈ w.table.lookup key, v.flushedMs = 0 ∨ v.flushedMs < now

instance (w : World) (key : MetricKey) (now : ℕ) : Decidable (OpenTo w key now) := by
  unfold OpenTo
  infer_instance

/-- Updates come at safe moments. -/
def Safe (w : World) : Action → Prop
  | .update key _ now => OpenTo w key now
  | _ => True

instance (w : World) (a : Action) : Decidable (Safe w a) :=
  match a with
  | .update key _ now => inferInstanceAs (Decidable (OpenTo w key now))
  | .beginFlush _ | .startTeam | .visit _ _ | .endScan | .produceAnswer _ | .stampAggregate
  | .journalAnswer _ | .readClock _ | .stamp | .publish | .delete => inferInstanceAs (Decidable True)

/-! ### The invariant -/

/-- The last update of the entry is younger than the stamp. -/
def SeenAfter (t : MetricTable) (key : MetricKey) (flushedMs : ℕ) : Prop :=
  ∀ v, t.lookup key = some v → flushedMs < v.lastSeen

/-- Every update is in the value of its entry, on its way or accepted; what counts as flushed is
accepted, also once the outstanding stamps are set. -/
structure Accounted (x : World × Provenance) : Prop where
  value : ∀ key, applied x.1.updates key ⊆ x.2.value key ∪ (x.2.message ∪ x.2.accepted)
  message : ¬ x.1.phase.Sends → x.2.message = ∅
  flushed : ∀ key v, x.1.table.lookup key = some v → AlreadyFlushed v →
    applied x.1.updates key ⊆ x.2.accepted
  frozen : ∀ key ∈ x.1.phase.frozen, applied x.1.updates key ⊆ x.2.accepted
  rendered : ∀ key ∈ x.1.phase.rendered,
    applied x.1.updates key ⊆ x.2.document ∪ x.2.accepted
  stamps : ∀ st ∈ x.1.phase.stamps,
    applied x.1.updates st.1 ⊆ x.2.message ∪ x.2.accepted ∨ SeenAfter x.1.table st.1 st.2

variable {owner : BitVec 32} {jsonLength : List MetricJson → ℕ} {w w' : World} {p p' : Provenance}
  {a : Action}

theorem accounted_start : Accounted (World.start, Provenance.start) where
  value key := by simp [applied, World.start]
  message _ := rfl
  flushed key v h := by simp [World.start] at h
  frozen key h := by cases h
  rendered key h := by cases h
  stamps st h := by cases h

theorem applied_append_self (updates : List (MetricKey × Update)) (key : MetricKey) (u : Update) :
    applied (updates ++ [(key, u)]) key = insert updates.length (applied updates key) := by
  ext i
  simp only [applied, List.length_append, List.length_singleton, Finset.mem_filter,
    Finset.mem_range, Finset.mem_insert]
  rcases lt_trichotomy i updates.length with h | rfl | h
  · rw [List.getElem?_append_left h]
    constructor
    · rintro ⟨-, hi⟩
      exact .inr ⟨h, hi⟩
    · rintro (rfl | ⟨-, hi⟩)
      · exact absurd h (lt_irrefl _)
      · exact ⟨by omega, hi⟩
  · simp
  · constructor
    · rintro ⟨hi, -⟩
      omega
    · rintro (hi | ⟨hi, -⟩) <;> omega

theorem applied_append_of_ne (updates : List (MetricKey × Update)) {key k : MetricKey} (u : Update)
    (h : k ≠ key) : applied (updates ++ [(key, u)]) k = applied updates k := by
  ext i
  simp only [applied, List.length_append, List.length_singleton, Finset.mem_filter,
    Finset.mem_range]
  rcases lt_trichotomy i updates.length with hi | rfl | hi
  · rw [List.getElem?_append_left hi]
    exact and_congr_left fun _ => iff_of_true (by omega) hi
  · simp [Ne.symm h]
  · exact iff_of_false (fun hc => by omega) (fun hc => by omega)

/-! ### Steps that keep the accounts -/

/-- A step that changes nothing but the phase and the clock, and leaves no more to do. -/
theorem Accounted.of_phase (h : Accounted (w, p)) {ph ph' : Phase} (hphase : w.phase = ph)
    (hsends : ¬ ph.Sends) (hfrozen : ph'.frozen ⊆ ph.frozen)
    (hrendered : ph'.rendered ⊆ ph.rendered) (hstamps : ph'.stamps ⊆ ph.stamps) (clock : ℕ) :
    Accounted ({ w with phase := ph', clock }, p) := by
  subst hphase
  exact ⟨h.value, fun _ => h.message hsends, h.flushed, fun k hk => h.frozen k (hfrozen hk),
    fun k hk => h.rendered k (hrendered hk), fun st hst => h.stamps st (hstamps hst)⟩

/-- A safe update is contained in the value of its entry, and the entry no longer counts as
flushed. -/
theorem accounted_update {key : MetricKey} {u : Update} {now : ℕ} {v : MetricValue}
    (h : Accounted (w, p)) (hu : ∀ str, u ≠ .text str) (hopen : OpenTo w key now)
    (hv : u.apply owner now (w.table.lookup key) = some v) :
    Accounted ({ w with
      table := w.table.insert key v, clock := now, updates := w.updates ++ [(key, u)] },
      p.after w (.update key u now)) := by
  obtain ⟨hfrozen, hrendered, hstamps, hflushed⟩ := hopen
  obtain ⟨hseen, hold⟩ := Update.apply_spec hu hv
  have hne : ∀ k, k ≠ key → applied (w.updates ++ [(key, u)]) k = applied w.updates k :=
    fun k => applied_append_of_ne w.updates u
  constructor
  · intro k
    by_cases hk : k = key
    · subst hk
      dsimp only [Provenance.after]
      rw [applied_append_self, Function.update_self, Finset.insert_union]
      exact Finset.insert_subset_insert _ (h.value k)
    · dsimp only [Provenance.after]
      rw [hne k hk, Function.update_of_ne hk]
      exact h.value k
  · exact h.message
  · intro k v' hv' hfl
    by_cases hk : k = key
    · subst hk
      rw [AList.lookup_insert] at hv'
      obtain rfl := Option.some.inj hv'
      -- its stamp is `0` or older than `now`
      have hlate : v.flushedMs = 0 ∨ v.flushedMs < now := by
        rcases hold with ⟨-, h0, -⟩ | ⟨v₀, hv₀, heq, -⟩
        · exact .inl h0
        · rw [heq]
          exact hflushed v₀ hv₀
      obtain ⟨hpos, hge⟩ := hfl
      rw [hseen] at hge
      omega
    · rw [AList.lookup_insert_ne hk] at hv'
      dsimp only
      rw [hne k hk]
      exact h.flushed k v' hv' hfl
  · intro k hk
    have hkey : k ≠ key := fun he => hfrozen (he ▸ hk)
    dsimp only
    rw [hne k hkey]
    exact h.frozen k hk
  · intro k hk
    have hkey : k ≠ key := fun he => hrendered (he ▸ hk)
    dsimp only
    rw [hne k hkey]
    exact h.rendered k hk
  · intro st hst
    by_cases hk : st.1 = key
    · refine .inr fun v' hv' => ?_
      dsimp only at hv'
      rw [hk, AList.lookup_insert] at hv'
      rw [← Option.some.inj hv', hseen]
      exact hstamps st hst hk
    · dsimp only
      rw [hne _ hk]
      refine (h.stamps st hst).imp id fun hs v' hv' => hs v' ?_
      rwa [AList.lookup_insert_ne hk] at hv'

@[simp] theorem frozen_afterVisit (s : Scan) :
    (afterVisit jsonLength s).frozen = s.kafkaExpired := by
  rcases afterVisit_cases jsonLength s with h | h <;> rw [h] <;> rfl

@[simp] theorem rendered_afterVisit (s : Scan) :
    (afterVisit jsonLength s).rendered = s.jsonExpired := by
  rcases afterVisit_cases jsonLength s with h | h <;> rw [h] <;> rfl

@[simp] theorem stamps_afterVisit (s : Scan) : (afterVisit jsonLength s).stamps = [] := by
  rcases afterVisit_cases jsonLength s with h | h <;> rw [h] <;> rfl

/-- An entry that is written back and counts as flushed only if it did before. -/
theorem flushed_insert {key : MetricKey} {v v' : MetricValue} {A : Finset ℕ}
    (h : ∀ k v, w.table.lookup k = some v → AlreadyFlushed v → applied w.updates k ⊆ A)
    (hv : w.table.lookup key = some v) (hflushed : AlreadyFlushed v' → AlreadyFlushed v)
    (k : MetricKey) (v₁ : MetricValue) (hv₁ : (w.table.insert key v').lookup k = some v₁)
    (hfl : AlreadyFlushed v₁) : applied w.updates k ⊆ A := by
  by_cases hk : k = key
  · subst hk
    rw [AList.lookup_insert] at hv₁
    rw [← Option.some.inj hv₁] at hfl
    exact h k v hv (hflushed hfl)
  · rw [AList.lookup_insert_ne hk] at hv₁
    exact h k v₁ hv₁ hfl

/-- An entry that is skipped, or scheduled for deletion. -/
theorem accounted_skip {s s' : Scan} {key : MetricKey} {v v' : MetricValue}
    (h : Accounted (w, p)) (hphase : w.phase = .scan s) (hv : w.table.lookup key = some v)
    (hflushed : AlreadyFlushed v' → AlreadyFlushed v)
    (hkafka : ∀ k ∈ s'.kafkaExpired, k ∈ s.kafkaExpired ∨ (k = key ∧ AlreadyFlushed v))
    (hjson : s'.jsonExpired = s.jsonExpired) :
    Accounted ({ w with table := w.table.insert key v', phase := .scan s' }, p) where
  value := h.value
  message _ := h.message (by rw [hphase]; exact id)
  flushed := flushed_insert h.flushed hv hflushed
  frozen k hk := by
    rcases hkafka k hk with hk | ⟨rfl, hfl⟩
    · exact h.frozen k (by rw [hphase]; exact hk)
    · exact h.flushed k v hv hfl
  rendered k hk := by
    apply h.rendered k
    rw [hphase]
    show k ∈ s.jsonExpired
    rwa [← hjson]
  stamps st hst := by cases hst

/-- An entry that is left for a later flush. -/
theorem accounted_leave {s s' : Scan} {key : MetricKey} {v : MetricValue}
    (h : Accounted (w, p)) (hphase : w.phase = .scan s) (hv : w.table.lookup key = some v)
    (hkafka : s'.kafkaExpired = s.kafkaExpired) (hjson : s'.jsonExpired = s.jsonExpired) :
    Accounted ({ w with
      table := w.table.insert key v, phase := afterVisit jsonLength s' }, p) where
  value := h.value
  message _ := h.message (by rw [hphase]; exact id)
  flushed := flushed_insert h.flushed hv id
  frozen k hk := by
    apply h.frozen k
    rw [hphase]
    rwa [frozen_afterVisit, hkafka] at hk
  rendered k hk := by
    apply h.rendered k
    rw [hphase]
    rwa [rendered_afterVisit, hjson] at hk
  stamps st hst := by simp at hst

/-- An entry that is rendered into the document. -/
theorem accounted_render {s s' : Scan} {key : MetricKey} {v : MetricValue}
    (h : Accounted (w, p)) (hphase : w.phase = .scan s) (hv : w.table.lookup key = some v)
    (hkafka : s'.kafkaExpired = s.kafkaExpired) (hjson : s'.jsonExpired = s.jsonExpired ++ [key]) :
    Accounted ({ w with table := w.table.insert key v, phase := afterVisit jsonLength s' },
      { p with document := p.document ∪ p.value key }) where
  value := h.value
  message _ := h.message (by rw [hphase]; exact id)
  flushed := flushed_insert h.flushed hv id
  frozen k hk := by
    apply h.frozen k
    rw [hphase]
    rwa [frozen_afterVisit, hkafka] at hk
  rendered k hk := by
    dsimp only at hk ⊢
    rw [rendered_afterVisit, hjson] at hk
    rcases List.mem_append.1 hk with hk | hk
    · have hold : applied w.updates k ⊆ p.document ∪ p.accepted :=
        h.rendered k (by rw [hphase]; exact hk)
      exact hold.trans (Finset.union_subset_union_left Finset.subset_union_left)
    · -- nothing is being sent, so that the updates of the entry are in its value or accepted
      have hmessage : p.message = ∅ := h.message (by rw [hphase]; exact id)
      have hval : applied w.updates key ⊆ p.value key ∪ (p.message ∪ p.accepted) := h.value key
      rw [hmessage, Finset.empty_union] at hval
      rw [List.mem_singleton.1 hk]
      exact hval.trans (Finset.union_subset_union_left Finset.subset_union_right)
  stamps st hst := by simp at hst

/-- An aggregate entry that is rendered into a message and reset. -/
theorem accounted_send {s s' : Scan} {key : MetricKey} {v : MetricValue} {message : MetricJson}
    (h : Accounted (w, p)) (hphase : w.phase = .scan s) (hv : w.table.lookup key = some v)
    (hkafka : s'.kafkaExpired = s.kafkaExpired) (hjson : s'.jsonExpired = s.jsonExpired) :
    Accounted ({ w with
      table := w.table.insert key (resetValue v), phase := .produce s' key message },
      { p with message := p.value key, value := Function.update p.value key ∅ }) := by
  have hmessage : p.message = ∅ := h.message (by rw [hphase]; exact id)
  have hval : ∀ k, applied w.updates k ⊆ p.value k ∪ p.accepted := fun k => by
    have hk : applied w.updates k ⊆ p.value k ∪ (p.message ∪ p.accepted) := h.value k
    rwa [hmessage, Finset.empty_union] at hk
  constructor
  · intro k
    by_cases hk : k = key
    · subst hk
      dsimp only
      rw [Function.update_self, Finset.empty_union]
      exact hval k
    · dsimp only
      rw [Function.update_of_ne hk]
      exact (hval k).trans (Finset.union_subset_union_right Finset.subset_union_right)
  · intro hs
    exact absurd trivial hs
  · refine flushed_insert h.flushed hv fun hreset => ?_
    exact absurd hreset.1 (lt_irrefl 0)
  · intro k hk
    apply h.frozen k
    rw [hphase]
    show k ∈ s.kafkaExpired
    rwa [← hkafka]
  · intro k hk
    apply h.rendered k
    rw [hphase]
    show k ∈ s.jsonExpired
    rwa [← hjson]
  · intro st hst
    rw [List.mem_singleton.1 hst]
    exact .inl (hval key)

/-- A visit puts what it renders into the document or the message. -/
theorem accounted_visit {s : Scan} {key : MetricKey} {rand : ℕ} {v : MetricValue}
    (h : Accounted (w, p)) (hphase : w.phase = .scan s) (hv : w.table.lookup key = some v) :
    Accounted ({ w with
      table := w.table.insert key (visit jsonLength s key v rand).1
      phase := (visit jsonLength s key v rand).2 }, p.after w (.visit key rand)) := by
  have hafter : p.after w (.visit key rand) = p.afterRender s key v := by
    simp only [Provenance.after, hphase, hv]
  rw [hafter]
  unfold Provenance.afterRender
  rcases visit_cases jsonLength s key v rand with
    ⟨hexp, hvis⟩ | ⟨hfl, hvis⟩ | ⟨hfl, hagg, hdue, hvis⟩ | ⟨hfl, hagg, hdue, hvis⟩ |
      ⟨hfl, hjson, hkafka, hvis⟩ <;> rw [hvis]
  · have hfl : AlreadyFlushed v := ⟨hexp.1, hexp.2.1⟩
    rw [if_pos hfl]
    refine accounted_skip h hphase hv (fun _ => hfl) (fun k hk => ?_) rfl
    rcases List.mem_append.1 hk with hk | hk
    · exact .inl hk
    · exact .inr ⟨List.mem_singleton.1 hk, hfl⟩
  · rw [if_pos hfl]
    exact accounted_skip h hphase hv id (fun k hk => .inl hk) rfl
  · rw [if_neg hfl, if_pos hagg, if_pos hdue]
    exact accounted_render h hphase hv rfl rfl
  · rw [if_neg hfl, if_neg (by simp [hagg]), if_pos hdue]
    exact accounted_send h hphase hv rfl rfl
  · rw [if_neg hfl]
    by_cases hagg : key.aggregate = false
    · rw [if_pos hagg, if_neg (hjson hagg)]
      exact accounted_leave h hphase hv rfl rfl
    · rw [if_neg hagg, if_neg (hkafka (by simpa using hagg))]
      exact accounted_leave h hphase hv rfl rfl

/-- Setting an outstanding stamp: if the entry counts as flushed then, it is accounted for. -/
theorem flushed_stampEntry {key : MetricKey} {flushedMs : ℕ} (h : Accounted (w, p))
    (hmessage : p.message = ∅) (hst : (key, flushedMs) ∈ w.phase.stamps) (k : MetricKey)
    (v : MetricValue) (hv : (stampEntry w.table key flushedMs).lookup k = some v)
    (hfl : AlreadyFlushed v) : applied w.updates k ⊆ p.accepted := by
  unfold stampEntry at hv
  cases hold : w.table.lookup key with
  | none =>
    rw [hold] at hv
    exact h.flushed k v hv hfl
  | some v₀ =>
    simp only [hold] at hv
    by_cases hk : k = key
    · subst hk
      rw [AList.lookup_insert] at hv
      obtain rfl := Option.some.inj hv
      have hstamp : applied w.updates k ⊆ p.message ∪ p.accepted ∨
          SeenAfter w.table k flushedMs := h.stamps _ hst
      rcases hstamp with hsub | hseen
      · rwa [hmessage, Finset.empty_union] at hsub
      · exact absurd hfl.2 (not_le.2 (hseen v₀ hold))
    · rw [AList.lookup_insert_ne hk] at hv
      exact h.flushed k v hv hfl

/-- A stamp does not touch `last_seen`. -/
theorem SeenAfter.stampEntry {t : MetricTable} {k key : MetricKey} {r flushedMs : ℕ}
    (h : SeenAfter t k r) : SeenAfter (stampEntry t key flushedMs) k r := by
  intro v hv
  unfold Metric.stampEntry at hv
  cases hold : t.lookup key with
  | none =>
    rw [hold] at hv
    exact h v hv
  | some v₀ =>
    simp only [hold] at hv
    by_cases hk : k = key
    · subst hk
      rw [AList.lookup_insert] at hv
      rw [← Option.some.inj hv]
      exact h v₀ hold
    · rw [AList.lookup_insert_ne hk] at hv
      exact h v hv

/-- Setting an outstanding stamp. -/
theorem accounted_stamp {key : MetricKey} {flushedMs : ℕ} {ph ph' : Phase} (h : Accounted (w, p))
    (hphase : w.phase = ph) (hsends : ¬ ph.Sends) (hst : (key, flushedMs) ∈ ph.stamps)
    (hfrozen : ph'.frozen ⊆ ph.frozen) (hrendered : ph'.rendered ⊆ ph.rendered)
    (hstamps : ph'.stamps ⊆ ph.stamps) :
    Accounted ({ w with table := stampEntry w.table key flushedMs, phase := ph' }, p) := by
  subst hphase
  exact ⟨h.value, fun _ => h.message hsends, flushed_stampEntry h (h.message hsends) hst,
    fun k hk => h.frozen k (hfrozen hk), fun k hk => h.rendered k (hrendered hk),
    fun st hst => (h.stamps st (hstamps hst)).imp id SeenAfter.stampEntry⟩

/-- Kafka accepts the message: its updates are accepted. -/
theorem accounted_produced {s : Scan} {key : MetricKey} {message : MetricJson}
    (h : Accounted (w, p)) (hphase : w.phase = .produce s key message) :
    Accounted ({ w with topic := w.topic ++ [message], phase := .stampAggregate s key },
      p.after w (.produceAnswer true)) where
  value k := by
    have hval : applied w.updates k ⊆ p.value k ∪ (p.message ∪ p.accepted) := h.value k
    simpa only [Provenance.after, if_true, Finset.empty_union, Finset.union_comm p.accepted]
  message _ := rfl
  flushed k v hv hfl := (h.flushed k v hv hfl).trans Finset.subset_union_left
  frozen k hk := by
    have hold : applied w.updates k ⊆ p.accepted := h.frozen k (by rw [hphase]; exact hk)
    exact hold.trans Finset.subset_union_left
  rendered k hk := by
    have hold : applied w.updates k ⊆ p.document ∪ p.accepted :=
      h.rendered k (by rw [hphase]; exact hk)
    exact hold.trans (Finset.union_subset_union_right Finset.subset_union_left)
  stamps st hst := by
    have hold : applied w.updates st.1 ⊆ p.message ∪ p.accepted ∨ SeenAfter w.table st.1 st.2 :=
      h.stamps st (by rw [hphase]; exact hst)
    simpa only [Provenance.after, if_true, Finset.empty_union, Finset.union_comm p.accepted]

/-- The journal accepts the document: its updates are accepted, and its entries wait for their
stamp. -/
theorem accounted_journaled {s : Scan} {final : Bool} {journal : List (List MetricJson)}
    (h : Accounted (w, p)) (hphase : w.phase = .journal s final) :
    Accounted ({ w with journal, phase := .readClock s final },
      p.after w (.journalAnswer true)) where
  value k := by
    have hval : applied w.updates k ⊆ p.value k ∪ (p.message ∪ p.accepted) := h.value k
    refine hval.trans (Finset.union_subset_union_right (Finset.union_subset_union_right ?_))
    exact Finset.subset_union_left
  message _ := h.message (by rw [hphase]; exact id)
  flushed k v hv hfl := (h.flushed k v hv hfl).trans Finset.subset_union_left
  frozen k hk := by
    rcases List.mem_append.1 hk with hk | hk
    · have hold : applied w.updates k ⊆ p.accepted := h.frozen k (by rw [hphase]; exact hk)
      exact hold.trans Finset.subset_union_left
    · have hold : applied w.updates k ⊆ p.document ∪ p.accepted :=
        h.rendered k (by rw [hphase]; exact hk)
      rwa [Finset.union_comm] at hold
  rendered k hk := by cases hk
  stamps st hst := by cases hst

/-- The clock is read for the stamps of the document. -/
theorem accounted_readClock {s : Scan} {final : Bool} {now : ℕ} (h : Accounted (w, p))
    (hphase : w.phase = .readClock s final) :
    Accounted ({ w with clock := now, phase := .stamp s final now s.jsonExpired }, p) where
  value := h.value
  message _ := h.message (by rw [hphase]; exact id)
  flushed := h.flushed
  frozen k hk := h.frozen k (by rw [hphase]; exact List.mem_append_left _ hk)
  rendered k hk := by cases hk
  stamps st hst := by
    obtain ⟨k, hk, rfl⟩ := List.mem_map.1 hst
    have hold : applied w.updates k ⊆ p.accepted :=
      h.frozen k (by rw [hphase]; exact List.mem_append_right _ hk)
    exact .inl (hold.trans Finset.subset_union_right)

/-- An entry that is removed is accounted for. -/
theorem accounted_delete {key : MetricKey} {todo : List MetricKey} (h : Accounted (w, p))
    (hphase : w.phase = .delete (key :: todo)) :
    Accounted ({ w with table := w.table.erase key, phase := .delete todo },
      p.after w .delete) := by
  have hafter : p.after w .delete = { p with value := Function.update p.value key ∅ } := by
    simp only [Provenance.after, hphase]
  have hfrozen : ∀ k ∈ key :: todo, applied w.updates k ⊆ p.accepted := fun k hk =>
    h.frozen k (by rw [hphase]; exact hk)
  rw [hafter]
  refine ⟨fun k => ?_, fun _ => h.message (by rw [hphase]; exact id), fun k v hv hfl => ?_,
    fun k hk => hfrozen k (List.mem_cons_of_mem _ hk), (fun _ hk => nomatch hk),
    (fun _ hst => nomatch hst)⟩
  · by_cases hk : k = key
    · rw [hk]
      have hkey := hfrozen key List.mem_cons_self
      exact hkey.trans (Finset.subset_union_right.trans Finset.subset_union_right)
    · dsimp only
      rw [Function.update_of_ne hk]
      exact h.value k
  · by_cases hk : k = key
    · rw [hk, AList.lookup_erase] at hv
      cases hv
    · rw [AList.lookup_erase_ne hk] at hv
      exact h.flushed k v hv hfl

/-- Every step at a safe moment keeps the accounts. -/
theorem accounted_step {x y : World × Provenance} (h : Accounted x) (hsafe : Safe x.1 a)
    (hs : tracedStep owner jsonLength x a y) : Accounted y := by
  obtain ⟨w, p⟩ := x
  obtain ⟨w', p'⟩ := y
  obtain ⟨hs, haccept, rfl⟩ := hs
  cases hs with
  | update _ _ hv => exact accounted_update h haccept hsafe hv
  | visit hphase hv => exact accounted_visit h hphase hv
  | produced hphase => exact accounted_produced h hphase
  | journaled hphase => exact accounted_journaled h hphase
  | readClock hphase => exact accounted_readClock h hphase
  | delete hphase => exact accounted_delete h hphase
  | notProduced => cases haccept
  | notJournaled => cases haccept
  | @stampAggregate s key hphase =>
    refine accounted_stamp h hphase id (List.mem_singleton_self _) ?_ ?_ ?_
    · rw [frozen_afterVisit]
      exact List.Subset.refl _
    · rw [rendered_afterVisit]
      exact List.Subset.refl _
    · rw [stamps_afterVisit]
      exact List.nil_subset _
  | stamp hphase =>
    exact accounted_stamp h hphase id List.mem_cons_self (List.Subset.refl _) (List.Subset.refl _)
      (List.subset_cons_self _ _)
  | beginFlush hphase =>
    refine h.of_phase hphase id ?_ ?_ ?_ _ <;> exact List.Subset.refl _
  | startTeam hphase =>
    exact ⟨h.value, fun _ => h.message (by rw [hphase]; exact id), h.flushed,
      (fun _ hk => nomatch hk), (fun _ hk => nomatch hk), (fun _ hst => nomatch hst)⟩
  | endScan hphase =>
    refine h.of_phase hphase id ?_ ?_ ?_ _ <;> exact List.Subset.refl _
  | @stamped s final flushedMs hphase =>
    cases final
    · refine h.of_phase hphase id ?_ ?_ ?_ _ <;> exact List.Subset.refl _
    · refine h.of_phase hphase id ?_ ?_ ?_ _ <;> exact List.Subset.refl _
  | publish hphase =>
    refine h.of_phase hphase id ?_ ?_ ?_ _ <;> exact List.Subset.refl _
  | deleted hphase =>
    have hdelete : w.phase = .delete [] := hphase
    have hafter : p.after w .delete = p := by simp only [Provenance.after, hdelete]
    rw [hafter]
    refine h.of_phase hphase id ?_ ?_ ?_ _ <;> exact List.Subset.refl _

/-- An accounted state forgets nothing. -/
theorem Accounted.not_forgets {x : World × Provenance} (h : Accounted x) (a : Action) :
    ¬ Forgets x a := by
  intro hf
  unfold Forgets at hf
  split at hf
  · split at hf
    case h_1 hv => exact hf.2 (h.flushed _ _ hv hf.1)
    case h_2 => exact hf
  case h_2 key todo hphase =>
    exact hf (h.frozen key (by rw [hphase]; exact List.mem_cons_self))
  case h_3 => exact hf

/-! ### Runs -/

/-- The key of an immediate request counter. -/
def immediateCount : MetricKey := ⟨1000, false, true, CStr.cstr "request_count"⟩

/-- A counter is updated, and updated again in a flush or after it; the next flush visits it. -/
def countTwice (inFlush : Bool) : List Action :=
  [.update immediateCount (.counter 1) 2000, .beginFlush 3000, .startTeam,
    .visit immediateCount 0, .endScan, .journalAnswer true] ++
    (if inFlush then [.update immediateCount (.counter 1) 3001] else []) ++
    [.readClock 3002, .stamp, .stamp, .publish, .delete] ++
    (if inFlush then [] else [.update immediateCount (.counter 1) 3003]) ++
    [.beginFlush 60000, .startTeam, .visit immediateCount 0]

/-- The events and the last state of these actions. -/
def countTwiceRun (inFlush : Bool) :
    Option (List (Event (World × Provenance) Action) × World × Provenance) :=
  exec (tracedNext 7 fun _ => 0) (World.start, Provenance.start) (countTwice inFlush)

end Tracemate.Metric
