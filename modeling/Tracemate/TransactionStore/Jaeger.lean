import Tracemate.Lib.Outcome
import Tracemate.TransactionStore.Marks

/-!
# The traces that go to Jaeger

`tm_transaction_store_process_jaeger`: the marks of both environments are visited in the order of
their keys; the trace of a mark whose root record has not been modified for the lookback time goes
to Jaeger, and the mark is deleted.

* `JaegerEnv`: the libraries and settings, and how the bytes of a record are read;
* `getChildren`: `_tm_transaction_store_get_children`;
* `spanErrors`, `jaegerizeChildren`, `jaegerizeTrace`: the two passes over the children of a trace,
  with the calls of `jaegerize_transaction` and `jaegerize_span`;
* `visitMark`, `visitMarks`: the body of the loop over the marks, and the loop;
* `tmTransactionStoreProcessJaeger`: the function;
* `Visit`, `visit_of_visitMark`: what the body of the loop does, by cases;
* `MarksDeleted`: the function changes the databases `jaeger` only, where it deletes marks;
* `HandedFrom`, `processJaeger_spec`: where a trace that is handed to Jaeger comes from.
-/

namespace Tracemate.TransactionStore

open CStr JsonC Lmdb COutcome Outcome

/-- The libraries, the field `jaeger_dest_url` of the teams, and how the bytes of a record are read
where the code expects another kind of record. -/
structure JaegerEnv where
  lib : Conversions
  jaegerDestUrl : Bytes → Bytes
  /-- `mtev_stream_decompress` -/
  decompress : Bytes → Option Bytes
  /-- `mtev_json_tokener_parse_ex` -/
  parse : Bytes → Option Json
  otherAsRoot : Stored → StoredRoot
  otherAsChild : Stored → StoredChild

namespace JaegerEnv

/-- A record, read as a root record. -/
def asRoot (j : JaegerEnv) : Stored → StoredRoot
  | .root r => r
  | v => j.otherAsRoot v

/-- A record, read as a child record. -/
def asChild (j : JaegerEnv) : Stored → StoredChild
  | .child c => c
  | v => j.otherAsChild v

/-- The text of a record's document, if it can be decompressed. -/
def text (j : JaegerEnv) (compressed : Bool) (data : Bytes) : Option Bytes :=
  if compressed then j.decompress data else some data

end JaegerEnv

variable (j : JaegerEnv)

/-! ### The children of a trace -/

/-- `MAX_CHILD_COUNT`. -/
def maxChildCount : ℕ := 1000

/-- The loop of `_tm_transaction_store_get_children` over the records whose keys start with the
trace id. -/
def collectChildren (id : Bytes) : List (Bytes × Stored) → List Json → List Json
  | [], children => children
  | (key, v) :: records, children =>
    -- the root key is skipped
    if key.length = id.length then collectChildren id records children
    else
      let s := j.asChild v
      match j.text s.compressed s.data with
      -- the function returns `0`, whatever it has read so far
      | none => []
      | some text =>
        match j.parse text with
        | none => collectChildren id records children
        | some json =>
          let children := children ++ [json]
          if children.length ≥ maxChildCount then children
          else collectChildren id records children

/-- `_tm_transaction_store_get_children`. -/
def getChildren (records : List (Bytes × Stored)) (id : Bytes) : List Json :=
  collectChildren j id
    ((records.dropWhile fun p => p.1 < id).takeWhile fun p => id.isPrefixOf p.1) []

/-! ### One trace -/

/-- A document of a trace: the root transaction, or a child by its place in `children`. -/
inductive Document
  | root
  | child (i : ℕ)
  deriving DecidableEq

/-- A call of `jaegerize_transaction` or `jaegerize_span`. -/
structure Post where
  document : Document
  destination : Bytes
  deriving DecidableEq

/-- The team of a document, in `root_span_team[128]` or `span_team[128]`. -/
def teamOf (doc : Json) : Outcome (Option Bytes) :=
  match tmGetTeam (tmServiceName j.lib (some doc)) with
  | none => .ok none
  | some team => do
    let team ← fitting 128 team
    .ok (some team)

/-- The string `processor.event`. -/
def eventOf (processor : Json) : Outcome Bytes :=
  nonNull (j.lib.getString (Json.get (cstr "event") (some processor)))

/-- The body of the first pass, for the child at the place `i`. -/
def spanError (i : ℕ) (child : Json) (errors : Db ℕ) : Outcome (Db ℕ) :=
  match Json.get (cstr "processor") (some child) with
  | none => .ok errors
  | some processor => do
    let event ← eventOf j processor
    if event = cstr "error" then
      match Json.get (cstr "parent") (some child) with
      -- the document is freed here, and read again in the second pass
      | none => .error .outOfBounds
      | some parent => do
        let parentHex ← nonNull (j.lib.getString (Json.get (cstr "id") (some parent)))
        .ok (if parentHex ∈ errors then errors else errors.insert parentHex i)
    else .ok errors

/-- The first pass, which maps the spans to their errors. -/
def spanErrors : ℕ → List Json → Db ℕ → Outcome (Db ℕ)
  | _, [], errors => .ok errors
  | i, child :: children, errors => do
    let errors ← spanError j i child errors
    spanErrors (i + 1) children errors

/-- The variables of the second pass: `rejaegered_root`, the calls, and what is added to
`jaegered_count`. -/
structure SecondPass where
  rejaegeredRoot : Bool
  posts : List Post
  count : ℕ

/-- The body of the second pass, for the child at the place `i`; `team` is that of the root. -/
def jaegerizeChild (team : Bytes) (i : ℕ) (child : Json) (st : SecondPass) : Outcome SecondPass :=
  match Json.get (cstr "processor") (some child) with
  | none => .ok st
  | some processor => do
    -- the other team, if it is another one
    let other := (← teamOf j child).filter (· ≠ team)
    let again : List Post :=
      match other with
      | some other => if st.rejaegeredRoot then [] else [⟨.root, j.jaegerDestUrl other⟩]
      | none => []
    let rejaegeredRoot := st.rejaegeredRoot || other.isSome
    let event ← eventOf j processor
    if event = cstr "transaction" ∨ event = cstr "span" then
      .ok ⟨rejaegeredRoot, st.posts ++ again ++ [⟨.child i, j.jaegerDestUrl team⟩] ++
        (other.map fun other => ⟨.child i, j.jaegerDestUrl other⟩).toList, st.count + 1⟩
    else .ok ⟨rejaegeredRoot, st.posts ++ again, st.count⟩

/-- The second pass. -/
def jaegerizeChildren (team : Bytes) : ℕ → List Json → SecondPass → Outcome SecondPass
  | _, [], st => .ok st
  | i, child :: children, st => do
    let st ← jaegerizeChild j team i child st
    jaegerizeChildren team (i + 1) children st

/-- What is sent of a trace: the root's team, the errors that go with the spans, the calls, and
what is added to `jaegered_count`. -/
structure Sending where
  team : Bytes
  spanErrors : Db ℕ
  posts : List Post
  count : ℕ

/-- What is done with a root transaction and its children; nothing if the root has no team. -/
def jaegerizeTrace (trans : Json) (children : List Json) : Outcome (Option Sending) := do
  match ← teamOf j trans with
  | none => .ok none
  | some team => do
    let errors ← spanErrors j 0 children ∅
    -- first the root, then the children
    let st ← jaegerizeChildren j team 0 children
      ⟨false, [⟨.root, j.jaegerDestUrl team⟩], 1⟩
    .ok (some ⟨team, errors, st.posts, st.count⟩)

/-! ### The marks -/

/-- What LMDB answers: whether the read transaction of an environment and its cursors are opened,
whether the transaction for the deletion of a mark is begun, and whether the mark is deleted. -/
structure JaegerAnswers where
  read : Side → Bool
  writeTxn : Bytes → Bool
  deletes : Bytes → Bool

/-- A trace that is handed to Jaeger. -/
structure Handed where
  key : Bytes
  trans : Json
  children : List Json
  sending : Sending

/-- `jaegered_count`, the traces that are handed to Jaeger, and those whose document is found
unreadable. -/
structure JaegerReport where
  jaegeredCount : ℕ
  handed : List Handed
  unreadable : List Bytes

/-- Where the body of the loop ends: with the next mark, with `break`, or with `return 0`. -/
inductive Control
  | next
  | stop
  | leave
  deriving DecidableEq

/-- `JAEGER_MAX_COUNT`. -/
def jaegerMaxCount : ℕ := 200

/-- `mtev_now_ms() - default_lookback_secs * 1000UL`. -/
def timeMs (defaultLookbackSecs : Int32) (now : ℕ) : ℕ :=
  (((now : ℤ) - defaultLookbackSecs.toInt * 1000) % 2 ^ 64).toNat

/-- The transaction that deletes a mark; `none` if it is not begun. -/
def deleteMark (s : Store) (side : Side) (key : Bytes) (a : JaegerAnswers) : Option Store :=
  if a.writeTxn key then
    if a.deletes key then
      match (s.side side).env.del (s.side side).jaegerDbi key with
      | some env => some (s.commit side env)
      | none => some s
    else some s
  else none

/-- The traces of a report after one more has been read: its root transaction is sent, if the
document has one. -/
def jaegerizeDocument (json : Json) (records : List (Bytes × Stored)) (key : Bytes) :
    Outcome (Option Handed) :=
  match Json.get (cstr "transaction") (some json) with
  | none => .ok none
  | some transaction => do
    let children := getChildren j records key
    let sending ← jaegerizeTrace j transaction children
    .ok (sending.map fun sending => ⟨key, transaction, children, sending⟩)

section Loop

-- the environment as its read transaction sees it, and the store that the deletions change
variable (side : Side) (s : Store) (timeMs : ℕ) (a : JaegerAnswers)

/-- The body of the loop over the marks. -/
def visitMark (entry : Bytes × Stored) (st : Store × JaegerReport) :
    Outcome ((Store × JaegerReport) × Control) :=
  match markedRecord s side entry.1 entry.2 with
  -- a missing parent
  | none => .ok (st, .next)
  | some record =>
    let ss := j.asRoot record
    if ss.lastModifiedMs ≤ timeMs then
      match j.text ss.compressed ss.data with
      -- `mdb_cursor_del` is refused in a transaction that only reads
      | none => .ok ((st.1, { st.2 with unreadable := st.2.unreadable ++ [entry.1] }), .next)
      | some text =>
        match j.parse text with
        | none =>
          let report := { st.2 with unreadable := st.2.unreadable ++ [entry.1] }
          match deleteMark st.1 side entry.1 a with
          | none => .ok ((st.1, report), .leave)
          | some store => .ok ((store, report), .next)
        | some json => do
          let handed ← jaegerizeDocument j json
            ((s.side side).env.cursor (s.side side).dbi) entry.1
          let count := (handed.map fun h => h.sending.count).getD 0
          let report := { st.2 with
            jaegeredCount := st.2.jaegeredCount + count + 1
            handed := st.2.handed ++ handed.toList }
          match deleteMark st.1 side entry.1 a with
          | none => .ok ((st.1, report), .leave)
          | some store =>
            .ok ((store, report), if report.jaegeredCount ≥ jaegerMaxCount then .stop else .next)
    else .ok (st, .next)

/-- The loop over the marks, and whether the function returns in it. -/
def visitMarks : List (Bytes × Stored) → Store × JaegerReport →
    Outcome ((Store × JaegerReport) × Bool)
  | [], st => .ok (st, false)
  | entry :: entries, st => do
    let (st, control) ← visitMark j side s timeMs a entry st
    match control with
    | .next => visitMarks entries st
    | .stop => .ok (st, false)
    | .leave => .ok (st, true)

/-- The body of the loop over the two environments. -/
def visitSide (st : Store × JaegerReport) : Outcome ((Store × JaegerReport) × Bool) :=
  if a.read side then
    visitMarks j side s timeMs a ((s.side side).env.cursor (s.side side).jaegerDbi) st
  else .ok (st, true)

end Loop

/-- `tm_transaction_store_process_jaeger`: the store, the report and what is returned. -/
def tmTransactionStoreProcessJaeger (s : Store) (now : ℕ) (a : JaegerAnswers) :
    Outcome (Store × JaegerReport × ℕ) := do
  let timeMs := timeMs s.defaultLookbackSecs now
  let (st, returns) ← visitSide j .current s timeMs a (s, ⟨0, [], []⟩)
  if returns then .ok (st.1, st.2, 0)
  else do
    let (st, returns) ← visitSide j .last st.1 timeMs a st
    .ok (st.1, st.2, if returns then 0 else st.2.jaegeredCount)

/-! ### What a visit does -/

variable {j} {side : Side} {s s' : Store} {time now : ℕ} {a : JaegerAnswers}
  {entry : Bytes × Stored} {st st' : Store × JaegerReport} {control : Control}

/-- A visit of a mark: the state and the control after it. -/
inductive Visit (j : JaegerEnv) (side : Side) (s : Store) (time : ℕ) (a : JaegerAnswers)
    (entry : Bytes × Stored) (st : Store × JaegerReport) : Store × JaegerReport → Control → Prop
  /-- There is no record for the mark, or it has been modified too late. -/
  | skipped : (∀ record, markedRecord s side entry.1 entry.2 = some record →
        ¬ (j.asRoot record).lastModifiedMs ≤ time) →
      Visit j side s time a entry st st .next
  /-- The document cannot be decompressed; the mark stays. -/
  | unreadable {record : Stored} : markedRecord s side entry.1 entry.2 = some record →
      (j.asRoot record).lastModifiedMs ≤ time →
      j.text (j.asRoot record).compressed (j.asRoot record).data = none →
      Visit j side s time a entry st
        (st.1, { st.2 with unreadable := st.2.unreadable ++ [entry.1] }) .next
  /-- The document cannot be parsed. -/
  | unparsed {record : Stored} {text : Bytes} :
      markedRecord s side entry.1 entry.2 = some record →
      (j.asRoot record).lastModifiedMs ≤ time →
      j.text (j.asRoot record).compressed (j.asRoot record).data = some text →
      j.parse text = none →
      Visit j side s time a entry st
        ((deleteMark st.1 side entry.1 a).getD st.1,
          { st.2 with unreadable := st.2.unreadable ++ [entry.1] })
        (if (deleteMark st.1 side entry.1 a).isNone then .leave else .next)
  /-- The trace is sent, if its root transaction is there and has a team. -/
  | document {record : Stored} {text : Bytes} {json : Json} {handed : Option Handed} :
      markedRecord s side entry.1 entry.2 = some record →
      (j.asRoot record).lastModifiedMs ≤ time →
      j.text (j.asRoot record).compressed (j.asRoot record).data = some text →
      j.parse text = some json →
      jaegerizeDocument j json ((s.side side).env.cursor (s.side side).dbi) entry.1 = .ok handed →
      Visit j side s time a entry st
        ((deleteMark st.1 side entry.1 a).getD st.1,
          { st.2 with
            jaegeredCount :=
              st.2.jaegeredCount + (handed.map fun h => h.sending.count).getD 0 + 1
            handed := st.2.handed ++ handed.toList })
        (if (deleteMark st.1 side entry.1 a).isNone then .leave
        else if st.2.jaegeredCount + (handed.map fun h => h.sending.count).getD 0 + 1 ≥
          jaegerMaxCount then .stop else .next)

theorem visit_of_visitMark (h : visitMark j side s time a entry st = .ok (st', control)) :
    Visit j side s time a entry st st' control := by
  unfold visitMark at h
  cases hrecord : markedRecord s side entry.1 entry.2 with
  | none =>
    rw [hrecord] at h
    obtain ⟨rfl, rfl⟩ := Prod.mk.inj (Except.ok.inj h)
    exact .skipped fun record hr => by simp [hrecord] at hr
  | some record =>
    rw [hrecord] at h
    dsimp only at h
    by_cases hquiet : (j.asRoot record).lastModifiedMs ≤ time
    · rw [if_pos hquiet] at h
      cases htext : j.text (j.asRoot record).compressed (j.asRoot record).data with
      | none =>
        rw [htext] at h
        obtain ⟨rfl, rfl⟩ := Prod.mk.inj (Except.ok.inj h)
        exact .unreadable hrecord hquiet htext
      | some text =>
        rw [htext] at h
        dsimp only at h
        cases hparse : j.parse text with
        | none =>
          rw [hparse] at h
          have hvisit : Visit j side s time a entry st _ _ :=
            .unparsed hrecord hquiet htext hparse
          cases hdelete : deleteMark st.1 side entry.1 a with
          | none =>
            rw [hdelete] at h hvisit
            obtain ⟨rfl, rfl⟩ := Prod.mk.inj (Except.ok.inj h)
            exact hvisit
          | some store =>
            rw [hdelete] at h hvisit
            obtain ⟨rfl, rfl⟩ := Prod.mk.inj (Except.ok.inj h)
            exact hvisit
        | some json =>
          rw [hparse] at h
          obtain ⟨handed, hhanded, h⟩ := bind_eq_ok.1 h
          have hvisit : Visit j side s time a entry st _ _ :=
            .document hrecord hquiet htext hparse hhanded
          cases hdelete : deleteMark st.1 side entry.1 a with
          | none =>
            rw [hdelete] at h hvisit
            obtain ⟨rfl, rfl⟩ := Prod.mk.inj (Except.ok.inj h)
            exact hvisit
          | some store =>
            rw [hdelete] at h hvisit
            obtain ⟨rfl, rfl⟩ := Prod.mk.inj (Except.ok.inj h)
            exact hvisit
    · rw [if_neg hquiet] at h
      obtain ⟨rfl, rfl⟩ := Prod.mk.inj (Except.ok.inj h)
      refine .skipped fun record' hr => ?_
      rw [hrecord] at hr
      rwa [← Option.some.inj hr]

/-- A trace whose mark is deleted after its document has been handled. -/
theorem visitMark_document {record : Stored} {text : Bytes} {json : Json} {handed : Option Handed}
    {store : Store} (hrecord : markedRecord s side entry.1 entry.2 = some record)
    (hquiet : (j.asRoot record).lastModifiedMs ≤ time)
    (htext : j.text (j.asRoot record).compressed (j.asRoot record).data = some text)
    (hparse : j.parse text = some json)
    (hhanded : jaegerizeDocument j json ((s.side side).env.cursor (s.side side).dbi) entry.1 =
      .ok handed)
    (hdelete : deleteMark st.1 side entry.1 a = some store) :
    ∃ report control, visitMark j side s time a entry st = .ok ((store, report), control) ∧
      report.handed = st.2.handed ++ handed.toList ∧ control ≠ .leave := by
  unfold visitMark
  rw [hrecord]
  simp only [if_pos hquiet, htext, hparse, hhanded, hdelete]
  refine ⟨_, _, rfl, rfl, ?_⟩
  split_ifs <;> decide

/-! ### Deleted marks -/

/-- The store after some marks have been deleted. -/
structure MarksDeleted (s s' : Store) : Prop where
  ts : ∀ side, (s'.side side).env.file .ts = (s.side side).env.file .ts
  slots : ∀ side, (s'.side side).env.slots = (s.side side).env.slots
  dbi : ∀ side, (s'.side side).dbi = (s.side side).dbi
  jaegerDbi : ∀ side, (s'.side side).jaegerDbi = (s.side side).jaegerDbi
  openMs : ∀ side, (s'.side side).openMs = (s.side side).openMs
  bloom : ∀ side, (s'.side side).bloom = (s.side side).bloom
  marks : ∀ side key v, ((s'.side side).env.file .jaeger).lookup key = some v →
    ((s.side side).env.file .jaeger).lookup key = some v
  lookback : s'.defaultLookbackSecs = s.defaultLookbackSecs
  useBloom : s'.useBloomFilters = s.useBloomFilters

theorem MarksDeleted.refl (s : Store) : MarksDeleted s s :=
  ⟨fun _ => rfl, fun _ => rfl, fun _ => rfl, fun _ => rfl, fun _ => rfl, fun _ => rfl,
    fun _ _ _ h => h, rfl, rfl⟩

theorem MarksDeleted.trans {s'' : Store} (h : MarksDeleted s s') (h' : MarksDeleted s' s'') :
    MarksDeleted s s'' where
  ts side := (h'.ts side).trans (h.ts side)
  slots side := (h'.slots side).trans (h.slots side)
  dbi side := (h'.dbi side).trans (h.dbi side)
  jaegerDbi side := (h'.jaegerDbi side).trans (h.jaegerDbi side)
  openMs side := (h'.openMs side).trans (h.openMs side)
  bloom side := (h'.bloom side).trans (h.bloom side)
  marks side key v hv := h.marks side key v (h'.marks side key v hv)
  lookback := h'.lookback.trans h.lookback
  useBloom := h'.useBloom.trans h.useBloom

theorem MarksDeleted.opened (h : MarksDeleted s s') (hopen : s.Opened) : s'.Opened := by
  intro side
  refine ⟨?_, ?_, ?_, ?_, fun name => ?_, fun key v hv => ?_⟩
  · rw [h.slots]
    exact (hopen side).slots
  · rw [h.dbi]
    exact (hopen side).dbi
  · rw [h.jaegerDbi]
    exact (hopen side).jaegerDbi
  · rw [h.ts]
    exact (hopen side).openMs
  · cases name with
    | ts =>
      rw [h.ts]
      exact (hopen side).keys .ts
    | jaeger =>
      intro hmem
      obtain ⟨v, hv⟩ := Option.isSome_iff_exists.1 (AList.lookup_isSome.2 hmem)
      have hold := h.marks side [] v hv
      exact (hopen side).keys .jaeger (AList.lookup_isSome.1 (by rw [hold]; rfl))
  · exact (hopen side).marks key v (h.marks side key v hv)

/-- A commit to one environment that only deletes marks. -/
theorem marksDeleted_commit {env : Env DbName Stored}
    (hslots : env.slots = (s.side side).env.slots)
    (hts : env.file .ts = (s.side side).env.file .ts)
    (hmarks : ∀ key v, (env.file .jaeger).lookup key = some v →
      ((s.side side).env.file .jaeger).lookup key = some v) :
    MarksDeleted s (s.commit side env) where
  ts side' := by cases side <;> cases side' <;> first | rfl | exact hts
  slots side' := by cases side <;> cases side' <;> first | rfl | exact hslots
  dbi side' := by cases side <;> cases side' <;> rfl
  jaegerDbi side' := by cases side <;> cases side' <;> rfl
  openMs side' := by cases side <;> cases side' <;> rfl
  bloom side' := by cases side <;> cases side' <;> rfl
  marks side' := by cases side <;> cases side' <;> first | exact hmarks | exact fun _ _ hv => hv
  lookback := by cases side <;> rfl
  useBloom := by cases side <;> rfl

/-- The deletion of a mark leaves the other environment alone. -/
theorem deleteMark_spec (hopen : s.Opened) {key : Bytes}
    (h : deleteMark s side key a = some s') :
    MarksDeleted s s' ∧ s'.side side.other = s.side side.other ∧
      (a.deletes key = true → key ∉ (s'.side side).env.file .jaeger) := by
  have hname : (s.side side).env.dbName (s.side side).jaegerDbi = some .jaeger := by
    rw [(hopen side).jaegerDbi]
    exact (hopen side).dbName_jaeger
  unfold deleteMark at h
  split_ifs at h with htxn hdeletes
  · by_cases hkey : key ∈ (s.side side).env.file .jaeger
    · rw [del_eq hname hkey] at h
      obtain rfl := Option.some.inj h
      refine ⟨marksDeleted_commit rfl rfl fun k v hv => ?_, side_commit_of_ne s _ side.other_ne,
        fun _ => ?_⟩
      · dsimp only at hv
        rw [Function.update_self] at hv
        by_cases hk : k = key
        · rw [hk, AList.lookup_erase] at hv
          cases hv
        · rwa [AList.lookup_erase_ne hk] at hv
      · rw [side_commit_self]
        simp [AList.mem_erase]
    · have hnone : (s.side side).env.del (s.side side).jaegerDbi key = none := by
        unfold Env.del
        rw [hname]
        exact if_neg hkey
      rw [hnone] at h
      obtain rfl := Option.some.inj h
      exact ⟨.refl s, rfl, fun _ => hkey⟩
  · obtain rfl := Option.some.inj h
    exact ⟨.refl s, rfl, fun hd => absurd hd hdeletes⟩

/-- The rule for what is left of a store if nothing is deleted. -/
theorem deleteMark_getD (hopen : s.Opened) (side : Side) (key : Bytes) (a : JaegerAnswers) :
    MarksDeleted s ((deleteMark s side key a).getD s) ∧
      ((deleteMark s side key a).getD s).side side.other = s.side side.other := by
  cases h : deleteMark s side key a with
  | none => exact ⟨.refl s, rfl⟩
  | some s' =>
    obtain ⟨hmarks, hother, -⟩ := deleteMark_spec hopen h
    exact ⟨hmarks, hother⟩

/-- A visit deletes marks of its own environment at most. -/
theorem Visit.marksDeleted (h : Visit j side s time a entry st st' control)
    (hopen : st.1.Opened) :
    MarksDeleted st.1 st'.1 ∧ st'.1.side side.other = st.1.side side.other := by
  cases h with
  | skipped _ => exact ⟨.refl _, rfl⟩
  | unreadable _ _ _ => exact ⟨.refl _, rfl⟩
  | unparsed _ _ _ _ => exact deleteMark_getD hopen side entry.1 a
  | document _ _ _ _ _ => exact deleteMark_getD hopen side entry.1 a

/-! ### Traces that are handed to Jaeger -/

/-- The trace comes from a mark of the environment whose record has not been modified after the
time, and is sent as `jaegerizeTrace` says. -/
structure HandedFrom (j : JaegerEnv) (s : Store) (side : Side) (time : ℕ) (h : Handed) : Prop where
  quiet : ∃ data record, (h.key, data) ∈ (s.side side).env.cursor (s.side side).jaegerDbi ∧
    markedRecord s side h.key data = some record ∧ (j.asRoot record).lastModifiedMs ≤ time
  children_eq : h.children = getChildren j ((s.side side).env.cursor (s.side side).dbi) h.key
  sent : jaegerizeTrace j h.trans h.children = .ok (some h.sending)

theorem jaegerizeDocument_eq_ok {json : Json} {records : List (Bytes × Stored)} {key : Bytes}
    {h : Handed} (hok : jaegerizeDocument j json records key = .ok (some h)) :
    h.key = key ∧ h.children = getChildren j records key ∧
      jaegerizeTrace j h.trans h.children = .ok (some h.sending) := by
  unfold jaegerizeDocument at hok
  split at hok
  · cases hok
  · obtain ⟨sending, hsending, hok⟩ := bind_eq_ok.1 hok
    obtain ⟨sending, rfl, rfl⟩ := Option.map_eq_some_iff.1 (Except.ok.inj hok)
    exact ⟨rfl, rfl, hsending⟩

/-- A visit hands over the trace of its mark at most. -/
theorem Visit.handed (h : Visit j side s time a entry st st' control)
    (hentry : entry ∈ (s.side side).env.cursor (s.side side).jaegerDbi) :
    ∀ x ∈ st'.2.handed, x ∈ st.2.handed ∨ HandedFrom j s side time x := by
  cases h with
  | skipped _ => exact fun x hx => .inl hx
  | unreadable _ _ _ => exact fun x hx => .inl hx
  | unparsed _ _ _ _ => exact fun x hx => .inl hx
  | document hrecord hquiet _ _ hhanded =>
    intro x hx
    rcases List.mem_append.1 hx with hx | hx
    · exact .inl hx
    · rw [Option.mem_toList] at hx
      subst hx
      obtain ⟨hkey, hchildren, hsent⟩ := jaegerizeDocument_eq_ok hhanded
      refine .inr ⟨⟨entry.2, _, ?_, ?_, hquiet⟩, ?_, hsent⟩
      · rwa [hkey]
      · rwa [hkey]
      · rwa [hkey]

/-- The loop over the marks hands over traces of its environment. -/
theorem visitMarks_handed {entries : List (Bytes × Stored)} {returns : Bool}
    (hentries : ∀ e ∈ entries, e ∈ (s.side side).env.cursor (s.side side).jaegerDbi)
    (h : visitMarks j side s time a entries st = .ok (st', returns)) :
    ∀ x ∈ st'.2.handed, x ∈ st.2.handed ∨ HandedFrom j s side time x := by
  induction entries generalizing st with
  | nil =>
    obtain ⟨rfl, rfl⟩ := Prod.mk.inj (Except.ok.inj h)
    exact fun x hx => .inl hx
  | cons entry entries ih =>
    obtain ⟨⟨mid, control⟩, hvisit, h⟩ := bind_eq_ok.1 h
    have hhanded := (visit_of_visitMark hvisit).handed (hentries entry List.mem_cons_self)
    cases control with
    | next =>
      intro x hx
      rcases ih (fun e he => hentries e (List.mem_cons_of_mem _ he)) h x hx with hx | hx
      · exact hhanded x hx
      · exact .inr hx
    | stop =>
      obtain ⟨rfl, rfl⟩ := Prod.mk.inj (Except.ok.inj h)
      exact hhanded
    | leave =>
      obtain ⟨rfl, rfl⟩ := Prod.mk.inj (Except.ok.inj h)
      exact hhanded

theorem visitSide_handed {returns : Bool}
    (h : visitSide j side s time a st = .ok (st', returns)) :
    ∀ x ∈ st'.2.handed, x ∈ st.2.handed ∨ HandedFrom j s side time x := by
  unfold visitSide at h
  split_ifs at h
  · exact visitMarks_handed (fun e he => he) h
  · obtain ⟨rfl, rfl⟩ := Prod.mk.inj (Except.ok.inj h)
    exact fun x hx => .inl hx

/-- The loop over the marks deletes marks of its environment. -/
theorem visitMarks_deleted {entries : List (Bytes × Stored)} {returns : Bool}
    (hopen : st.1.Opened) (h : visitMarks j side s time a entries st = .ok (st', returns)) :
    MarksDeleted st.1 st'.1 ∧ st'.1.side side.other = st.1.side side.other := by
  induction entries generalizing st with
  | nil =>
    obtain ⟨rfl, rfl⟩ := Prod.mk.inj (Except.ok.inj h)
    exact ⟨.refl _, rfl⟩
  | cons entry entries ih =>
    obtain ⟨⟨mid, control⟩, hvisit, h⟩ := bind_eq_ok.1 h
    obtain ⟨hdeleted, hother⟩ := (visit_of_visitMark hvisit).marksDeleted hopen
    cases control with
    | next =>
      obtain ⟨hdeleted', hother'⟩ := ih (hdeleted.opened hopen) h
      exact ⟨hdeleted.trans hdeleted', hother'.trans hother⟩
    | stop =>
      obtain ⟨rfl, rfl⟩ := Prod.mk.inj (Except.ok.inj h)
      exact ⟨hdeleted, hother⟩
    | leave =>
      obtain ⟨rfl, rfl⟩ := Prod.mk.inj (Except.ok.inj h)
      exact ⟨hdeleted, hother⟩

theorem visitSide_deleted {returns : Bool} (hopen : st.1.Opened)
    (h : visitSide j side s time a st = .ok (st', returns)) :
    MarksDeleted st.1 st'.1 ∧ st'.1.side side.other = st.1.side side.other := by
  unfold visitSide at h
  split_ifs at h
  · exact visitMarks_deleted hopen h
  · obtain ⟨rfl, rfl⟩ := Prod.mk.inj (Except.ok.inj h)
    exact ⟨.refl _, rfl⟩

/-- The two loops of `tm_transaction_store_process_jaeger`. -/
theorem processJaeger_cases {report : JaegerReport} {n : ℕ}
    (h : tmTransactionStoreProcessJaeger j s now a = .ok (s', report, n)) :
    ∃ st returns, visitSide j .current s (timeMs s.defaultLookbackSecs now) a (s, ⟨0, [], []⟩) =
        .ok (st, returns) ∧
      ((returns = true ∧ st = (s', report)) ∨ (returns = false ∧ ∃ returns',
        visitSide j .last st.1 (timeMs s.defaultLookbackSecs now) a st =
          .ok ((s', report), returns'))) := by
  obtain ⟨⟨st, returns⟩, hcurrent, h⟩ := bind_eq_ok.1 h
  refine ⟨st, returns, hcurrent, ?_⟩
  cases returns with
  | true =>
    obtain ⟨rfl, rfl, -⟩ : st.1 = s' ∧ st.2 = report ∧ _ := by simpa using Except.ok.inj h
    exact .inl ⟨rfl, rfl⟩
  | false =>
    obtain ⟨⟨st', returns'⟩, hlast, h⟩ := bind_eq_ok.1 h
    obtain ⟨rfl, rfl, -⟩ : st'.1 = s' ∧ st'.2 = report ∧ _ := by simpa using Except.ok.inj h
    exact .inr ⟨rfl, returns', hlast⟩

/-- A trace that is handed over is sent as `jaegerizeTrace` says. -/
theorem sent_of_handed {report : JaegerReport} {n : ℕ}
    (h : tmTransactionStoreProcessJaeger j s now a = .ok (s', report, n)) :
    ∀ x ∈ report.handed, jaegerizeTrace j x.trans x.children = .ok (some x.sending) := by
  obtain ⟨st, returns, hcurrent, ⟨-, rfl⟩ | ⟨-, returns', hlast⟩⟩ := processJaeger_cases h
  · intro x hx
    rcases visitSide_handed hcurrent x hx with hx | hx
    · cases hx
    · exact hx.sent
  · intro x hx
    rcases visitSide_handed hlast x hx with hx | hx
    · rcases visitSide_handed hcurrent x hx with hx | hx
      · cases hx
      · exact hx.sent
    · exact hx.sent

/-- A record is found for a mark in the same way as long as the other environment keeps its
handles. -/
theorem HandedFrom.of_side {x : Handed} (h : HandedFrom j s' side time x)
    (hside : s'.side side = s.side side) (hdbi : (s'.side side.other).dbi = (s.side side.other).dbi) :
    HandedFrom j s side time x := by
  obtain ⟨⟨data, record, hmem, hrecord, hquiet⟩, hchildren, hsent⟩ := h
  rw [hside] at hmem hchildren
  refine ⟨⟨data, record, hmem, ?_, hquiet⟩, hchildren, hsent⟩
  rw [← hrecord]
  unfold markedRecord
  rw [hside, hdbi]

/-- `tm_transaction_store_process_jaeger` deletes marks, and hands over traces whose records have
been quiet for the lookback time. -/
theorem processJaeger_spec {report : JaegerReport} {n : ℕ} (hopen : s.Opened)
    (h : tmTransactionStoreProcessJaeger j s now a = .ok (s', report, n)) :
    MarksDeleted s s' ∧ ∀ x ∈ report.handed,
      ∃ side, HandedFrom j s side (timeMs s.defaultLookbackSecs now) x := by
  obtain ⟨st, returns, hcurrent, ⟨-, rfl⟩ | ⟨-, returns', hlast⟩⟩ := processJaeger_cases h
  · refine ⟨(visitSide_deleted hopen hcurrent).1, fun x hx => ?_⟩
    rcases visitSide_handed hcurrent x hx with hx | hx
    · cases hx
    · exact ⟨.current, hx⟩
  · obtain ⟨hdeleted, hother⟩ := visitSide_deleted hopen hcurrent
    obtain ⟨hdeleted', -⟩ := visitSide_deleted (hdeleted.opened hopen) hlast
    refine ⟨hdeleted.trans hdeleted', fun x hx => ?_⟩
    rcases visitSide_handed hlast x hx with hx | hx
    · rcases visitSide_handed hcurrent x hx with hx | hx
      · cases hx
      · exact ⟨.current, hx⟩
    · exact ⟨.last, hx.of_side hother (hdeleted.dbi _)⟩

end Tracemate.TransactionStore
