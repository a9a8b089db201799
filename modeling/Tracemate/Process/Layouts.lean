import Tracemate.Process.Measurements
import Tracemate.Process.Transaction

/-!
# The two layouts of the measurements

The documents of an old and of a new server, with the same header and measurements.

* `ServerVersion`, `Header`, `document`: the documents;
* `Header.context`: what `process_metric_message` reads of a header;
* `layouts_agree_iff`: when the documents of an old and of a new version make the same updates.
-/

namespace Tracemate.Process

open CStr JsonC COutcome Outcome Tracemate.Metric

/-! ### Documents -/

/-- A version of the server: its two numbers, and what follows them. -/
structure ServerVersion where
  major : ℕ
  minor : ℕ
  rest : Bytes
  separated : ∀ c ∈ rest.head?, ¬ (48 ≤ c ∧ c ≤ 57)

namespace ServerVersion

variable (v : ServerVersion)

/-- The text of `@metadata.version`. -/
def text : Bytes := natText v.major ++ cstr "." ++ natText v.minor ++ v.rest

/-- The server sends the nested layout. -/
def Before715 : Prop := v.major < 7 ∨ (v.major = 7 ∧ v.minor < 15)

instance : Decidable v.Before715 := inferInstanceAs (Decidable (_ ∨ _))

/-- The number that the code takes the major version for: the first digit. -/
def digit : ℕ := Tracemate.digit (v.text.headD 0)

/-- The code processes the document, and takes the major version for what it is. -/
def Processed : Prop := 6 ≤ v.digit ∧ (v.digit = 6 ↔ v.major = 6)

/-- The comparison with `7.15` over the shorter length. -/
def readsFlat : Bool := v.text.take 4 = (cstr "7.15").take v.text.length

end ServerVersion

/-- The members of a document around its measurements. -/
structure Header where
  timestamp : Option Value
  serviceName : Option Value
  agentName : Option Value
  hostname : Option Value
  ip : Option Value

namespace Header

variable (h : Header) (v : ServerVersion)

/-- The object that describes the host. -/
def host : Option Value := group [(cstr "hostname", h.hostname), (cstr "ip", h.ip)]

/-- The member `@metadata`. -/
def metadata : Option Value := group [(cstr "version", some ⟨.str v.text, nofun⟩)]

/-- Before version 7 the service and the host are below `context`. -/
def members : List (Bytes × Option Value) :=
  [(cstr "@metadata", metadata v), (cstr "@timestamp", h.timestamp)] ++
  if v.major = 6 then
    [(cstr "context", group [(cstr "service",
        group [(cstr "name", h.serviceName), (cstr "agent", group [(cstr "name", h.agentName)])]),
      (cstr "system", h.host)])]
  else
    [(cstr "service", group [(cstr "name", h.serviceName)]), (cstr "host", h.host),
      (cstr "agent", group [(cstr "name", h.agentName)])]

end Header

/-- The document of the measurements that a server of the version sends. -/
def document (v : ServerVersion) (h : Header) (p : Measurements) : Option Json :=
  some (object (h.members v ++ if v.Before715 then p.nestedMembers else p.flatMembers)).val

/-! ### What is read of a document -/

section Document

variable {env : Env} {v : ServerVersion} {h : Header} {p : Measurements}

/-- No two members of a document have one name. -/
theorem nodup_document (v : ServerVersion) (h : Header) (p : Measurements) :
    ((h.members v ++ if v.Before715 then p.nestedMembers else p.flatMembers).map Prod.fst).Nodup := by
  have hnames : (h.members v ++ if v.Before715 then p.nestedMembers else p.flatMembers).map
      Prod.fst = [cstr "@metadata", cstr "@timestamp"] ++
        (if v.major = 6 then [cstr "context"] else [cstr "service", cstr "host", cstr "agent"]) ++
        if v.Before715 then Measurements.empty.nestedMembers.map Prod.fst
          else Measurements.empty.flatMembers.map Prod.fst := by
    rw [List.map_append, Header.members]
    congr 1
    · split_ifs <;> rfl
    · split_ifs <;> rfl
  rw [hnames]
  split_ifs <;> decide

theorem get_document {name : Bytes} {w : Option Value}
    (hw : (name, w) ∈ h.members v ++ if v.Before715 then p.nestedMembers else p.flatMembers) :
    Json.get name (document v h p) = ptr w := get_members (nodup_document v h p) hw

theorem get_document_of_notMem {name : Bytes} (hname : name ∉
      (h.members v ++ if v.Before715 then p.nestedMembers else p.flatMembers).map Prod.fst) :
    Json.get name (document v h p) = none := get_members_of_notMem hname

/-- The members of the header. -/
theorem get_header {name : Bytes} {w : Option Value} (hw : (name, w) ∈ h.members v) :
    Json.get name (document v h p) = ptr w := get_document (List.mem_append_left _ hw)

theorem text_ne_nil (v : ServerVersion) : v.text ≠ [] := by
  simp [ServerVersion.text, cstr]

theorem metadataVersion_document : metadataVersion env.lib (document v h p) = some v.text := by
  unfold metadataVersion
  rw [get_header (w := Header.metadata v) (by simp [Header.members]), Header.metadata,
    get_group_cons_self]
  obtain ⟨c, s, hs⟩ := List.exists_cons_of_ne_nil (text_ne_nil v)
  simp only [Option.or_none, get_group_nil, hs]
  rfl

theorem majorVersion_document : tmApmServerMajorVersion env.lib (document v h p) = v.digit := by
  have hversion : metadataVersion env.lib (document v h p) = some v.text :=
    metadataVersion_document
  obtain ⟨c, s, hs⟩ := List.exists_cons_of_ne_nil (text_ne_nil v)
  unfold tmApmServerMajorVersion ServerVersion.digit
  rw [hversion, hs]
  rfl

theorem isFlat_document : isFlat env (document v h p) = v.readsFlat := by
  unfold isFlat tmApmServerVersion
  rw [metadataVersion_document]
  rfl

theorem get_context (hv : v.major = 6) : Json.get (cstr "context") (document v h p) =
    ptr (group [(cstr "service",
        group [(cstr "name", h.serviceName), (cstr "agent", group [(cstr "name", h.agentName)])]),
      (cstr "system", h.host)]) :=
  get_header (by simp [Header.members, hv])

theorem serviceName_document (hv : v.Processed) :
    tmServiceName env.lib (document v h p) = env.lib.getString (ptr h.serviceName) := by
  obtain ⟨hsix, hcontext⟩ := hv
  unfold tmServiceName
  rw [majorVersion_document, if_neg (by omega : v.digit ≠ 0)]
  dsimp only
  rw [if_neg (by omega)]
  split_ifs with hd
  · rw [get_context (hcontext.1 hd)]
    simp (disch := decide) only [get_group_cons_self, get_group_cons_ne, get_group_nil,
      Option.or_none]
  · have hmajor : v.major ≠ 6 := mt hcontext.2 hd
    rw [get_header (w := group [(cstr "name", h.serviceName)]) (by simp [Header.members, hmajor]),
      get_group_cons_self, get_group_nil, Option.or_none]

theorem hostObject_document (hv : v.Processed) :
    hostObject env.lib (document v h p) = ptr h.host := by
  unfold hostObject
  rw [majorVersion_document]
  split_ifs with hd
  · rw [get_context (hv.2.1 hd)]
    simp (disch := decide) only [get_group_cons_self, get_group_cons_ne, get_group_nil,
      Option.or_none]
  · have hmajor : v.major ≠ 6 := mt hv.2.2 hd
    exact get_header (by simp [Header.members, hmajor])

theorem digit_of_major_six (hv : v.major = 6) : v.digit = 6 := by
  have htext : v.text = 54 :: (cstr "." ++ natText v.minor ++ v.rest) := by
    unfold ServerVersion.text
    rw [hv]
    rfl
  rw [ServerVersion.digit, htext, List.headD_cons]
  decide

/-- A version that is not processed, by its digit or because the header is looked for in the
wrong place. -/
theorem preProcess_of_not_processed (hv : ¬ v.Processed) :
    preProcess env (document v h p) = .ok none := by
  unfold preProcess
  rw [majorVersion_document]
  split_ifs with hd
  · rfl
  · have hsix : v.digit = 6 ∧ v.major ≠ 6 := by
      have hiff : ¬ (v.digit = 6 ↔ v.major = 6) := fun hiff => hv ⟨by omega, hiff⟩
      by_cases hmajor : v.major = 6
      · exact absurd (iff_of_true (digit_of_major_six hmajor) hmajor) hiff
      · exact ⟨by_contra fun hne => hiff (iff_of_false hne hmajor), hmajor⟩
    have hcontext : Json.get (cstr "context") (document v h p) = none := by
      refine get_document_of_notMem ?_
      have hnested : cstr "context" ∉ p.nestedMembers.map Prod.fst :=
        (by decide : cstr "context" ∉ Measurements.empty.nestedMembers.map Prod.fst)
      have hflat : cstr "context" ∉ p.flatMembers.map Prod.fst :=
        (by decide : cstr "context" ∉ Measurements.empty.flatMembers.map Prod.fst)
      have hheader : cstr "context" ∉ (h.members v).map Prod.fst := by
        rw [Header.members, if_neg hsix.2]
        exact (by decide : cstr "context" ∉ [cstr "@metadata", cstr "@timestamp", cstr "service",
          cstr "host", cstr "agent"])
      rw [List.map_append, List.mem_append, not_or]
      refine ⟨hheader, ?_⟩
      split_ifs
      · exact hnested
      · exact hflat
    have hnone : tmServiceName env.lib (document v h p) = none := by
      unfold tmServiceName
      rw [majorVersion_document, if_neg (by omega : v.digit ≠ 0)]
      dsimp only
      rw [if_neg (by omega), if_pos hsix.1, hcontext]
      rfl
    rw [hnone]

/-- The text that `pre_process` writes to `tag_string`. -/
def Header.tagString (env : Env) (h : Header) (serviceName : Bytes) : Bytes :=
  cstr "service:" ++ serviceName ++
    hostTag (cstr "host:") (env.lib.getString (ptr h.hostname)) ++
    hostTag (cstr "ip:") (env.lib.getString (ptr h.ip))

/-- What the code reads of a header: `none` where it does not process the document. -/
def Header.context (env : Env) (h : Header) : Outcome (Option MetricContext) :=
  match env.lib.getString (ptr h.serviceName) with
  | none => .ok none
  | some serviceName =>
    match tmGetTeam (some serviceName) with
    | none => .ok none
    | some team => do
      let team ← fitting 128 team
      let _ ← fitting 256 (serviceName.drop (team.length + 1))
      let ts ← nonNull (env.lib.getString (ptr h.timestamp))
      let tagString ← fitting 3172 (h.tagString env serviceName)
      let aggTagString ← fitting 2048 (aggTagStringOf serviceName)
      let aggTimestamp ←
        centerTimestamp (env.parseTimestamp ts) (env.getMetricFlushFrequencyMs serviceName)
      .ok (some ⟨env.lib, env.getTeamData team, tagString, aggTagString, env.parseTimestamp ts,
        aggTimestamp⟩)

theorem tagStringOf_document (hv : v.Processed) (serviceName : Bytes) :
    tagStringOf env.lib (document v h p) serviceName = h.tagString env serviceName := by
  unfold tagStringOf Header.tagString
  rw [hostObject_document hv, Header.host]
  simp (disch := decide) only [get_group_cons_self, get_group_cons_ne, get_group_nil,
    Option.or_none]

/-- The updates of the table that a document makes. -/
def tableUpdates (env : Env) (m : Option Json) : List Effect :=
  whenOk [] (List.filter Effect.isTableUpdate) (processMetricMessage env m)

theorem tableUpdates_of_not_processed (hv : ¬ v.Processed) :
    tableUpdates env (document v h p) = [] := by
  unfold tableUpdates processMetricMessage
  rw [preProcess_of_not_processed hv]
  rfl

/-- What a version that is processed makes of its document. -/
theorem tableUpdates_of_processed (hv : v.Processed) :
    tableUpdates env (document v h p) = whenOk [] (fun o => match o with
      | none => []
      | some c => (if v.readsFlat then c.flatUpdates (document v h p)
          else c.nestedUpdates (document v h p)).filter Effect.isTableUpdate) (h.context env) := by
  have hdigit : ¬ v.digit < 6 := by
    have := hv.1
    omega
  have hagent : ∀ (td : TeamData) (serviceName : Bytes), (agentEffects env (document v h p) td
      serviceName).filter Effect.isTableUpdate = [] := by
    intro td serviceName
    unfold agentEffects
    dsimp only
    split <;> rfl
  unfold tableUpdates processMetricMessage preProcess Header.context buildAggTagString
  rw [majorVersion_document, if_neg hdigit, serviceName_document hv, isFlat_document,
    get_header (w := h.timestamp) (by simp [Header.members])]
  cases hservice : env.lib.getString (ptr h.serviceName) with
  | none => rfl
  | some serviceName =>
    dsimp only
    cases hteam : tmGetTeam (some serviceName) with
    | none => rfl
    | some team =>
      simp only [tagStringOf_document hv, whenOk_bind, whenOk_ok, printS, Option.getD_some]
      cases v.readsFlat <;>
        simp only [if_true, Bool.false_eq_true, if_false, whenOk_ok, List.filter_append, hagent,
          List.nil_append]

/-- The code processes the document, and reads it in the layout that the server sends. -/
def ServerVersion.Read (v : ServerVersion) : Prop :=
  v.Processed ∧ (v.readsFlat = true ↔ ¬ v.Before715)

/-- The names of one layout do not occur in a document of the other. -/
theorem flatUpdates_nested (hv : v.Before715) (c : MetricContext) :
    c.flatUpdates (document v h p) = [] := by
  have hnames : ∀ m ∈ Measurements.empty.flatMembers,
      Json.get m.1 (document v h p) = ptr m.2 := by
    have hempty : ∀ m ∈ Measurements.empty.flatMembers, m.2 = none := by
      simp [Measurements.flatMembers, Measurements.empty]
    intro m hm
    rw [hempty m hm]
    refine get_document_of_notMem ?_
    rw [if_pos hv, List.map_append, List.mem_append, not_or, Header.members]
    have hname : m.1 ∈ Measurements.empty.flatMembers.map Prod.fst := List.mem_map_of_mem hm
    generalize m.1 = name at hname
    revert name
    split_ifs
    · exact (by decide : ∀ name ∈ Measurements.empty.flatMembers.map Prod.fst,
        name ∉ [cstr "@metadata", cstr "@timestamp", cstr "context"] ∧
          name ∉ Measurements.empty.nestedMembers.map Prod.fst)
    · exact (by decide : ∀ name ∈ Measurements.empty.flatMembers.map Prod.fst,
        name ∉ [cstr "@metadata", cstr "@timestamp", cstr "service", cstr "host", cstr "agent"] ∧
          name ∉ Measurements.empty.nestedMembers.map Prod.fst)
  rw [flatUpdates_reading c Measurements.empty hnames]
  rfl

theorem nestedUpdates_flat (hv : ¬ v.Before715) (c : MetricContext) :
    c.nestedUpdates (document v h p) = [] := by
  have hnames : ∀ m ∈ Measurements.empty.nestedMembers,
      Json.get m.1 (document v h p) = ptr m.2 := by
    have hempty : ∀ m ∈ Measurements.empty.nestedMembers, m.2 = none := by
      intro m hm
      fin_cases hm <;> rfl
    intro m hm
    rw [hempty m hm]
    refine get_document_of_notMem ?_
    rw [if_neg hv, List.map_append, List.mem_append, not_or, Header.members]
    have hname : m.1 ∈ Measurements.empty.nestedMembers.map Prod.fst := List.mem_map_of_mem hm
    generalize m.1 = name at hname
    revert name
    split_ifs
    · exact (by decide : ∀ name ∈ Measurements.empty.nestedMembers.map Prod.fst,
        name ∉ [cstr "@metadata", cstr "@timestamp", cstr "context"] ∧
          name ∉ Measurements.empty.flatMembers.map Prod.fst)
    · exact (by decide : ∀ name ∈ Measurements.empty.nestedMembers.map Prod.fst,
        name ∉ [cstr "@metadata", cstr "@timestamp", cstr "service", cstr "host", cstr "agent"] ∧
          name ∉ Measurements.empty.flatMembers.map Prod.fst)
  rw [nestedUpdates_reading c Measurements.empty hnames]
  rfl

/-- A document in the layout that is read. -/
theorem tableUpdates_of_read {c : MetricContext} (hc : h.context env = .ok (some c)) (hv : v.Read) :
    tableUpdates env (document v h p) =
      if v.Before715 then c.nestedReading p else c.flatReading p := by
  rw [tableUpdates_of_processed hv.1, hc, whenOk_ok]
  by_cases hbefore : v.Before715
  · have hflat : ¬ v.readsFlat = true := fun hflat => hv.2.1 hflat hbefore
    have hmem : ∀ m ∈ p.nestedMembers, Json.get m.1 (document v h p) = ptr m.2 := fun m hm =>
      get_document (List.mem_append_right _ (by rwa [if_pos hbefore]))
    dsimp only
    rw [if_neg hflat, if_pos hbefore, nestedUpdates_reading c p hmem]
    exact List.filter_eq_self.2 table_nestedReading
  · have hmem : ∀ m ∈ p.flatMembers, Json.get m.1 (document v h p) = ptr m.2 := fun m hm =>
      get_document (List.mem_append_right _ (by rwa [if_neg hbefore]))
    dsimp only
    rw [if_pos (hv.2.2 hbefore), if_neg hbefore, flatUpdates_reading c p hmem]
    exact List.filter_eq_self.2 table_flatReading

/-- A document that is not processed or read in the other layout. -/
theorem tableUpdates_of_not_read (hv : ¬ v.Read) : tableUpdates env (document v h p) = [] := by
  by_cases hp : v.Processed
  · have hother : v.readsFlat = true ↔ v.Before715 := by
      by_contra hne
      exact hv ⟨hp, by tauto⟩
    rw [tableUpdates_of_processed hp]
    cases h.context env with
    | error fault => rfl
    | ok o =>
      cases o with
      | none => rfl
      | some c =>
        rw [whenOk_ok]
        by_cases hbefore : v.Before715
        · simp only [if_pos (hother.2 hbefore), flatUpdates_nested hbefore, List.filter_nil]
        · simp only [if_neg (mt hother.1 hbefore), nestedUpdates_flat hbefore, List.filter_nil]
  · exact tableUpdates_of_not_processed hp

/-- A document whose header is not accepted. -/
theorem tableUpdates_of_not_context (hc : ¬ ∃ c, h.context env = .ok (some c)) :
    tableUpdates env (document v h p) = [] := by
  by_cases hp : v.Processed
  · rw [tableUpdates_of_processed hp]
    cases hctx : h.context env with
    | error fault => rfl
    | ok o =>
      cases o with
      | none => rfl
      | some c => exact absurd ⟨c, hctx⟩ hc
  · exact tableUpdates_of_not_processed hp

/-- What the variables of `parse_timestamp` hold makes no difference to whether a header is
accepted, only to the times. -/
theorem context_timeStack {c : MetricContext} (hc : h.context env = .ok (some c))
    (stack : TimeStack) :
    ∃ t a, h.context { env with timeStack := stack } =
      .ok (some { c with timestampMs := t, aggTimestamp := a }) := by
  unfold Header.context at hc ⊢
  dsimp only
  cases hservice : env.lib.getString (ptr h.serviceName) with
  | none =>
    rw [hservice] at hc
    cases hc
  | some serviceName =>
    rw [hservice] at hc
    dsimp only at hc ⊢
    cases hteam : tmGetTeam (some serviceName) with
    | none =>
      rw [hteam] at hc
      cases hc
    | some team =>
      rw [hteam] at hc
      obtain ⟨team', hteam', hc⟩ := bind_eq_ok.1 hc
      obtain ⟨sn, hsn, hc⟩ := bind_eq_ok.1 hc
      obtain ⟨ts, hts, hc⟩ := bind_eq_ok.1 hc
      obtain ⟨tags, htags, hc⟩ := bind_eq_ok.1 hc
      obtain ⟨aggTags, hagg, hc⟩ := bind_eq_ok.1 hc
      obtain ⟨time, htime, hc⟩ := bind_eq_ok.1 hc
      obtain rfl := Option.some.inj (Except.ok.inj hc)
      have hfreq : env.getMetricFlushFrequencyMs serviceName ≠ 0 := by
        rintro hzero
        rw [centerTimestamp, if_pos hzero] at htime
        cases htime
      exact ⟨_, _, bind_eq_ok.2 ⟨team', hteam', bind_eq_ok.2 ⟨sn, hsn, bind_eq_ok.2 ⟨ts, hts,
        bind_eq_ok.2 ⟨tags, htags, bind_eq_ok.2 ⟨aggTags, hagg,
          bind_eq_ok.2 ⟨_, if_neg hfreq, rfl⟩⟩⟩⟩⟩⟩⟩

/-- Two calls that read the same time read the same of a header. -/
theorem context_of_sameTime {stack : TimeStack}
    (htime : ∀ ts, env.lib.getString (ptr h.timestamp) = some ts →
      Env.parseTimestamp { env with timeStack := stack } ts = env.parseTimestamp ts) :
    h.context { env with timeStack := stack } = h.context env := by
  have htags : ∀ s, Header.tagString { env with timeStack := stack } h s = h.tagString env s :=
    fun _ => rfl
  have hteam : ∀ t, Env.getTeamData { env with timeStack := stack } t = env.getTeamData t :=
    fun _ => rfl
  unfold Header.context
  cases hts : env.lib.getString (ptr h.timestamp) with
  | none => simp only [nonNull, bind, Except.bind]
  | some ts => simp only [nonNull, bind, Except.bind, htime ts hts, htags, hteam]

/-- **The two layouts.**  The documents that an old and a new server send of the same header and
measurements, each processed in a call of its own, make the same updates exactly if the header is
not accepted, or each document is read in its own layout, the measurements are complete and have no
Go process and the two calls read the same times where they record them, or what is read of either
of them is nothing. -/
theorem layouts_agree_iff (env : Env) (stack : TimeStack) (h : Header) (p : Measurements)
    {old new : ServerVersion} (hold : old.Before715) (hnew : ¬ new.Before715) :
    tableUpdates env (document old h p) =
        tableUpdates { env with timeStack := stack } (document new h p) ↔
      ∀ c c', h.context env = .ok (some c) →
        h.context { env with timeStack := stack } = .ok (some c') →
        (old.Read → new.Read → p.Complete ∧ p.NoGolang ∧ (p.Blank ∨ SameTimes p c c')) ∧
        (old.Read → ¬ new.Read → p.Blank ∧ p.NoGolang) ∧
        (¬ old.Read → new.Read → p.Blank) := by
  by_cases hc : ∃ c, h.context env = .ok (some c)
  · obtain ⟨c, hc⟩ := hc
    obtain ⟨t, a, hc'⟩ := context_timeStack hc stack
    have hcall : ∀ Q : MetricContext → MetricContext → Prop,
        (∀ d d', h.context env = .ok (some d) →
          h.context { env with timeStack := stack } = .ok (some d') → Q d d') ↔
        Q c { c with timestampMs := t, aggTimestamp := a } := by
      refine fun Q => ⟨fun hQ => hQ _ _ hc hc', fun hQ d d' hd hd' => ?_⟩
      obtain rfl := Option.some.inj (Except.ok.inj (hc.symm.trans hd))
      obtain rfl := Option.some.inj (Except.ok.inj (hc'.symm.trans hd'))
      exact hQ
    rw [hcall]
    by_cases ho : old.Read
    · rw [tableUpdates_of_read hc ho, if_pos hold]
      by_cases hn : new.Read
      · rw [tableUpdates_of_read hc' hn, if_neg hnew, nestedReading_eq_flatReading_iff]
        simp [ho, hn]
      · rw [tableUpdates_of_not_read hn, nestedReading_eq_nil_iff]
        simp [ho, hn]
    · rw [tableUpdates_of_not_read ho]
      by_cases hn : new.Read
      · rw [tableUpdates_of_read hc' hn, if_neg hnew, eq_comm, flatReading_eq_nil_iff]
        simp [ho, hn]
      · rw [tableUpdates_of_not_read hn]
        simp [ho, hn]
  · have hc' : ¬ ∃ c, h.context { env with timeStack := stack } = .ok (some c) := by
      rintro ⟨c, hc'⟩
      obtain ⟨t, a, hback⟩ := context_timeStack (h := h) hc' env.timeStack
      exact hc ⟨_, hback⟩
    rw [tableUpdates_of_not_context hc, tableUpdates_of_not_context hc']
    refine iff_of_true rfl fun c _ hcontext => absurd ⟨c, hcontext⟩ hc

end Document

/-! ### Three versions -/

/-- A version with a patch number. -/
def patched (minor : ℕ) : ServerVersion where
  major := 7
  minor := minor
  rest := cstr ".2"
  separated c hc := by
    obtain rfl : (46 : UInt8) = c := Option.some.inj hc
    decide

/-- The header of a document of the service `a-b`. -/
def plainHeader : Header where
  timestamp := some ⟨.str (cstr "2019-03-20T17:09:03.949Z"), nofun⟩
  serviceName := some ⟨.str (cstr "a-b"), nofun⟩
  agentName := none
  hostname := none
  ip := none

/-- The share of the processor, and the sizes of a heap. -/
def heapAndCpu : Measurements :=
  { Measurements.empty with
    cpuPct := some ⟨.int 1, nofun⟩
    heap := ⟨some ⟨.int 2, nofun⟩, some ⟨.int 3, nofun⟩, some ⟨.int 4, nofun⟩⟩ }

instance (v : ServerVersion) : Decidable v.Processed := inferInstanceAs (Decidable (_ ∧ _))

instance (v : ServerVersion) : Decidable v.Read := inferInstanceAs (Decidable (_ ∧ _))

/-- Versions 7.14.2 and 7.15.2, where the second call finds other values in the variables of
`parse_timestamp`, in a time zone without daylight saving time. -/
theorem layouts_agree_heapAndCpu :
    tableUpdates plainEnv (document (patched 14) plainHeader heapAndCpu) =
      tableUpdates { plainEnv with timeStack := ⟨1, 2, 3, 4, 5, 6, 7, 1⟩ }
        (document (patched 15) plainHeader heapAndCpu) := by
  refine (layouts_agree_iff plainEnv ⟨1, 2, 3, 4, 5, 6, 7, 1⟩ plainHeader heapAndCpu (by decide)
    (by decide)).2 fun c c' hc hc' => ?_
  have hold : (patched 14).Read := by decide
  have hnew : (patched 15).Read := by decide
  -- both calls find all numbers
  have hsame : plainHeader.context { plainEnv with timeStack := ⟨1, 2, 3, 4, 5, 6, 7, 1⟩ } =
      plainHeader.context plainEnv := by
    refine context_of_sameTime fun ts hts => ?_
    obtain rfl : cstr "2019-03-20T17:09:03.949Z" = ts := Option.some.inj hts
    exact parseTimestamp_congr (by decide) (fun _ _ => rfl) _ _
  rw [hsame] at hc'
  obtain rfl := Option.some.inj (Except.ok.inj (hc.symm.trans hc'))
  exact ⟨fun _ _ => ⟨⟨by simp [heapAndCpu, Measurements.empty], fun _ => ⟨rfl, rfl, rfl⟩,
    fun h => by cases h⟩, ⟨rfl, by simp [heapAndCpu, Measurements.empty], rfl⟩,
      .inr ⟨rfl, fun _ _ => rfl⟩⟩, fun _ h => absurd hnew h, fun h => absurd hold h⟩

/-- Version 7.16.2 sends the flat layout, which is read as the nested one. -/
theorem flat_layout_not_read :
    ¬ ∀ (env : Env) (h : Header) (p : Measurements) (old new : ServerVersion),
      old.Before715 → ¬ new.Before715 →
        tableUpdates env (document old h p) = tableUpdates env (document new h p) := by
  intro hall
  have heq := hall plainEnv plainHeader heapAndCpu (patched 14) (patched 16) (by decide) (by decide)
  have hold : (tableUpdates plainEnv
      (document (patched 14) plainHeader heapAndCpu)).length = 4 := by decide
  have hnew : (tableUpdates plainEnv
      (document (patched 16) plainHeader heapAndCpu)).length = 0 := by decide
  rw [heq, hnew] at hold
  cases hold

end Tracemate.Process
