import Tracemate.Process.UrlMessage
import Tracemate.Squasher.RegexTable

/-!
# Regular expressions by way of Kafka

`send_regex_to_kafka` prints a regular expression into a JSON text, whose parser takes the
backslash before each slash away; `process_regex_message` of `tm_process_regex.c` puts it back and
stores the expression in the table of the service.

* `escapeRegex`, `processRegexMessage`: the functions;
* `escapeRegex_plainText`: what is read of the text of a leaf is escaped to this text again, inside
  the 20 bytes that are allocated for backslashes;
* `regex_survives`: a regular expression of a squasher arrives as it was sent.
-/

namespace Tracemate

open CStr COutcome JsonC Pattern Squasher Tracemate.Metric

/-! ### The functions -/

/-- What the loop of `escape_regex` writes for a byte. -/
def escapeRegexByte (c : UInt8) : Bytes := if c = 47 then cstr "\\/" else [c]

/-- The loop of `escape_regex`, with the bytes written so far to the memory of `size` bytes. -/
def escapeRegexFrom (size : ℕ) (escaped : Bytes) : Bytes → Outcome Bytes
  | [] => .ok escaped
  | c :: regex =>
    if escaped.length + (escapeRegexByte c).length ≤ size then
      escapeRegexFrom size (escaped ++ escapeRegexByte c) regex
    else .error .outOfBounds

/-- `escape_regex`, and that its result has a terminator. -/
def escapeRegex (regex : Bytes) : Outcome Bytes := do
  let escaped ← escapeRegexFrom (regex.length + 20) [] regex
  fitting (regex.length + 20) escaped

/-- What `process_regex_message` does with the escaped expression: if the table does not have it, it
is compiled and stored. -/
def storeRegex (lib : Conversions) (pcre : Engine) (message : Json) (regexes : RegexTable)
    (escapedRegex : Bytes) : Outcome RegexTable :=
  if escapedRegex ∈ regexes then .ok regexes
  else
    match pcre escapedRegex with
    | none => .ok regexes
    | some exec => do
      -- `strdup` reads the pointer
      let replace ← nonNull (cString lib (Json.get (cstr "replace") (some message)))
      .ok (regexes.store escapedRegex ⟨exec, replace⟩)

/-- The team with a new table for a service. -/
def TeamData.setSquashTable (td : TeamData) (serviceName : Bytes) (regexes : RegexTable) :
    TeamData :=
  { td with urls :=
    { td.urls with squashRegexes := td.urls.squashRegexes.insert serviceName regexes } }

/-- `process_regex_message`: the teams after it. -/
def processRegexMessage (lib : Conversions) (pcre : Engine) (teams : Teams) (message : Json) :
    Outcome Teams :=
  match messageService lib message with
  | none => .ok teams
  | some serviceName =>
    match tmGetTeam (some serviceName) with
    | none => .ok teams
    | some team => do
      let team ← fitting teamSize team
      let (td, teams) := teams.getTeamData team
      match Json.get (cstr "regex") (some message) with
      | none => .ok teams
      | some r => do
        let regexes := (td.urls.squashRegexes.lookup serviceName).getD ∅
        let regex ← nonNull (cString lib (some r))
        let escapedRegex ← escapeRegex regex
        let regexes ← storeRegex lib pcre message regexes escapedRegex
        .ok (teams.insert team (td.setSquashTable serviceName regexes))

/-! ### Escaping -/

/-- The text with a backslash before each slash. -/
def escapeSlashes (regex : Bytes) : Bytes := regex.flatMap escapeRegexByte

theorem length_escapeSlashes (regex : Bytes) :
    (escapeSlashes regex).length = regex.length + regex.count 47 := by
  induction regex with
  | nil => rfl
  | cons c regex ih =>
    have hcons : escapeSlashes (c :: regex) = escapeRegexByte c ++ escapeSlashes regex := rfl
    rw [hcons, List.length_append, ih, List.length_cons, List.count_cons, escapeRegexByte]
    by_cases hc : c = 47
    · have hlen : (cstr "\\/").length = 2 := by decide
      simp only [hlen, hc, beq_self_eq_true, if_true]
      omega
    · simp only [if_neg hc, List.length_singleton, beq_iff_eq]
      omega

theorem escapeRegexFrom_eq {size : ℕ} (escaped regex : Bytes)
    (h : escaped.length + (escapeSlashes regex).length ≤ size) :
    escapeRegexFrom size escaped regex = .ok (escaped ++ escapeSlashes regex) := by
  induction regex generalizing escaped with
  | nil => rw [escapeRegexFrom, escapeSlashes, List.flatMap_nil, List.append_nil]
  | cons c regex ih =>
    have hcons : escapeSlashes (c :: regex) = escapeRegexByte c ++ escapeSlashes regex := rfl
    rw [hcons, List.length_append] at h
    rw [escapeRegexFrom, if_pos (by omega), ih _ (by rw [List.length_append]; omega), hcons,
      List.append_assoc]

/-- Up to 19 slashes fit the memory. -/
theorem escapeRegex_eq {regex : Bytes} (h : regex.count 47 < 20) :
    escapeRegex regex = .ok (escapeSlashes regex) := by
  have hlen := length_escapeSlashes regex
  have hloop : escapeRegexFrom (regex.length + 20) [] regex = .ok (escapeSlashes regex) := by
    rw [escapeRegexFrom_eq [] regex (by rw [List.length_nil]; omega), List.nil_append]
  rw [escapeRegex, hloop]
  exact if_pos (by omega)

/-- The parser takes the backslashes away. -/
theorem decodeString_escapeSlashes {regex : Bytes} (h : ∀ c ∈ regex, needsEscape c = false) :
    decodeString (escapeSlashes regex) = some regex := by
  induction regex with
  | nil => rfl
  | cons c regex ih =>
    obtain ⟨hc, hregex⟩ := List.forall_mem_cons.1 h
    have hcons : escapeSlashes (c :: regex) = escapeRegexByte c ++ escapeSlashes regex := rfl
    rw [hcons, escapeRegexByte]
    split_ifs with h47
    · have hslash : cstr "\\/" = [92, 47] := by decide
      rw [hslash, h47]
      show decodeString (92 :: 47 :: escapeSlashes regex) = _
      rw [decodeString_unescape (c := 47) (by decide) rfl, ih hregex]
      rfl
    · simp only [needsEscape, Bool.or_eq_false_iff, decide_eq_false_iff_not] at hc
      show decodeString (c :: escapeSlashes regex) = _
      rw [decodeString_plain hc.1.2 hc.1.1 hc.2, ih hregex]
      rfl

/-! ### The text of a leaf without backslashes -/

/-- A segment name, or what stands for any, without its backslash. -/
def plainSegment (segmentName : Bytes) : Bytes :=
  if segmentName = squashedName then cstr "[^/]+" else segmentName

/-- What the parser reads of the text of a leaf. -/
def plainText (names : List Bytes) : Bytes :=
  cstr "(" ++ (cstr "/").intercalate (names.map plainSegment) ++ cstr ".*)"

theorem escapeSlashes_append (a b : Bytes) :
    escapeSlashes (a ++ b) = escapeSlashes a ++ escapeSlashes b := List.flatMap_append

theorem escapeSlashes_of_notMem {a : Bytes} (h : 47 ∉ a) : escapeSlashes a = a := by
  induction a with
  | nil => rfl
  | cons c a ih =>
    rw [List.mem_cons, not_or] at h
    have hcons : escapeSlashes (c :: a) = escapeRegexByte c ++ escapeSlashes a := rfl
    rw [hcons, ih h.2, escapeRegexByte, if_neg (Ne.symm h.1)]
    rfl

theorem escapeSlashes_intercalate (segments : List Bytes) :
    escapeSlashes ((cstr "/").intercalate segments) =
      (cstr "\\/").intercalate (segments.map escapeSlashes) := by
  have hslash : escapeSlashes (cstr "/") = cstr "\\/" := by decide
  induction segments with
  | nil => rfl
  | cons a segments ih =>
    cases segments with
    | nil => rw [List.intercalate_singleton, List.map_singleton, List.intercalate_singleton]
    | cons b segments =>
      rw [List.intercalate_cons_cons, escapeSlashes_append, escapeSlashes_append, hslash, ih,
        List.map_cons, List.map_cons, List.map_cons, List.intercalate_cons_cons]

theorem escapeSlashes_plainSegment {name : Bytes} (h : 47 ∉ name) :
    escapeSlashes (plainSegment name) = regexSegment name := by
  unfold plainSegment regexSegment
  split_ifs
  · decide
  · exact escapeSlashes_of_notMem h

/-- `escape_regex` makes the text of a leaf of what the parser reads of it. -/
theorem escapeSlashes_plainText {names : List Bytes} (h : ∀ name ∈ names, 47 ∉ name) :
    escapeSlashes (plainText names) = regexText names := by
  have hopen : escapeSlashes (cstr "(") = cstr "(" := by decide
  have hclose : escapeSlashes (cstr ".*)") = cstr ".*)" := by decide
  have hsegments : (names.map plainSegment).map escapeSlashes = names.map regexSegment := by
    rw [List.map_map]
    exact List.map_congr_left fun name hname => escapeSlashes_plainSegment (h name hname)
  rw [plainText, escapeSlashes_append, escapeSlashes_append, escapeSlashes_intercalate, hopen,
    hclose, hsegments]
  rfl

theorem count_plainSegment {name : Bytes} (h : 47 ∉ name) : (plainSegment name).count 47 ≤ 1 := by
  unfold plainSegment
  split_ifs
  · decide
  · rw [List.count_eq_zero_of_not_mem h]
    exact Nat.zero_le _

/-- At most two slashes for each name. -/
theorem count_intercalate {segments : List Bytes} (h : ∀ s ∈ segments, s.count 47 ≤ 1) :
    ((cstr "/").intercalate segments).count 47 ≤ 2 * segments.length := by
  induction segments with
  | nil => exact Nat.zero_le _
  | cons a segments ih =>
    obtain ⟨ha, hsegments⟩ := List.forall_mem_cons.1 h
    have ih := ih hsegments
    cases segments with
    | nil =>
      rw [List.intercalate_singleton, List.length_singleton]
      omega
    | cons b segments =>
      have hslash : (cstr "/").count 47 = 1 := by decide
      rw [List.intercalate_cons_cons, List.count_append, List.count_append, hslash,
        List.length_cons]
      omega

theorem count_plainText {names : List Bytes} (h : ∀ name ∈ names, 47 ∉ name)
    (hlen : names.length ≤ 5) : (plainText names).count 47 < 20 := by
  have hsegments : ∀ s ∈ names.map plainSegment, s.count 47 ≤ 1 := by
    intro s hs
    obtain ⟨name, hname, rfl⟩ := List.mem_map.1 hs
    exact count_plainSegment (h name hname)
  have hcount := count_intercalate hsegments
  have hopen : (cstr "(").count 47 = 0 := by decide
  have hclose : (cstr ".*)").count 47 = 0 := by decide
  rw [List.length_map] at hcount
  rw [plainText, List.count_append, List.count_append, hopen, hclose]
  omega

/-- What all bytes of the segments and of the separator satisfy, all bytes of the whole do. -/
theorem forall_mem_intercalate {P : UInt8 → Prop} {sep : Bytes} {segments : List Bytes}
    (hsep : ∀ c ∈ sep, P c) (h : ∀ s ∈ segments, ∀ c ∈ s, P c) :
    ∀ c ∈ sep.intercalate segments, P c := by
  induction segments with
  | nil => simp
  | cons a segments ih =>
    obtain ⟨ha, hsegments⟩ := List.forall_mem_cons.1 h
    cases segments with
    | nil =>
      rw [List.intercalate_singleton]
      exact ha
    | cons b segments =>
      rw [List.intercalate_cons_cons]
      simp only [List.mem_append]
      rintro c ((hc | hc) | hc)
      · exact ha c hc
      · exact hsep c hc
      · exact ih hsegments c hc

theorem plain_plainText {names : List Bytes}
    (h : ∀ name ∈ names, ∀ c ∈ name, needsEscape c = false) :
    ∀ c ∈ plainText names, needsEscape c = false := by
  have hsegments : ∀ s ∈ names.map plainSegment, ∀ c ∈ s, needsEscape c = false := by
    intro s hs
    obtain ⟨name, hname, rfl⟩ := List.mem_map.1 hs
    unfold plainSegment
    split_ifs
    · exact plain_of_all (by decide)
    · exact h name hname
  have hinside : ∀ c ∈ (cstr "/").intercalate (names.map plainSegment), needsEscape c = false :=
    forall_mem_intercalate (plain_of_all (by decide)) hsegments
  intro c hc
  rw [plainText, List.mem_append, List.mem_append] at hc
  rcases hc with (hc | hc) | hc
  · exact plain_of_all (by decide) c hc
  · exact hinside c hc
  · exact plain_of_all (by decide) c hc

theorem plain_replaceText {names : List Bytes}
    (h : ∀ name ∈ names, ∀ c ∈ name, needsEscape c = false) :
    ∀ c ∈ replaceText names, needsEscape c = false :=
  forall_mem_intercalate (plain_of_all (by decide)) h

/-! ### The message -/

theorem cstr_regexOpening : cstr "\x7b\"processor\":\x7b\"event\": \"regex\"\x7d," ++
    cstr "\"context\":\x7b\"service\":\x7b\"name\": \"" = openingText "regex" := by
  decide

theorem cstr_regex : cstr "\"regex\":\"" = 34 :: (cstr "regex" ++ [34, 58, 34]) := by
  decide

theorem cstr_replace : cstr "\"replace\":\"" = 34 :: (cstr "replace" ++ [34, 58, 34]) := by
  decide

theorem cstr_nextMember : cstr "\"," = [34, 44] := by decide

theorem payload_eq {serviceName regex replace : Bytes} {msg : RegexMessage}
    (h : sendRegexToKafka serviceName regex replace = some msg) :
    msg.payload = openingText "regex" ++ (serviceName ++ 34 :: 125 :: 125 :: 44 :: 34 ::
      (cstr "regex" ++ 34 :: 58 :: 34 :: (regex ++ 34 :: 44 :: 34 ::
        (cstr "replace" ++ 34 :: 58 :: 34 :: (replace ++ [34, 125]))))) := by
  unfold sendRegexToKafka at h
  split_ifs at h
  rw [← Option.some.inj h, cstr_regexOpening, cstr_closeService, cstr_regex, cstr_nextMember,
    cstr_replace, cstr_quote, cstr_closeBrace]
  simp only [List.append_assoc, List.cons_append, List.nil_append]

/-- What the parser makes of the message. -/
theorem parse_regexPayload {serviceName regex replace text : Bytes} {msg : RegexMessage}
    (h : sendRegexToKafka serviceName regex replace = some msg)
    (hservice : decodeString serviceName = some serviceName)
    (hregex : decodeString regex = some text) (hreplace : decodeString replace = some replace) :
    parseJson msg.payload = some (message (cstr "regex") serviceName
      [(cstr "replace", .str replace), (cstr "regex", .str text)]) := by
  have hevent : ∀ c ∈ cstr "regex", needsEscape c = false := plain_of_all (by decide)
  have hname : ∀ c ∈ cstr "replace", needsEscape c = false := plain_of_all (by decide)
  rw [parseJson, payload_eq h, run_openingText hevent, opened, run_memberString hservice,
    run_closeMember, run_closeMember, run_nextName (decodeString_of_plain hevent), run_quote,
    run_memberString hregex, run_nextName (decodeString_of_plain hname), run_quote,
    run_memberString hreplace, run_closeLast]
  rfl

theorem strAt_of_plain {s : Bytes} (h : ∀ c ∈ s, needsEscape c = false) : strAt s = s :=
  strAt_of_notMem fun h0 => absurd (h 0 h0) (by decide)

/-- The table of the service that the team has. -/
def Teams.squashTable (teams : Teams) (team serviceName : Bytes) : RegexTable :=
  ((teams.getTeamData team).1.urls.squashRegexes.lookup serviceName).getD ∅

section Process

variable {lib : Conversions} {pcre : Engine} {teams : Teams} {exec : Matcher}
  {serviceName team text replace regex : Bytes}

theorem get_regex : Json.get (cstr "regex") (some (message (cstr "regex") serviceName
    [(cstr "replace", .str replace), (cstr "regex", .str text)])) = some (.str text) := by
  rw [message, List.cons_append, List.cons_append, get_cons_ne (by decide),
    get_cons_self _ rfl]

theorem get_replace : Json.get (cstr "replace") (some (message (cstr "regex") serviceName
    [(cstr "replace", .str replace), (cstr "regex", .str text)])) = some (.str replace) := by
  rw [message, List.cons_append, get_cons_self _ rfl]

theorem service_regexMessage (hs : ∀ c ∈ serviceName, needsEscape c = false) :
    messageService lib (message (cstr "regex") serviceName
      [(cstr "replace", .str replace), (cstr "regex", .str text)]) = some serviceName := by
  have hnames : ∀ m ∈ [(cstr "replace", Json.str replace), (cstr "regex", .str text)],
      m.1 ≠ cstr "context" := by
    have hne : cstr "replace" ≠ cstr "context" ∧ cstr "regex" ≠ cstr "context" := by
      decide
    simpa using hne
  rw [messageService_message lib _ _ hnames, strAt_of_plain hs]

/-- The expression is in the table, as it was there or with the new replacement. -/
theorem storeRegex_message (hreplace : ∀ c ∈ replace, needsEscape c = false)
    (hpcre : pcre regex = some exec) (regexes : RegexTable) :
    ∃ regexes', storeRegex lib pcre (message (cstr "regex") serviceName
        [(cstr "replace", .str replace), (cstr "regex", .str text)]) regexes regex = .ok regexes' ∧
      regexes'.lookup regex = some ((regexes.lookup regex).getD ⟨exec, replace⟩) := by
  unfold storeRegex
  split_ifs with hmem
  · obtain ⟨m, hm⟩ := Option.isSome_iff_exists.1 (AList.lookup_isSome.2 hmem)
    exact ⟨regexes, rfl, by rw [hm]; rfl⟩
  · have hcString : cString lib (some (.str replace)) = some replace := by
      show some (strAt replace) = some replace
      rw [strAt_of_plain hreplace]
    rw [hpcre, get_replace, hcString]
    refine ⟨regexes.store regex ⟨exec, replace⟩, rfl, ?_⟩
    rw [RegexTable.store, if_neg hmem, AList.lookup_insert, AList.lookup_eq_none.2 hmem]
    rfl

/-- The expression is in the table of the service after its message. -/
theorem processRegexMessage_message (lib : Conversions) (teams : Teams)
    (hs : ∀ c ∈ serviceName, needsEscape c = false)
    (htext : ∀ c ∈ text, needsEscape c = false)
    (hreplace : ∀ c ∈ replace, needsEscape c = false)
    (hteam : tmGetTeam (some serviceName) = some team) (hlen : team.length < teamSize)
    (hescape : escapeRegex text = .ok regex) (hpcre : pcre regex = some exec) :
    ∃ teams' regexes, processRegexMessage lib pcre teams (message (cstr "regex") serviceName
        [(cstr "replace", .str replace), (cstr "regex", .str text)]) = .ok teams' ∧
      (teams'.getTeamData team).1.urls.squashRegexes.lookup serviceName = some regexes ∧
      regexes.lookup regex =
        some (((teams.squashTable team serviceName).lookup regex).getD ⟨exec, replace⟩) := by
  have hstored : ∃ regexes', storeRegex lib pcre (message (cstr "regex") serviceName
      [(cstr "replace", .str replace), (cstr "regex", .str text)])
        (teams.squashTable team serviceName) regex = .ok regexes' ∧ _ :=
    storeRegex_message hreplace hpcre _
  obtain ⟨regexes, hstore, hlookup⟩ := hstored
  have hcString : cString lib (some (.str text)) = some text := by
    show some (strAt text) = some text
    rw [strAt_of_plain htext]
  refine ⟨(teams.getTeamData team).2.insert team
    ((teams.getTeamData team).1.setSquashTable serviceName regexes), regexes, ?_, ?_, hlookup⟩
  · unfold processRegexMessage
    rw [service_regexMessage hs]
    dsimp only
    rw [hteam]
    dsimp only
    rw [get_regex]
    exact Outcome.bind_eq_ok.2 ⟨team, if_pos hlen, Outcome.bind_eq_ok.2 ⟨text,
      Outcome.nonNull_eq_ok.2 hcString,
      Outcome.bind_eq_ok.2 ⟨regex, hescape, Outcome.bind_eq_ok.2 ⟨regexes, hstore, rfl⟩⟩⟩⟩
  · unfold Teams.getTeamData
    rw [AList.lookup_insert]
    exact AList.lookup_insert _

end Process

/-- The service has a squasher: `process_url_message` has added a URL for it. -/
def HasSquasher (serviceName : Bytes) : Prop :=
  ∃ lib orders teams j teams' url,
    processUrlMessage lib orders teams j = .ok (teams', some (serviceName, url))

theorem exists_team_of_hasSquasher {serviceName : Bytes} (h : HasSquasher serviceName) :
    ∃ team, tmGetTeam (some serviceName) = some team ∧ team.length < teamSize := by
  obtain ⟨lib, orders, teams, j, teams', url, hprocess⟩ := h
  exact (processUrlMessage_passes_iff.1 ⟨teams', hprocess⟩).2.1

/-- **Regular expressions by way of Kafka.**  A regular expression of a squasher whose names need
no escape is read from its message without its backslashes, and `escape_regex` gives it back, inside
its memory; it is then in the table of the service, with its replacement if it is new, and the next
flush does not publish it again. -/
theorem regex_survives {cf : Int32} {calls : List Call} {pcre : Engine} {o : IterOrder}
    {t : RegexTable}
    (ht : tmPathSquasherGetRegexes pcre o ((tmPathSquasherAlloc cf).addPaths calls) = some t)
    (hnames : ((tmPathSquasherAlloc cf).addPaths calls).rootNode.NamesBelow fun name =>
      ∀ c ∈ name, needsEscape c = false)
    {serviceName : Bytes} (hs : ∀ c ∈ serviceName, needsEscape c = false)
    (hadded : HasSquasher serviceName)
    {regex : Bytes} {m : PcreMatcher} (hm : t.lookup regex = some m) {msg : RegexMessage}
    (hsend : sendRegexToKafka serviceName regex m.replace = some msg) (teams : Teams) :
    ∃ team j, tmGetTeam (some serviceName) = some team ∧ parseJson msg.payload = some j ∧
      ∀ lib, ∃ text teams',
        cString lib (Json.get (cstr "regex") (some j)) = some text ∧
        escapeRegex text = .ok regex ∧
        processRegexMessage lib pcre teams j = .ok teams' ∧
        (teams'.squashTable team serviceName).lookup regex =
          some (((teams.squashTable team serviceName).lookup regex).getD m) ∧
        publishRegex (teams'.getTeamData team).1.urls serviceName regex m = none := by
  obtain ⟨team, hteam, hlen⟩ := exists_team_of_hasSquasher hadded
  obtain ⟨w, ⟨n, hw, -⟩, rfl, hpcre, hreplace⟩ := exists_leaf_of_lookup ht hm
  obtain ⟨exec, replace⟩ := m
  obtain rfl : replace = replaceText w := hreplace
  have hpath : w ∈ ((tmPathSquasherAlloc cf).addPaths calls).rootNode.paths := ⟨n, hw.walk⟩
  have hplain := hnames w hpath
  have hslash : ∀ name ∈ w, (47 : UInt8) ∉ name := by
    refine namesBelow_addPaths (P := fun name => 47 ∉ name) (by decide) calls ?_ ?_ w hpath
    · intro call _ s hs
      exact notMem_of_mem_strtok hs
    · intro v hv
      rw [tmPathSquasherAlloc, paths_createNode] at hv
      rw [Set.mem_singleton_iff.1 hv]
      simp
  have hdepth : w.length ≤ 5 := depthBelow_addPaths calls (depthBelow_createNode _ 5) w hpath
  have htext := plain_plainText hplain
  have hescape : escapeRegex (plainText w) = .ok (regexText w) := by
    rw [escapeRegex_eq (count_plainText hslash hdepth), escapeSlashes_plainText hslash]
  have hdecode : decodeString (regexText w) = some (plainText w) := by
    rw [← escapeSlashes_plainText hslash]
    exact decodeString_escapeSlashes htext
  have hreplace := plain_replaceText hplain
  refine ⟨team, _, hteam, parse_regexPayload hsend (decodeString_of_plain hs) hdecode
    (decodeString_of_plain hreplace), fun lib => ?_⟩
  obtain ⟨teams', regexes, hprocess, htable, hlookup⟩ :=
    processRegexMessage_message lib teams hs htext hreplace hteam hlen hescape hpcre
  refine ⟨plainText w, teams', ?_, hescape, hprocess, ?_, ?_⟩
  · rw [get_regex]
    show some (strAt (plainText w)) = _
    rw [strAt_of_plain htext]
  · rw [Teams.squashTable, htable]
    exact hlookup
  · have hmem : regexText w ∈ regexes := AList.lookup_isSome.1 (by rw [hlookup]; rfl)
    rw [publishRegex, htable]
    exact if_pos hmem

/-- One URL is enough. -/
theorem hasSquasher_of_plain {serviceName team : Bytes}
    (hs : ∀ c ∈ serviceName, needsEscape c = false)
    (hteam : tmGetTeam (some serviceName) = some team) (hlen : team.length < teamSize) :
    HasSquasher serviceName := by
  have hservice : messageService reference (message (cstr "url") serviceName
      [(cstr "url", .str [47])]) = some serviceName := by
    rw [messageService_message _ _ _ (List.forall_mem_singleton.2 url_ne_context),
      strAt_of_plain hs]
  have hurl : cString reference (Json.get (cstr "url") (some (message (cstr "url") serviceName
      [(cstr "url", .str [47])]))) = some [47] := by
    rw [message, List.cons_append, get_cons_self _ rfl]
    rfl
  obtain ⟨teams', h⟩ := processUrlMessage_passes_iff.2 ⟨hservice, ⟨team, hteam, hlen⟩, hurl⟩
  exact ⟨reference, fun _ => .listed, ∅, _, teams', _, h⟩

/-- The regular expression `(a\/[^\/]+\/[^\/]+.*)` of the squasher after two paths. -/
theorem regex_survives_twoPaths :
    ∃ (t : RegexTable) (m : PcreMatcher) (msg : RegexMessage) (team : Bytes) (j : Json),
      tmPathSquasherGetRegexes reference .listed twoPaths = some t ∧
      t.lookup (regexText [cstr "a", squashedName, squashedName]) = some m ∧
      tmGetTeam (some (cstr "web-app")) = some team ∧ parseJson msg.payload = some j ∧
      ∀ lib, ∃ text teams',
        cString lib (Json.get (cstr "regex") (some j)) = some text ∧
        escapeRegex text = .ok (regexText [cstr "a", squashedName, squashedName]) ∧
        processRegexMessage lib reference ∅ j = .ok teams' ∧
        (teams'.squashTable team (cstr "web-app")).lookup
            (regexText [cstr "a", squashedName, squashedName]) = some m ∧
        publishRegex (teams'.getTeamData team).1.urls (cstr "web-app")
          (regexText [cstr "a", squashedName, squashedName]) m = none := by
  have hsome : (tmPathSquasherGetRegexes reference .listed twoPaths).isSome := by
    refine (isSome_getRegexes_iff _ _ _).2 fun w hw => ?_
    rw [leafBelowSquash_twoPaths.1 hw]
    decide
  obtain ⟨t, ht⟩ := Option.isSome_iff_exists.1 hsome
  have hmem : regexText [cstr "a", squashedName, squashedName] ∈ t :=
    ((mem_getRegexes_iff ht).2 _).2
      ⟨_, leafBelowSquash_twoPaths.2 rfl, rfl, by decide⟩
  obtain ⟨m, hm⟩ := Option.isSome_iff_exists.1 (AList.lookup_isSome.2 hmem)
  have hnames : twoPaths.rootNode.NamesBelow fun name => ∀ c ∈ name, needsEscape c = false := by
    refine namesBelow_addPaths (plain_of_all (by decide)) _
      (fun call hcall name hname => plain_of_all ?_) ?_
    · revert call name
      decide
    intro v hv
    rw [tmPathSquasherAlloc, paths_createNode] at hv
    rw [Set.mem_singleton_iff.1 hv]
    simp
  have hsend : sendRegexToKafka (cstr "web-app")
      (regexText [cstr "a", squashedName, squashedName]) m.replace = some _ :=
    if_neg (by decide)
  have hplain : ∀ c ∈ cstr "web-app", needsEscape c = false := plain_of_all (by decide)
  have hteam : tmGetTeam (some (cstr "web-app")) = some (cstr "web") := by decide
  have hadded : HasSquasher (cstr "web-app") :=
    hasSquasher_of_plain hplain hteam (by decide)
  unfold twoPaths at ht hnames
  obtain ⟨team, j, hteam, hparse, hprocess⟩ := regex_survives ht hnames hplain hadded hm hsend ∅
  refine ⟨t, m, _, team, j, ht, hm, hteam, hparse, fun lib => ?_⟩
  obtain ⟨text, teams', htext, hescape, hteams', hlookup, hpublish⟩ := hprocess lib
  have hnew : Teams.squashTable ∅ team (cstr "web-app") = ∅ := rfl
  rw [hnew, AList.lookup_empty] at hlookup
  exact ⟨text, teams', htext, hescape, hteams', hlookup, hpublish⟩

end Tracemate
