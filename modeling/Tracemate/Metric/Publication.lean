import Tracemate.Squasher.Matching

/-!
# The publication of regular expressions

The loop over the path squashers in `tm_flush_team_metrics`.  The regular expressions of each
service are cross-referenced with the team's table `squash_regexes`, which only messages of the
topic fill that this loop publishes to.

* `publishRegexes`: the loop, with the messages it hands to Kafka; `none` is an overflow in
  `tm_path_squasher_get_regexes`;
* `newRegexes`: what a service should publish;
* `publishesNew_iff`: it is published exactly if the service has a table in `squash_regexes`
  already, or nothing to publish.
-/

namespace Tracemate.Metric

open CStr Pattern Squasher

/-- The tables of a team that URL squashing uses, by service name. -/
structure UrlTables where
  pathSquashers : AList fun _ : Bytes => PathSquasher
  squashRegexes : AList fun _ : Bytes => RegexTable

/-- What `send_regex_to_kafka` produces, and the texts it is made of. -/
structure RegexMessage where
  serviceName : Bytes
  regex : Bytes
  replace : Bytes
  payload : Bytes
  key : Bytes
  deriving DecidableEq

/-- `send_regex_to_kafka`.  The key is the formatted text, which the buffer `key[1024]` holds for
service names below 512 bytes. -/
def sendRegexToKafka (serviceName regex replace : Bytes) : Option RegexMessage :=
  if regex = [] then none
  else some {
    serviceName, regex, replace
    payload := cstr "\x7b\"processor\":\x7b\"event\": \"regex\"\x7d," ++
      cstr "\"context\":\x7b\"service\":\x7b\"name\": \"" ++ serviceName ++ cstr "\"\x7d\x7d," ++
      cstr "\"regex\":\"" ++ regex ++ cstr "\"," ++
      cstr "\"replace\":\"" ++ replace ++ cstr "\"" ++ cstr "\x7d"
    key := serviceName ++ cstr "|" ++ regex }

section Loop

-- the order in which `ck_hs_next` visits the child sets, for each service
variable (pcre : Engine) (o : Bytes → IterOrder) (td : UrlTables)

/-- The body of the inner loop. -/
def publishRegex (serviceName : Bytes) (regex : Bytes) (m : PcreMatcher) : Option RegexMessage :=
  match td.squashRegexes.lookup serviceName with
  | some x => if regex ∈ x then none else sendRegexToKafka serviceName regex m.replace
  -- nothing is published for a service without a table
  | none => none

/-- The body of the loop over the path squashers. -/
def publishService (serviceName : Bytes) (ps : PathSquasher) : Option (List RegexMessage) :=
  (tmPathSquasherGetRegexes pcre (o serviceName) ps).map fun regexes =>
    regexes.entries.filterMap fun e => publishRegex td serviceName e.1 e.2

/-- The loop over the path squashers. -/
def publishRegexes : Option (List RegexMessage) :=
  (td.pathSquashers.entries.mapM fun e => publishService pcre o td e.1 e.2).map List.flatten

/-- The regular expressions and replacements of a service that its table does not know. -/
def newRegexes (serviceName : Bytes) : List (Bytes × Bytes) :=
  match (td.pathSquashers.lookup serviceName).bind
      (tmPathSquasherGetRegexes pcre (o serviceName)) with
  | some regexes => (regexes.entries.filter fun e =>
      ∀ x ∈ td.squashRegexes.lookup serviceName, e.1 ∉ x).map fun e => (e.1, e.2.replace)
  | none => []

end Loop

/-- What is published for a service. -/
def published (sent : List RegexMessage) (serviceName : Bytes) : List (Bytes × Bytes) :=
  (sent.filter fun m => m.serviceName = serviceName).map fun m => (m.regex, m.replace)

variable {pcre : Engine} {o : Bytes → IterOrder} {td : UrlTables} {serviceName : Bytes}
  {ps : PathSquasher} {sent : List RegexMessage}

/-! ### One service -/

theorem published_append (sent sent' : List RegexMessage) (serviceName : Bytes) :
    published (sent ++ sent') serviceName =
      published sent serviceName ++ published sent' serviceName := by
  simp [published]

theorem serviceName_of_publishRegex {regex : Bytes} {m : PcreMatcher} {msg : RegexMessage}
    (h : publishRegex td serviceName regex m = some msg) : msg.serviceName = serviceName := by
  unfold publishRegex at h
  split at h
  · split_ifs at h
    unfold sendRegexToKafka at h
    split_ifs at h
    rw [← Option.some.inj h]
  · cases h

/-- The messages of a service carry its name. -/
theorem serviceName_of_publishService (h : publishService pcre o td serviceName ps = some sent) :
    ∀ m ∈ sent, m.serviceName = serviceName := by
  obtain ⟨regexes, -, rfl⟩ := Option.map_eq_some_iff.1 h
  intro m hm
  obtain ⟨e, -, he⟩ := List.mem_filterMap.1 hm
  exact serviceName_of_publishRegex he

theorem published_of_other {name : Bytes} (h : ∀ m ∈ sent, m.serviceName = serviceName)
    (hne : serviceName ≠ name) : published sent name = [] := by
  unfold published
  rw [List.filter_eq_nil_iff.2, List.map_nil]
  intro m hm
  simpa [h m hm] using hne

theorem published_of_same (h : ∀ m ∈ sent, m.serviceName = serviceName) :
    published sent serviceName = sent.map fun m => (m.regex, m.replace) := by
  unfold published
  rw [List.filter_eq_self.2]
  intro m hm
  simpa using h m hm

/-- A regular expression starts with a bracket. -/
theorem ne_nil_of_mem_getRegexes {o : IterOrder} {t : RegexTable}
    (h : tmPathSquasherGetRegexes pcre o ps = some t) {regex : Bytes} (hmem : regex ∈ t) :
    regex ≠ [] := by
  obtain ⟨w, -, rfl, -⟩ := ((mem_getRegexes_iff h).2 regex).1 hmem
  show cstr "(" ++ _ ++ _ ≠ []
  exact List.cons_ne_nil _ _

/-- The table is empty exactly if no leaf below a squash has a text that compiles. -/
theorem entries_getRegexes_eq_nil_iff {o : IterOrder} {t : RegexTable}
    (h : tmPathSquasherGetRegexes pcre o ps = some t) :
    t.entries = [] ↔ ∀ w, LeafBelowSquash ps.rootNode w → pcre (regexText w) = none := by
  have hkeys := (mem_getRegexes_iff h).2
  constructor
  · intro hempty w hw
    by_contra hpcre
    have hmem := (hkeys _).2 ⟨w, hw, rfl, Option.isSome_iff_ne_none.2 hpcre⟩
    have hnil : t.keys = [] := by rw [AList.keys, hempty]; rfl
    rw [AList.mem_keys, hnil] at hmem
    cases hmem
  · intro hnone
    apply List.eq_nil_iff_forall_not_mem.2
    intro e he
    obtain ⟨w, hw, hkey, hpcre⟩ := (hkeys e.1).1 (List.mem_keys_of_mem he)
    rw [hkey, hnone w hw] at hpcre
    cases hpcre

/-- A service with a table publishes what the table does not know. -/
theorem publishService_of_table {x : RegexTable} {regexes : RegexTable}
    (hx : td.squashRegexes.lookup serviceName = some x)
    (ht : tmPathSquasherGetRegexes pcre (o serviceName) ps = some regexes) :
    (publishService pcre o td serviceName ps).map (List.map fun m => (m.regex, m.replace)) =
      some ((regexes.entries.filter fun e => e.1 ∉ x).map fun e => (e.1, e.2.replace)) := by
  unfold publishService
  rw [ht, Option.map_some, Option.map_some, List.map_filterMap, Option.some.injEq,
    ← List.filterMap_eq_map, ← List.filterMap_eq_filter, List.filterMap_filterMap]
  apply List.filterMap_congr
  intro e he
  have hne : e.1 ≠ [] := ne_nil_of_mem_getRegexes ht (List.mem_keys_of_mem he)
  by_cases hmem : e.1 ∈ x <;>
    simp [publishRegex, hx, hmem, sendRegexToKafka, hne, Option.guard]

/-- A service without a table publishes nothing. -/
theorem publishService_of_noTable (hx : td.squashRegexes.lookup serviceName = none)
    (h : publishService pcre o td serviceName ps = some sent) : sent = [] := by
  obtain ⟨regexes, -, rfl⟩ := Option.map_eq_some_iff.1 h
  apply List.filterMap_eq_nil_iff.2
  intro e _
  rw [publishRegex, hx]

/-! ### All services -/

/-- What the loop publishes for a service is what the loop body does for it. -/
theorem published_mapM {l : List (Sigma fun _ : Bytes => PathSquasher)} (hl : l.NodupKeys)
    {parts : List (List RegexMessage)}
    (h : l.mapM (fun e => publishService pcre o td e.1 e.2) = some parts) (name : Bytes) :
    match l.dlookup name with
    | some ps => ∃ sent, publishService pcre o td name ps = some sent ∧
        published parts.flatten name = sent.map fun m => (m.regex, m.replace)
    | none => published parts.flatten name = [] := by
  induction l generalizing parts with
  | nil =>
    obtain rfl : [] = parts := by simpa using h
    rfl
  | cons e l ih =>
    obtain ⟨serviceName, ps⟩ := e
    obtain ⟨hnot, hl⟩ := List.nodupKeys_cons.1 hl
    rw [List.mapM_cons] at h
    obtain ⟨sent, hsent, h⟩ := Option.bind_eq_some_iff.1 h
    obtain ⟨rest, hrest, h⟩ := Option.bind_eq_some_iff.1 h
    obtain rfl := Option.some.inj h
    have hnames := serviceName_of_publishService hsent
    have hih := ih hl hrest
    rw [List.flatten_cons, published_append]
    by_cases hname : serviceName = name
    · subst hname
      have hnone : l.dlookup serviceName = none := List.dlookup_eq_none.2 hnot
      rw [hnone] at hih
      rw [List.dlookup_cons_eq, published_of_same hnames]
      dsimp only at hih ⊢
      exact ⟨sent, hsent, by rw [hih, List.append_nil]⟩
    · rw [List.dlookup_cons_ne _ _ (Ne.symm hname), published_of_other hnames hname]
      exact hih

/-- **Publication.**  A flush publishes for a service exactly the regular expressions that its
table does not know, if and only if the service has a table, or no leaf below a squash whose
text compiles. -/
theorem publishesNew_iff (pcre : Engine) (o : Bytes → IterOrder) (td : UrlTables)
    {sent : List RegexMessage} (h : publishRegexes pcre o td = some sent) (serviceName : Bytes) :
    (published sent serviceName).Perm (newRegexes pcre o td serviceName) ↔
      serviceName ∈ td.squashRegexes ∨
        ∀ ps, td.pathSquashers.lookup serviceName = some ps →
          ∀ w, LeafBelowSquash ps.rootNode w → pcre (regexText w) = none := by
  obtain ⟨parts, hparts, rfl⟩ := Option.map_eq_some_iff.1 h
  have hmap := published_mapM td.pathSquashers.nodupKeys hparts serviceName
  have hlookup : td.pathSquashers.entries.dlookup serviceName =
      td.pathSquashers.lookup serviceName := rfl
  rw [hlookup] at hmap
  cases hps : td.pathSquashers.lookup serviceName with
  | none =>
    rw [hps] at hmap
    have hnil : published parts.flatten serviceName = [] := hmap
    rw [hnil, newRegexes, hps]
    exact iff_of_true (List.Perm.refl _) (.inr fun ps hp => by cases hp)
  | some ps =>
    rw [hps] at hmap
    obtain ⟨sent, hsent, hpub⟩ := hmap
    obtain ⟨regexes, ht, -⟩ := Option.map_eq_some_iff.1 hsent
    have hnew : newRegexes pcre o td serviceName = (regexes.entries.filter fun e =>
        ∀ x ∈ td.squashRegexes.lookup serviceName, e.1 ∉ x).map fun e => (e.1, e.2.replace) := by
      rw [newRegexes, hps, Option.bind_some, ht]
    rw [hpub, hnew]
    cases hx : td.squashRegexes.lookup serviceName with
    | some x =>
      have hmem : serviceName ∈ td.squashRegexes := AList.lookup_isSome.1 (by rw [hx]; rfl)
      have hservice := publishService_of_table hx ht
      rw [hsent, Option.map_some] at hservice
      rw [Option.some.inj hservice]
      exact iff_of_true (by simp) (.inl hmem)
    | none =>
      have hnot : serviceName ∉ td.squashRegexes := AList.lookup_eq_none.1 hx
      rw [publishService_of_noTable hx hsent, or_iff_right hnot, List.map_nil,
        List.nil_perm]
      simp only [Option.mem_def, reduceCtorEq, false_implies, implies_true, decide_true,
        List.filter_true, List.map_eq_nil_iff, Option.some.injEq, forall_eq']
      exact entries_getRegexes_eq_nil_iff ht

/-! ### Two teams -/

/-- A service with a squashed path, and the tables that the topic has filled. -/
def squashedService (squashRegexes : AList fun _ : Bytes => RegexTable) : UrlTables where
  pathSquashers := AList.singleton (cstr "web-app") twoPaths
  squashRegexes := squashRegexes

/-- What a flush hands to Kafka for this team. -/
def publishedBy (squashRegexes : AList fun _ : Bytes => RegexTable) :
    Option (List RegexMessage) :=
  publishRegexes reference (fun _ => .listed) (squashedService squashRegexes)

/-- The service has a table without entries: the regular expression is published. -/
theorem publishes_to_empty_table :
    ∃ sent, publishedBy (AList.singleton (cstr "web-app") ∅) = some sent ∧
      published sent (cstr "web-app") =
        [(cstr "(a\\/[^\\/]+\\/[^\\/]+.*)", cstr "a/\x7b...\x7d/\x7b...\x7d")] ∧
      (published sent (cstr "web-app")).Perm (newRegexes reference (fun _ => .listed)
        (squashedService (AList.singleton (cstr "web-app") ∅)) (cstr "web-app")) := by
  obtain ⟨sent, h⟩ : ∃ sent, publishedBy (AList.singleton (cstr "web-app") ∅) = some sent :=
    ⟨_, rfl⟩
  have hsent : (publishedBy (AList.singleton (cstr "web-app") ∅)).map
      (fun sent => published sent (cstr "web-app")) =
        some [(cstr "(a\\/[^\\/]+\\/[^\\/]+.*)", cstr "a/\x7b...\x7d/\x7b...\x7d")] := by
    decide
  rw [h] at hsent
  exact ⟨sent, h, Option.some.inj hsent, (publishesNew_iff _ _ _ h _).2 (.inl (by decide))⟩

/-- The service has no table yet: the same regular expression is new, and it is not published. -/
theorem publishes_nothing_without_table :
    publishedBy ∅ = some [] ∧
      newRegexes reference (fun _ => .listed) (squashedService ∅) (cstr "web-app") =
        [(cstr "(a\\/[^\\/]+\\/[^\\/]+.*)", cstr "a/\x7b...\x7d/\x7b...\x7d")] ∧
      ¬ (published [] (cstr "web-app")).Perm
        (newRegexes reference (fun _ => .listed) (squashedService ∅) (cstr "web-app")) := by
  have hnew : newRegexes reference (fun _ => .listed) (squashedService ∅) (cstr "web-app") =
      [(cstr "(a\\/[^\\/]+\\/[^\\/]+.*)", cstr "a/\x7b...\x7d/\x7b...\x7d")] := by
    decide
  refine ⟨by decide, hnew, ?_⟩
  rw [hnew]
  decide

end Tracemate.Metric
