import Tracemate.Document
import Tracemate.Lib.JsonParser
import Tracemate.Url.Replacement

/-!
# URLs by way of Kafka

`send_url_to_kafka` of `tm_utils.c` prints a URL into a JSON text, and `process_url_message` of
`tm_process_url.c` takes it out again and adds it to the path squasher of its service.

* `sendUrlToKafka`, `processUrlMessage`: the two functions;
* `parse_urlPayload`: what a JSON parser makes of the text, from the strings that the two printed
  texts stand for;
* `url_survives_iff`: when the URL arrives under its service.
-/

namespace Tracemate

open CStr COutcome JsonC Squasher

/-! ### The two functions -/

/-- What `tm_kafka_produce` is called with. -/
structure UrlMessage where
  payload : Bytes
  key : Bytes
  deriving DecidableEq

/-- The text of a message of the event `event` up to the name of its service. -/
def openingText (event : String) : Bytes :=
  cstr "\x7b" ++ (cstr "\"processor\":\x7b\"event\": \"" ++ cstr event ++ cstr "\"\x7d,") ++
    cstr "\"context\":\x7b\"service\":\x7b\"name\": \""

/-- The text that `send_url_to_kafka` prints. -/
def urlPayload (serviceName url : Bytes) : Bytes :=
  openingText "url" ++ serviceName ++ cstr "\"\x7d\x7d," ++
    (cstr "\"url\":\"" ++ url ++ cstr "\"") ++ cstr "\x7d"

/-- `send_url_to_kafka`; nothing is produced for an empty URL. -/
def sendUrlToKafka (serviceName url : Bytes) : Option UrlMessage :=
  if url = [] then none else some ⟨urlPayload serviceName url, serviceName⟩

/-- A string of the library as the code reads it, up to its first zero byte. -/
def cString (lib : Conversions) (j : Option Json) : Option Bytes := (lib.getString j).map strAt

/-- The service that `process_url_message` and `process_regex_message` read from a message. -/
def messageService (lib : Conversions) (message : Json) : Option Bytes :=
  cString lib (Json.get (cstr "name") (Json.get (cstr "service")
    (Json.get (cstr "context") (some message))))

/-- The size of the buffer `team`. -/
def teamSize : ℕ := 128

/-- The field `path_squash_cardinality_factor` that `tm_add_team` sets. -/
def pathSquashCardinalityFactor : Int32 := 200

/-- The entry of `service_data`, which is added if it is not there. -/
def TeamData.addService (td : TeamData) (serviceName : Bytes) : TeamData :=
  if serviceName ∈ td.serviceData then td
  else { td with serviceData := td.serviceData.insert serviceName ⟨none, .unknown⟩ }

/-- The call of `tm_path_squasher_add_path` on the squasher of a service, which is added if it is
not there. -/
def TeamData.addPath (td : TeamData) (orders : ℕ → IterOrder) (serviceName url : Bytes) :
    TeamData :=
  let ps := (td.urls.pathSquashers.lookup serviceName).getD
    (tmPathSquasherAlloc pathSquashCardinalityFactor)
  let ps := tmPathSquasherAddPath ps orders url
  { td with urls := { td.urls with pathSquashers := td.urls.pathSquashers.insert serviceName ps } }

/-- `process_url_message`: the teams after it, and the service and the URL of the call of
`tm_path_squasher_add_path`, if there is one. -/
def processUrlMessage (lib : Conversions) (orders : ℕ → IterOrder) (teams : Teams)
    (message : Json) : Outcome (Teams × Option (Bytes × Bytes)) :=
  match messageService lib message with
  | none => .ok (teams, none)
  | some serviceName =>
    match tmGetTeam (some serviceName) with
    | none => .ok (teams, none)
    | some team => do
      let team ← fitting teamSize team
      let (td, teams) := teams.getTeamData team
      let td := td.addService serviceName
      match cString lib (Json.get (cstr "url") (some message)) with
      | none => .ok (teams.insert team td, none)
      | some url =>
        .ok (teams.insert team (td.addPath orders serviceName url), some (serviceName, url))

/-! ### The text of a message -/

/-- The arrays and objects that are open where the name of the service begins. -/
def opened (event : Bytes) : List Frame :=
  [.member [] (cstr "name"), .member [] (cstr "service"),
    .member [(cstr "processor", .obj [(cstr "event", .str event)])] (cstr "context")]

theorem cstr_processor : cstr "\"processor\":\x7b\"event\": \"" =
    34 :: (cstr "processor" ++ 34 :: 58 :: 123 :: 34 :: (cstr "event" ++ [34, 58, 32, 34])) := by
  decide

theorem cstr_context : cstr "\"context\":\x7b\"service\":\x7b\"name\": \"" =
    34 :: (cstr "context" ++ 34 :: 58 :: 123 :: 34 :: (cstr "service" ++
      34 :: 58 :: 123 :: 34 :: (cstr "name" ++ [34, 58, 32, 34]))) := by
  decide

/-- The text before the name of the service. -/
theorem run_openingText {event : String} (h : ∀ c ∈ cstr event, needsEscape c = false)
    (text : Bytes) :
    run ⟨[], .value⟩ (openingText event ++ text) = run ⟨opened (cstr event), .str []⟩ text := by
  have hname : ∀ s : String, (∀ c ∈ cstr s, needsEscape c = false) →
      decodeString (cstr s) = some (cstr s) := fun s hs => decodeString_of_plain hs
  have hprocessor := hname "processor" (plain_of_all (by decide))
  have hevent := hname "event" (plain_of_all (by decide))
  have hcontext := hname "context" (plain_of_all (by decide))
  have hservice := hname "service" (plain_of_all (by decide))
  have hn := hname "name" (plain_of_all (by decide))
  have hbrace : cstr "\x7b" = [123] := by decide
  have hclose : cstr "\"\x7d," = [34, 125, 44] := by decide
  unfold openingText
  rw [hbrace, hclose, cstr_processor, cstr_context]
  simp only [List.append_assoc, List.cons_append, List.nil_append]
  rw [run_openObject, run_firstName hprocessor, run_openObject, run_firstName hevent, run_space,
    run_quote, run_memberString (decodeString_of_plain h), run_closeMember,
    run_nextName hcontext, run_openObject, run_firstName hservice, run_openObject,
    run_firstName hn, run_space, run_quote]
  rfl

/-- The members of a message behind the name of its service. -/
def message (event serviceName : Bytes) (rest : List (Bytes × Json)) : Json :=
  .obj (rest ++ [(cstr "context",
      .obj [(cstr "service", .obj [(cstr "name", .str serviceName)])]),
    (cstr "processor", .obj [(cstr "event", .str event)])])

theorem cstr_closeService : cstr "\"\x7d\x7d," = [34, 125, 125, 44] := by decide

theorem cstr_url : cstr "\"url\":\"" = 34 :: (cstr "url" ++ [34, 58, 34]) := by decide

theorem cstr_quote : cstr "\"" = [34] := by decide

theorem cstr_closeBrace : cstr "\x7d" = [125] := by decide

theorem urlPayload_eq (serviceName url : Bytes) : urlPayload serviceName url =
    openingText "url" ++ (serviceName ++ 34 :: 125 :: 125 :: 44 :: 34 :: (cstr "url" ++
      34 :: 58 :: 34 :: (url ++ [34, 125]))) := by
  rw [urlPayload, cstr_closeService, cstr_url, cstr_quote, cstr_closeBrace]
  simp only [List.append_assoc, List.cons_append, List.nil_append]

/-- What the parser makes of the message, if the texts of the two strings are bodies of strings. -/
theorem parse_urlPayload {b c serviceName url : Bytes} (hb : decodeString b = some serviceName)
    (hc : decodeString c = some url) :
    parseJson (urlPayload b c) = some (message (cstr "url") serviceName [(cstr "url", .str url)]) := by
  have hevent : ∀ c ∈ cstr "url", needsEscape c = false := plain_of_all (by decide)
  rw [parseJson, urlPayload_eq, run_openingText hevent, opened, run_memberString hb, run_closeMember,
    run_closeMember, run_nextName (decodeString_of_plain hevent), run_quote, run_memberString hc,
    run_closeLast]
  rfl

/-! ### The way back -/

section Process

variable {lib : Conversions} {orders : ℕ → IterOrder} {teams : Teams} {j : Json}
  {serviceName url : Bytes}

/-- The URL and the service of the call of `tm_path_squasher_add_path`. -/
theorem processUrlMessage_passes_iff :
    (∃ teams', processUrlMessage lib orders teams j = .ok (teams', some (serviceName, url))) ↔
      messageService lib j = some serviceName ∧
        (∃ team, tmGetTeam (some serviceName) = some team ∧ team.length < teamSize) ∧
        cString lib (Json.get (cstr "url") (some j)) = some url := by
  unfold processUrlMessage
  cases hservice : messageService lib j with
  | none => simp
  | some s =>
    dsimp only
    cases hteam : tmGetTeam (some s) with
    | none =>
      refine iff_of_false (by simp) ?_
      rintro ⟨hs, ⟨team, h, -⟩, -⟩
      obtain rfl := Option.some.inj hs
      rw [hteam] at h
      cases h
    | some team =>
      dsimp only
      by_cases hlen : team.length < teamSize
      · rw [show fitting teamSize team = .ok team from if_pos hlen]
        cases hurl : cString lib (Json.get (cstr "url") (some j)) with
        | none => exact iff_of_false (by rintro ⟨_, h⟩; cases h) (by simp)
        | some u =>
          constructor
          · rintro ⟨_, h⟩
            obtain ⟨-, h⟩ := Prod.mk.inj (Except.ok.inj h)
            obtain ⟨rfl, rfl⟩ := Prod.mk.inj (Option.some.inj h)
            exact ⟨rfl, ⟨team, hteam, hlen⟩, rfl⟩
          · rintro ⟨hs, -, hu⟩
            obtain rfl := Option.some.inj hs
            obtain rfl := Option.some.inj hu
            exact ⟨_, rfl⟩
      · rw [show fitting teamSize team = .error .outOfBounds from if_neg hlen]
        refine iff_of_false (by rintro ⟨_, h⟩; cases h) ?_
        rintro ⟨hs, ⟨team', h, hlen'⟩, -⟩
        obtain rfl := Option.some.inj hs
        obtain rfl := Option.some.inj (hteam.symm.trans h)
        exact hlen hlen'

theorem url_ne_context : cstr "url" ≠ cstr "context" := by decide

theorem messageService_message (lib : Conversions) (event s : Bytes) {rest : List (Bytes × Json)}
    (h : ∀ m ∈ rest, m.1 ≠ cstr "context") :
    messageService lib (message event s rest) = some (strAt s) := by
  have hcontext : Json.get (cstr "context") (some (message event s rest)) =
      some (.obj [(cstr "service", .obj [(cstr "name", .str s)])]) := by
    unfold message
    induction rest with
    | nil => exact get_cons_self _ rfl _
    | cons m rest ih =>
      obtain ⟨hm, hrest⟩ := List.forall_mem_cons.1 h
      rw [List.cons_append, get_cons_ne (Ne.symm hm)]
      exact ih hrest
  unfold messageService
  rw [hcontext, get_cons_self _ rfl, get_cons_self _ rfl]
  rfl

/-- The library that makes the empty text of values of other types. -/
def noText : Conversions := { reference with toJsonString := fun _ => [] }

theorem str_of_cString {o : Option Json} {s : Bytes} (h : cString noText o = some s) (hs : s ≠ []) :
    ∃ t, o = some (.str t) ∧ strAt t = s := by
  obtain ⟨t, ht, rfl⟩ := Option.map_eq_some_iff.1 h
  cases o with
  | none => cases ht
  | some v =>
    cases v with
    | str u =>
      obtain rfl := Option.some.inj ht
      exact ⟨u, rfl, rfl⟩
    | _ =>
      obtain rfl := Option.some.inj ht
      exact absurd rfl hs

end Process

/-! ### Forged members -/

theorem cost_name : cost (cstr "name") = 4 := by decide
theorem cost_service : cost (cstr "service") = 7 := by decide
theorem cost_context : cost (cstr "context") = 7 := by decide
theorem cost_url : cost (cstr "url") = 3 := by decide
theorem cost_event : cost (cstr "event") = 5 := by decide
theorem cost_processor : cost (cstr "processor") = 9 := by decide

/-- The weight of the value that has the strings of the message and its first member. -/
theorem weight_of_carried {t u : Bytes} {ms : List (Bytes × Json)} {ctx svc : Json}
    (hfirst : (cstr "processor", .obj [(cstr "event", .str (cstr "url"))]) ∈ ms)
    (hctx : Json.get (cstr "context") (some (.obj ms)) = some ctx)
    (hsvc : Json.get (cstr "service") (some ctx) = some svc)
    (hname : Json.get (cstr "name") (some svc) = some (.str t))
    (hurl : Json.get (cstr "url") (some (.obj ms)) = some (.str u)) :
    72 + cost t + cost u ≤ (Json.obj ms).weight := by
  have hsvcWeight := weight_of_get hname
  have hctxWeight := weight_of_get hsvc
  rw [Json.weight, cost_name] at hsvcWeight
  rw [cost_service] at hctxWeight
  obtain ⟨_, ⟨rfl⟩, hctxMem⟩ := mem_of_get hctx
  obtain ⟨_, ⟨rfl⟩, hurlMem⟩ := mem_of_get hurl
  -- the three members have three names
  have hne₁ : cstr "processor" ≠ cstr "context" := by decide
  have hne₃ : cstr "processor" ≠ cstr "url" := by decide
  have h₁ := memberWeight_add_le hctxMem
  have h₂ := memberWeight_add_le (List.mem_filter.2 ⟨hurlMem, decide_eq_true url_ne_context⟩ :
    _ ∈ ms.filter fun n => n.1 ≠ cstr "context")
  have h₃ := memberWeight_add_le (List.mem_filter.2 ⟨List.mem_filter.2
    ⟨hfirst, decide_eq_true hne₁⟩, decide_eq_true hne₃⟩ :
      _ ∈ (ms.filter fun n => n.1 ≠ cstr "context").filter fun n => n.1 ≠ cstr "url")
  simp only [Json.memberWeight, Json.weight, Json.membersWeight, cost_context, cost_url,
    cost_processor, cost_event] at h₁ h₂ h₃ ⊢
  omega

/-- If the message carries its two strings, these need no escape: otherwise it would be too short
for them. -/
theorem plain_of_carried {serviceName url t u : Bytes} {j ctx svc : Json}
    (hparse : parseJson (urlPayload serviceName url) = some j)
    (hctx : Json.get (cstr "context") (some j) = some ctx)
    (hsvc : Json.get (cstr "service") (some ctx) = some svc)
    (hname : Json.get (cstr "name") (some svc) = some (.str t)) (ht : strAt t = serviceName)
    (hurl : Json.get (cstr "url") (some j) = some (.str u)) (hu : strAt u = url) :
    (∀ c ∈ serviceName, needsEscape c = false) ∧ ∀ c ∈ url, needsEscape c = false := by
  have hevent : ∀ c ∈ cstr "url", needsEscape c = false := plain_of_all (by decide)
  obtain ⟨s, hrun, hvalue⟩ := parseJson_eq_some.1 hparse
  rw [urlPayload_eq, run_openingText hevent] at hrun
  -- the value weighs no more than the text, and the member before the context is still there
  have hweight := (weight_value hvalue).trans (weight_run_le hrun)
  have hopened : State.weight ⟨opened (cstr "url"), .str []⟩ = 60 := by
    simp only [State.weight, opened, stackWeight, Frame.weight, Json.weight, Json.membersWeight,
      Json.memberWeight, cost_name, cost_service, cost_context, cost_url, cost_event,
      cost_processor, List.length_nil]
  have hlen : (cstr "url").length = 3 := by decide
  simp only [hopened, List.length_append, List.length_cons, List.length_nil, hlen] at hweight
  obtain ⟨ms, rfl, hsuffix⟩ := value_of_keeps (keeps_run rfl hrun) hvalue
  have hcarried := weight_of_carried (hsuffix.subset (List.mem_singleton_self _)) hctx hsvc hname hurl
  have ht' : cost serviceName ≤ cost t := ht ▸ cost_le_of_prefix (List.takeWhile_prefix _)
  have hu' : cost url ≤ cost u := hu ▸ cost_le_of_prefix (List.takeWhile_prefix _)
  have hservice := length_le_cost serviceName
  have hurlLength := length_le_cost url
  exact ⟨plain_of_cost_le (by omega), plain_of_cost_le (by omega)⟩

/-- The URL arrives: the text of its message is a JSON text, and whatever the library makes of
values of other types, `process_url_message` adds this URL for this service. -/
def UrlArrives (orders : ℕ → IterOrder) (teams : Teams) (serviceName url : Bytes) : Prop :=
  ∃ msg j, sendUrlToKafka serviceName url = some msg ∧ parseJson msg.payload = some j ∧
    ∀ lib, ∃ teams', processUrlMessage lib orders teams j = .ok (teams', some (serviceName, url))

/-- **URLs by way of Kafka.**  A URL arrives under its service exactly if neither the URL nor the
name of the service has a quote, a backslash or a control byte, and the service has a team whose
name fits its buffer. -/
theorem url_survives_iff (orders : ℕ → IterOrder) (teams : Teams) {serviceName url : Bytes}
    (hne : url ≠ []) :
    UrlArrives orders teams serviceName url ↔
      (∀ c ∈ serviceName, needsEscape c = false) ∧ (∀ c ∈ url, needsEscape c = false) ∧
        ∃ team, tmGetTeam (some serviceName) = some team ∧ team.length < teamSize := by
  have hsend : sendUrlToKafka serviceName url = some ⟨urlPayload serviceName url, serviceName⟩ :=
    if_neg hne
  constructor
  · rintro ⟨msg, j, hmsg, hparse, hprocess⟩
    obtain rfl := Option.some.inj (hsend.symm.trans hmsg)
    obtain ⟨hservice, ⟨team, hteam, hlen⟩, hurl⟩ :=
      processUrlMessage_passes_iff.1 (hprocess noText)
    have hserviceName : serviceName ≠ [] := by
      rintro rfl
      cases hteam
    obtain ⟨t, hname, ht⟩ := str_of_cString hservice hserviceName
    obtain ⟨u, hurl, hu⟩ := str_of_cString hurl hne
    obtain ⟨svc, hsvc⟩ := exists_of_get hname
    rw [hsvc] at hname
    obtain ⟨ctx, hctx⟩ := exists_of_get hsvc
    rw [hctx] at hsvc
    obtain ⟨hs, hu⟩ := plain_of_carried hparse hctx hsvc hname ht hurl hu
    exact ⟨hs, hu, team, hteam, hlen⟩
  · rintro ⟨hs, hu, team, hteam, hlen⟩
    have hzero : ∀ s : Bytes, (∀ c ∈ s, needsEscape c = false) → strAt s = s := fun s hplain =>
      strAt_of_notMem fun h0 => absurd (hplain 0 h0) (by decide)
    refine ⟨_, _, hsend, parse_urlPayload (decodeString_of_plain hs) (decodeString_of_plain hu), ?_⟩
    intro lib
    refine processUrlMessage_passes_iff.2 ⟨?_, ⟨team, hteam, hlen⟩, ?_⟩
    · rw [messageService_message lib _ _ (List.forall_mem_singleton.2 url_ne_context),
        hzero serviceName hs]
    · have hget : Json.get (cstr "url") (some (message (cstr "url") serviceName
          [(cstr "url", .str url)])) = some (.str url) := get_cons_self _ rfl _
      rw [hget]
      show some (strAt url) = some url
      rw [hzero url hu]

/-- The path of a request. -/
theorem url_survives_path :
    UrlArrives (fun _ => .listed) ∅ (cstr "web-app") (cstr "/v1/games?a=1") :=
  (url_survives_iff _ _ (by decide)).2
    ⟨plain_of_all (by decide), plain_of_all (by decide), cstr "web", by decide, by decide⟩

/-- A URL can bring in another URL, which the parser takes for the last one of the message. -/
theorem parse_forged {serviceName a b : Bytes} (hs : ∀ c ∈ serviceName, needsEscape c = false)
    (ha : ∀ c ∈ a, needsEscape c = false) (hb : ∀ c ∈ b, needsEscape c = false) :
    parseJson (urlPayload serviceName (a ++ cstr "\",\"url\":\"" ++ b)) =
      some (message (cstr "url") serviceName [(cstr "url", .str b), (cstr "url", .str a)]) := by
  have hevent : ∀ c ∈ cstr "url", needsEscape c = false := plain_of_all (by decide)
  have hforged : cstr "\",\"url\":\"" = 34 :: 44 :: 34 :: (cstr "url" ++ [34, 58, 34]) := by
    decide
  rw [parseJson, urlPayload_eq, run_openingText hevent, opened,
    run_memberString (decodeString_of_plain hs), run_closeMember, run_closeMember,
    run_nextName (decodeString_of_plain hevent), run_quote, hforged]
  simp only [List.append_assoc, List.cons_append, List.nil_append]
  rw [run_memberString (decodeString_of_plain ha), run_nextName (decodeString_of_plain hevent),
    run_quote, run_memberString (decodeString_of_plain hb), run_closeLast]
  rfl

theorem url_forges_url :
    ¬ ∀ (orders : ℕ → IterOrder) (teams : Teams) (serviceName url : Bytes), url ≠ [] →
      UrlArrives orders teams serviceName url := by
  intro h
  obtain ⟨msg, j, hmsg, hparse, hprocess⟩ := h (fun _ => .listed) ∅ (cstr "web-app")
    (cstr "/a" ++ cstr "\",\"url\":\"" ++ cstr "/b") (by decide)
  obtain rfl := Option.some.inj ((if_neg (by decide)).symm.trans hmsg)
  rw [parse_forged (plain_of_all (by decide)) (plain_of_all (by decide))
    (plain_of_all (by decide))] at hparse
  obtain rfl := Option.some.inj hparse
  -- the URL that is added is `/b`
  obtain ⟨-, -, hurl⟩ := processUrlMessage_passes_iff.1 (hprocess reference)
  have hget : cString reference (Json.get (cstr "url") (some (message (cstr "url") (cstr "web-app")
      [(cstr "url", .str (cstr "/b")), (cstr "url", .str (cstr "/a"))]))) =
        some (strAt (cstr "/b")) := by
    rw [message, List.cons_append, get_cons_self _ rfl]
    rfl
  rw [hget] at hurl
  exact absurd hurl (by decide)

end Tracemate
