import Tracemate.Lib.JsonNumber
import Tracemate.Metric.Documents

/-!
# The documents of a flush as JSON

What a JSON parser makes of the texts that `metric_to_json` prints, one by one, in a document of a
team and in a message of the aggregation topic.

* `valueMembers`, `run_metricText`: the members that are read of one metric;
* `Printing.Readable`: what is asked of `%g` and of `hist_serialize_b64`;
* `parse_documentText`: the members of a document are its metrics, in their order;
* `documents_parse`: what the parser makes of the documents of a flush.
-/

namespace Tracemate.Metric

open CStr JsonC

/-- What is asked of `%g` and of `hist_serialize_b64` for one value: that they print a number and
text that needs no escape. -/
def Printing.Readable (p : Printing) : JsonValue → Prop
  | .number value _ => NumberText (p.printG value) ∧ (decodeNumber (p.printG value)).isSome
  | .histogram value => ∀ c ∈ p.serializeB64 value, needsEscape c = false
  | _ => True

section Members

variable (p : Printing)

/-- The members that are read of a value, the last one first. -/
def valueMembers (owner : BitVec 32) (ts : ℕ) : JsonValue → List (Bytes × Json)
  | .number value count =>
    [(cstr "_ts", .int ts), (cstr "_value", (decodeNumber (p.printG value)).getD .null)] ++
      (match count with
      | some count => [(cstr "_count", .int count.toInt)]
      | none => []) ++
      [(cstr "_owner", .int owner.toNat), (cstr "_type", .str (cstr "n"))]
  | .text value =>
    [(cstr "_ts", .int ts), (cstr "_value", .str value), (cstr "_owner", .int owner.toNat),
      (cstr "_type", .str (cstr "s"))]
  | .integer value =>
    [(cstr "_ts", .int ts), (cstr "_owner", .int owner.toNat), (cstr "_value", .int value.toNat),
      (cstr "_type", .str (cstr "L"))]
  | .histogram value =>
    [(cstr "_value", .str (p.serializeB64 value)), (cstr "_owner", .int owner.toNat),
      (cstr "_ts", .int ts), (cstr "_type", .str (cstr "h"))]

/-- The member that is read of a metric. -/
def metricMember (j : MetricJson) : Bytes × Json :=
  (j.metricName, .obj (valueMembers p j.owner j.ts j.value))

end Members

/-! ### The parts of a metric -/

section Parts

variable {st : List Frame} {ms : List (Bytes × Json)}

theorem printD_eq (i : ℤ) : printD i = signText (decide (i < 0)) ++ digitsText i.natAbs := by
  unfold printD
  by_cases h : i < 0
  · rw [if_pos h, decide_eq_true h]
    rfl
  · rw [if_neg h, decide_eq_false h]
    rfl

theorem signValue_natAbs (i : ℤ) : signValue (decide (i < 0)) * i.natAbs = i := by
  by_cases h : i < 0
  · rw [decide_eq_true h]
    simp only [signValue, if_true]
    omega
  · rw [decide_eq_false h]
    simp only [signValue, Bool.false_eq_true, if_false]
    omega

/-- A member that is printed with `%u` or `%llu`. -/
theorem run_memberU (n : ℕ) {c : UInt8} (hc : inNumber c = false) (key text : Bytes) :
    run ⟨.member ms key :: st, .value⟩ (digitsText n ++ c :: text) =
      run ⟨.obj ((key, .int n) :: ms) :: st, .after⟩ (c :: text) := by
  have hj : decodeNumber (signText false ++ digitsText n) = some (.int n) := by
    rw [decodeNumber_int]
    simp [signValue]
  exact run_memberNumber (numberText_int false n) hj hc ms key text

/-- A member that is printed with `%d`. -/
theorem run_memberD (i : ℤ) {c : UInt8} (hc : inNumber c = false) (key text : Bytes) :
    run ⟨.member ms key :: st, .value⟩ (printD i ++ c :: text) =
      run ⟨.obj ((key, .int i) :: ms) :: st, .after⟩ (c :: text) := by
  have hj : decodeNumber (printD i) = some (.int i) := by
    rw [printD_eq, decodeNumber_int, signValue_natAbs]
  rw [printD_eq] at hj ⊢
  exact run_memberNumber (numberText_int _ _) hj hc ms key text

theorem decodeString_literal {s : String} (h : (cstr s).all (fun c => !needsEscape c) = true) :
    decodeString (cstr s) = some (cstr s) := decodeString_of_plain (plain_of_all h)

theorem cstr_typeN : cstr "\"_type\":\"n\"," =
    34 :: (cstr "_type" ++ 34 :: 58 :: 34 :: (cstr "n" ++ [34, 44])) := by decide

theorem cstr_typeS : cstr "\"_type\":\"s\"," =
    34 :: (cstr "_type" ++ 34 :: 58 :: 34 :: (cstr "s" ++ [34, 44])) := by decide

theorem cstr_typeL : cstr "\"_type\":\"L\"," =
    34 :: (cstr "_type" ++ 34 :: 58 :: 34 :: (cstr "L" ++ [34, 44])) := by decide

theorem cstr_typeH : cstr "\"_type\":\"h\"," =
    34 :: (cstr "_type" ++ 34 :: 58 :: 34 :: (cstr "h" ++ [34, 44])) := by decide

theorem cstr_owner : cstr "\"_owner\": " = 34 :: (cstr "_owner" ++ [34, 58, 32]) := by decide

theorem cstr_count : cstr "\"_count\": " = 34 :: (cstr "_count" ++ [34, 58, 32]) := by decide

theorem cstr_value : cstr "\"_value\": " = 34 :: (cstr "_value" ++ [34, 58, 32]) := by decide

theorem cstr_valueText : cstr "\"_value\": \"" = 34 :: (cstr "_value" ++ [34, 58, 32, 34]) := by
  decide

theorem cstr_valueHist : cstr "\"_value\":\"" = 34 :: (cstr "_value" ++ [34, 58, 34]) := by
  decide

theorem cstr_ts : cstr "\"_ts\": " = 34 :: (cstr "_ts" ++ [34, 58, 32]) := by decide

theorem cstr_comma : cstr "," = [44] := by decide

theorem cstr_quoteComma : cstr "\"," = [34, 44] := by decide

theorem cstr_quotation : cstr "\"" = [34] := by decide

end Parts

/-- What is printed of a value is read as its members. -/
theorem run_valueText {p : Printing} {value : JsonValue} (h : p.Readable value) (owner : BitVec 32)
    (ts : ℕ) (st : List Frame) (text : Bytes) :
    run ⟨.obj [] :: st, .firstKey⟩ (valueText p owner ts value ++ 125 :: text) =
      run ⟨.obj (valueMembers p owner ts value) :: st, .after⟩ (125 :: text) := by
  have htype := decodeString_literal (s := "_type") (by decide)
  have howner := decodeString_literal (s := "_owner") (by decide)
  have hcount := decodeString_literal (s := "_count") (by decide)
  have hvalue := decodeString_literal (s := "_value") (by decide)
  have hts := decodeString_literal (s := "_ts") (by decide)
  have hcomma : inNumber 44 = false := by decide
  have hclose : inNumber 125 = false := by decide
  cases value with
  | number value count =>
    obtain ⟨htext, hsome⟩ := h
    obtain ⟨j, hj⟩ := Option.isSome_iff_exists.1 hsome
    have hn := decodeString_literal (s := "n") (by decide)
    unfold valueText valueMembers
    dsimp only
    rw [cstr_typeN, cstr_owner, cstr_value, cstr_ts, cstr_comma, hj]
    cases count with
    | none =>
      simp only [List.append_assoc, List.cons_append, List.nil_append]
      rw [run_firstName htype, run_quote, run_memberString hn, run_nextName howner, run_space,
        run_memberU _ hcomma, run_nextName hvalue, run_space,
        run_memberNumber htext hj hcomma, run_nextName hts, run_space, run_memberU _ hclose]
      rfl
    | some count =>
      rw [cstr_count]
      simp only [List.append_assoc, List.cons_append, List.nil_append]
      rw [run_firstName htype, run_quote, run_memberString hn, run_nextName howner, run_space,
        run_memberU _ hcomma, run_nextName hcount, run_space, run_memberD _ hcomma,
        run_nextName hvalue, run_space, run_memberNumber htext hj hcomma, run_nextName hts,
        run_space, run_memberU _ hclose]
      rfl
  | text value =>
    have hs := decodeString_literal (s := "s") (by decide)
    unfold valueText valueMembers
    dsimp only
    rw [cstr_typeS, cstr_owner, cstr_valueText, cstr_ts, cstr_comma, cstr_quoteComma]
    simp only [List.append_assoc, List.cons_append, List.nil_append]
    rw [run_firstName htype, run_quote, run_memberString hs, run_nextName howner, run_space,
      run_memberU _ hcomma, run_nextName hvalue, run_space, run_quote,
      run_memberString (decodeString_jsonEscapeStr value), run_nextName hts, run_space,
      run_memberU _ hclose]
  | integer value =>
    have hl := decodeString_literal (s := "L") (by decide)
    unfold valueText valueMembers
    dsimp only
    rw [cstr_typeL, cstr_owner, cstr_value, cstr_ts, cstr_comma]
    simp only [List.append_assoc, List.cons_append, List.nil_append]
    rw [run_firstName htype, run_quote, run_memberString hl, run_nextName hvalue, run_space,
      run_memberU _ hcomma, run_nextName howner, run_space, run_memberU _ hcomma,
      run_nextName hts, run_space, run_memberU _ hclose]
  | histogram value =>
    have hh := decodeString_literal (s := "h") (by decide)
    unfold valueText valueMembers
    dsimp only
    rw [cstr_typeH, cstr_owner, cstr_valueHist, cstr_ts, cstr_comma, cstr_quotation]
    simp only [List.append_assoc, List.cons_append, List.nil_append]
    rw [run_firstName htype, run_quote, run_memberString hh, run_nextName hts, run_space,
      run_memberU _ hcomma, run_nextName howner, run_space, run_memberU _ hcomma,
      run_nextName hvalue, run_quote, run_memberString (decodeString_of_plain h)]

/-! ### Whole metrics and documents -/

section Text

variable {p : Printing} {j : MetricJson}

theorem cstr_openMetric : cstr "\":\x7b" = [34, 58, 123] := by decide

theorem cstr_closeMetric : cstr "\x7d" = [125] := by decide

/-- The text of a metric, in the form in which it is read. -/
theorem metricText_append (p : Printing) (j : MetricJson) (text : Bytes) : metricText p j ++ text =
    34 :: (jsonEscapeStr j.metricName ++ 34 :: 58 :: 123 ::
      (valueText p j.owner j.ts j.value ++ 125 :: text)) := by
  unfold metricText
  rw [cstr_openMetric, cstr_closeMetric, cstr_quotation]
  simp only [List.append_assoc, List.cons_append, List.nil_append]

/-- The first metric of an object. -/
theorem run_firstMetric (h : p.Readable j.value) (ms : List (Bytes × Json)) (st : List Frame)
    (text : Bytes) :
    run ⟨.obj ms :: st, .firstKey⟩ (metricText p j ++ text) =
      run ⟨.obj (metricMember p j :: ms) :: st, .after⟩ text := by
  rw [metricText_append, run_firstName (decodeString_jsonEscapeStr _), run_openObject,
    run_valueText h, run_closeMember]
  rfl

/-- Another metric of an object, from the comma before it. -/
theorem run_nextMetric (h : p.Readable j.value) (ms : List (Bytes × Json)) (st : List Frame)
    (text : Bytes) :
    run ⟨.obj ms :: st, .after⟩ (44 :: (metricText p j ++ text)) =
      run ⟨.obj (metricMember p j :: ms) :: st, .after⟩ text := by
  rw [metricText_append, run_nextName (decodeString_jsonEscapeStr _), run_openObject,
    run_valueText h, run_closeMember]
  rfl

theorem intercalate_cons (e : Bytes) (es : List Bytes) :
    (cstr ",").intercalate (e :: es) = e ++ es.flatMap fun e => 44 :: e := by
  induction es generalizing e with
  | nil => simp [List.intercalate_singleton]
  | cons e' es ih =>
    rw [List.intercalate_cons_cons, ih, cstr_comma, List.flatMap_cons]
    simp

/-- The metrics behind the first one, up to the end of the document. -/
theorem run_metrics {js : List MetricJson} (h : ∀ j ∈ js, p.Readable j.value)
    (ms : List (Bytes × Json)) :
    run ⟨[.obj ms], .after⟩ ((js.map (metricText p)).flatMap (fun e => 44 :: e) ++ [125]) =
      some ⟨[], .done (.obj ((js.map (metricMember p)).reverse ++ ms))⟩ := by
  induction js generalizing ms with
  | nil => exact run_closeLast ms
  | cons j js ih =>
    obtain ⟨hj, hjs⟩ := List.forall_mem_cons.1 h
    rw [List.map_cons, List.flatMap_cons, List.cons_append, List.cons_append, List.append_assoc,
      run_nextMetric hj, ih hjs, List.map_cons, List.reverse_cons, List.append_assoc]
    rfl

/-- A document is an object whose members are the metrics, in their order. -/
theorem parse_documentText {js : List MetricJson} (h : ∀ j ∈ js, p.Readable j.value) :
    parseJson (documentText (js.map (metricText p))) =
      some (.obj (js.map (metricMember p)).reverse) := by
  have hopen : cstr "\x7b" = [123] := by decide
  rw [parseJson, documentText, hopen, cstr_closeMetric]
  simp only [List.cons_append, List.nil_append]
  rw [run_openObject]
  cases js with
  | nil => rfl
  | cons j js =>
    obtain ⟨hj, hjs⟩ := List.forall_mem_cons.1 h
    rw [List.map_cons, intercalate_cons, List.append_assoc, run_firstMetric hj, run_metrics hjs,
      List.map_cons, List.reverse_cons]
    rfl

end Text

/-! ### The documents of a flush -/

/-- The metric that a turn renders of an entry. -/
def rendered (env : TurnEnv) (k : MetricKey) (v : MetricValue) : MetricJson :=
  (metricToJson k v true false (env.rand k % 30000)).1

section Flush

variable {env : TurnEnv} {t : MetricTable} {order : List MetricKey}

/-- A call of a turn hands over the document of due entries. -/
theorem document_of_call (env : TurnEnv) (t : MetricTable) (horder : order.Perm t.keys)
    {c : JournalCall} (hc : c ∈ (flushTeam env order t).calls) :
    c.json = documentText (c.expired.map (rendering env t)) ∧
      ∀ k ∈ c.expired, due env t k = true := by
  have hhanded : ∀ {visited : List MetricKey} {journaled : Bool} {st : Turn},
      Handed env t visited journaled st → c ∈ st.calls →
        c.json = documentText (c.expired.map (rendering env t)) ∧
          ∀ k ∈ c.expired, due env t k = true := by
    intro visited journaled st h hmem
    refine ⟨h.document c hmem, fun k hk => ?_⟩
    have hfilter : k ∈ visited.filter (due env t) :=
      h.parts ▸ List.mem_flatMap.2 ⟨c, hmem, hk⟩
    exact (List.mem_filter.1 hfilter).2
  have hnodup : order.Nodup := horder.nodup_iff.2 t.keys_nodup
  have hmem : ∀ k ∈ order, k ∈ t := fun k hk => AList.mem_keys.1 (horder.mem_iff.1 hk)
  obtain ⟨visited, -, hafter, -⟩ :=
    (accumulated_start env t).loop (by rwa [List.nil_append]) hmem
  unfold flushTeam at hc
  split at hc
  · rename_i st hst
    rw [hst] at hafter
    exact hhanded (hafter.1 rfl).write.1 hc
  · rename_i st hst
    rw [hst] at hafter
    exact hhanded (hafter.2 rfl) hc

/-- The entry of a due key. -/
theorem lookup_of_due {k : MetricKey} (h : due env t k = true) : ∃ v, t.lookup k = some v := by
  unfold due at h
  cases hv : t.lookup k with
  | none => simp [hv] at h
  | some v => exact ⟨v, rfl⟩

/-- The metric is that of a due entry. -/
def RenderedFrom (env : TurnEnv) (t : MetricTable) (k : MetricKey) (j : MetricJson) : Prop :=
  due env t k = true ∧ ∃ v, t.lookup k = some v ∧ j = rendered env k v

/-- The metrics of due entries, and their texts. -/
theorem exists_rendered (hread : ∀ k v, t.lookup k = some v →
      env.printing.Readable (jsonValue v true))
    {keys : List MetricKey} (h : ∀ k ∈ keys, due env t k = true) :
    ∃ js : List MetricJson, keys.map (rendering env t) = js.map (metricText env.printing) ∧
      (∀ j ∈ js, env.printing.Readable j.value) ∧ List.Forall₂ (RenderedFrom env t) keys js := by
  induction keys with
  | nil => exact ⟨[], rfl, by simp, .nil⟩
  | cons k keys ih =>
    obtain ⟨hk, hkeys⟩ := List.forall_mem_cons.1 h
    obtain ⟨v, hv⟩ := lookup_of_due hk
    obtain ⟨js, htexts, hreadable, hjs⟩ := ih hkeys
    refine ⟨rendered env k v :: js, ?_, List.forall_mem_cons.2 ⟨hread k v hv, hreadable⟩,
      .cons ⟨hk, v, hv, rfl⟩ hjs⟩
    rw [List.map_cons, List.map_cons, htexts, rendering_of_lookup hv]
    rfl

/-- **The documents of a flush as JSON.**  For every table, every order of the hash table and all
answers, each document that a turn hands to the journal is a JSON text: an object whose members are,
in their order, the metrics of the entries that the call counts, all of them due. -/
theorem documents_parse (env : TurnEnv) (t : MetricTable) (horder : order.Perm t.keys)
    (hread : ∀ k v, t.lookup k = some v → env.printing.Readable (jsonValue v true)) :
    ∀ c ∈ (flushTeam env order t).calls, ∃ js : List MetricJson,
      parseJson c.json = some (.obj (js.map (metricMember env.printing)).reverse) ∧
        List.Forall₂ (RenderedFrom env t) c.expired js := by
  intro c hc
  obtain ⟨hdocument, hdue⟩ := document_of_call env t horder hc
  obtain ⟨js, htexts, hreadable, hjs⟩ := exists_rendered hread hdue
  refine ⟨js, ?_, hjs⟩
  rw [hdocument, htexts, parse_documentText hreadable]

theorem documents_parse_deploys :
    ∃ c ∈ (flushTeam openJournal [deployKey] (AList.insert deployKey deployValue ∅)).calls,
      ∃ js : List MetricJson,
        parseJson c.json = some (.obj (js.map (metricMember openJournal.printing)).reverse) ∧
          List.Forall₂ (RenderedFrom openJournal (AList.insert deployKey deployValue ∅))
            c.expired js := by
  have hcalls : (flushTeam openJournal [deployKey]
      (AList.insert deployKey deployValue ∅)).calls ≠ [] := by decide
  obtain ⟨c, hc⟩ := List.exists_mem_of_ne_nil _ hcalls
  refine ⟨c, hc, documents_parse openJournal _ (List.Perm.refl [deployKey]) (fun k v hv => ?_) c hc⟩
  by_cases hk : k = deployKey
  · subst hk
    rw [AList.lookup_insert] at hv
    obtain rfl := Option.some.inj hv
    trivial
  · rw [AList.lookup_insert_ne hk] at hv
    cases hv

end Flush

end Tracemate.Metric
