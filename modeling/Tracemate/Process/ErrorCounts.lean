import Tracemate.Process.ServiceTotals

/-!
# The three counters of errors

A failed request is counted under `error_count` and under `client_error_count` or
`server_error_count`, with the same text and tags.

* `errorKey`: the key of such a counter for the text and tags in a window;
* `addedTo_count`: which of them a counter of a transaction adds to;
* `Paired`: what effects add under `error_count` is what they add under the other two, with a
  lemma for each group of updates;
* `paired_processTransactionMessage`: one document;
* `error_counts_add_up`: a run of documents.
-/

namespace Tracemate.Process

open CStr JsonC COutcome Outcome Tracemate.Metric

/-! ### Keys -/

/-- What a transaction counts. -/
def countedNames : List Bytes :=
  [cstr "error_count", cstr "client_error_count", cstr "server_error_count", cstr "request_count"]

/-- The key of the counter `what` with the suffix `s` in a window. -/
def errorKey (aggregate : Bool) (what s : Bytes) (timestamp : ℕ) : MetricKey :=
  ⟨timestamp, aggregate, !aggregate, cstr "transaction - " ++ what ++ cstr " - " ++ s⟩

/-- The suffix of the counters with a text and tags. -/
def counterSuffix (text tags : Bytes) : Bytes := text ++ cstr "|ST[" ++ tags ++ cstr "]"

/-- The formatted name stays below the end of `metric_name[4096]`. -/
def Effect.NameFits : Effect → Prop
  | .update u => u.name.formatted.length + 1 < 4096
  | _ => True

instance (e : Effect) : Decidable e.NameFits :=
  match e with
  | .update u => inferInstanceAs (Decidable (u.name.formatted.length + 1 < 4096))
  | .replace .. | .serviceType .. | .serviceAgent .. | .sendUrl .. | .addChild _
  | .markTraceable _ | .put .. | .messagesErrored | .messagesFiltered => isTrue trivial

variable {aggregate : Bool} {what what' s text tags : Bytes} {timestamp aggTimestamp : ℕ}

/-- The first letters tell them apart. -/
theorem countedNames_inj (h : what ∈ countedNames) (h' : what' ∈ countedNames) {r r' : Bytes}
    (heq : what ++ r = what' ++ r') : what = what' := by
  have hne : ∀ w ∈ countedNames, w ≠ [] := by decide
  have hinj : ∀ w ∈ countedNames, ∀ w' ∈ countedNames, w.head? = w'.head? → w = w' := by decide
  have hhead : (what ++ r).head? = what.head? := List.head?_append_of_ne_nil what (hne what h)
  refine hinj what h what' h' ?_
  rw [← hhead, heq, List.head?_append_of_ne_nil what' (hne what' h')]

/-- A counter of a transaction adds to the key with its name, its suffix and its window. -/
theorem addedTo_count (h : what ∈ countedNames) (h' : what' ∈ countedNames)
    (hfits : (Transaction.count aggTimestamp what' text tags).NameFits) :
    addedTo (errorKey aggregate what s timestamp) (Transaction.count aggTimestamp what' text tags) =
      if what = what' ∧ aggTimestamp = timestamp ∧ aggregate = true ∧ counterSuffix text tags = s
        then 1 else 0 := by
  have hname : (⟨cstr "transaction - " ++ what' ++ cstr " - ", text, tags⟩ : MetricName).metricName =
      cstr "transaction - " ++ what' ++ cstr " - " ++ counterSuffix text tags := by
    have htake := List.take_of_length_le
      (l := (⟨cstr "transaction - " ++ what' ++ cstr " - ", text, tags⟩ : MetricName).formatted)
      (i := 4094) (by
        simp only [Transaction.count, Effect.updateCounter, Effect.NameFits] at hfits
        omega)
    rw [MetricName.metricName, snprintf, htake, MetricName.formatted, counterSuffix]
    simp only [List.append_assoc]
  refine if_congr ?_ rfl rfl
  rw [NamedUpdate.key, hname, makeMetricKey, errorKey, MetricKey.mk.injEq]
  constructor
  · rintro ⟨hts, hagg, -, heq⟩
    simp only [List.append_assoc, List.append_cancel_left_eq] at heq
    obtain rfl := countedNames_inj h' h heq
    exact ⟨rfl, hts, hagg.symm, by simpa using heq⟩
  · rintro ⟨rfl, rfl, rfl, rfl⟩
    exact ⟨rfl, rfl, rfl, rfl⟩

/-! ### Pairs of updates -/

/-- When all names fit, what the effects add under `error_count` is what they add under the two
kinds. -/
def Paired (aggregate : Bool) (s : Bytes) (timestamp : ℕ) (effects : List Effect) : Prop :=
  (∀ e ∈ effects, e.NameFits) →
    added (errorKey aggregate (cstr "error_count") s timestamp) effects =
      added (errorKey aggregate (cstr "client_error_count") s timestamp) effects +
        added (errorKey aggregate (cstr "server_error_count") s timestamp) effects

theorem Paired.append {effects effects' : List Effect} (h : Paired aggregate s timestamp effects)
    (h' : Paired aggregate s timestamp effects') :
    Paired aggregate s timestamp (effects ++ effects') := by
  intro hfits
  obtain ⟨hl, hr⟩ := List.forall_mem_append.1 hfits
  rw [added_append, added_append, added_append, h hl, h' hr]
  omega

/-- The effect adds to none of the three. -/
def Effect.Quiet (aggregate : Bool) (s : Bytes) (timestamp : ℕ) (e : Effect) : Prop :=
  ∀ what ∈ countedNames, what ≠ cstr "request_count" → e.NameFits →
    addedTo (errorKey aggregate what s timestamp) e = 0

theorem paired_of_quiet {effects : List Effect}
    (h : ∀ e ∈ effects, e.Quiet aggregate s timestamp) : Paired aggregate s timestamp effects := by
  intro hfits
  have hzero : ∀ what ∈ countedNames, what ≠ cstr "request_count" →
      added (errorKey aggregate what s timestamp) effects = 0 := by
    intro what hwhat hne
    refine List.sum_eq_zero fun n hn => ?_
    obtain ⟨e, he, rfl⟩ := List.mem_map.1 hn
    exact h e he what hwhat hne (hfits e he)
  rw [hzero _ (by decide) (by decide), hzero _ (by decide) (by decide),
    hzero _ (by decide) (by decide)]

theorem quiet_requestCount :
    (Transaction.count aggTimestamp (cstr "request_count") text tags).Quiet aggregate s timestamp := by
  intro what hwhat hne hfits
  rw [addedTo_count hwhat (by decide) hfits, if_neg fun h => hne h.1]

theorem quiet_latency (t : Transaction) :
    (t.latency aggTimestamp text tags).Quiet aggregate s timestamp := fun _ _ _ _ => rfl

theorem paired_nameUpdates (t : Transaction) (name : Bytes) :
    Paired aggregate s timestamp (t.nameUpdates aggTimestamp name) := by
  refine paired_of_quiet (List.forall_mem_append.2 ⟨?_, ?_⟩)
  · simp only [List.mem_cons, List.not_mem_nil, or_false, forall_eq_or_imp, forall_eq]
    exact ⟨quiet_latency t, quiet_latency t, quiet_requestCount, quiet_requestCount⟩
  · split_ifs
    · exact List.forall_mem_singleton.2 (quiet_latency t)
    · exact List.forall_mem_nil _

/-- A counter of one kind and the one of all errors behind it. -/
theorem paired_errorCount (h : what = cstr "client_error_count" ∨ what = cstr "server_error_count")
    (text tags : Bytes) :
    Paired aggregate s timestamp [Transaction.count aggTimestamp what text tags,
      Transaction.count aggTimestamp (cstr "error_count") text tags] := by
  intro hfits
  obtain ⟨hkind, herror⟩ := List.forall_mem_cons.1 hfits
  rw [List.forall_mem_singleton] at herror
  have hmem : what ∈ countedNames := by
    rcases h with rfl | rfl <;> decide
  have hall : cstr "error_count" ∈ countedNames := by decide
  have hadded : ∀ w ∈ countedNames, added (errorKey aggregate w s timestamp)
      [Transaction.count aggTimestamp what text tags,
        Transaction.count aggTimestamp (cstr "error_count") text tags] =
      (if w = what ∧ aggTimestamp = timestamp ∧ aggregate = true ∧ counterSuffix text tags = s
        then 1 else 0) +
      if w = cstr "error_count" ∧ aggTimestamp = timestamp ∧ aggregate = true ∧
        counterSuffix text tags = s then 1 else 0 := by
    intro w hw
    rw [added_cons, added_cons, added_nil, addedTo_count hw hmem hkind,
      addedTo_count hw hall herror, Nat.add_zero]
  rw [hadded _ hall, hadded (cstr "client_error_count") (by decide),
    hadded (cstr "server_error_count") (by decide)]
  have hclient : cstr "client_error_count" ≠ cstr "error_count" := by decide
  have hserver : cstr "server_error_count" ≠ cstr "error_count" := by decide
  have hkinds : cstr "client_error_count" ≠ cstr "server_error_count" := by decide
  rcases h with rfl | rfl
  · simp [hclient, hclient.symm, hserver, hkinds.symm]
  · simp [hclient, hserver, hserver.symm, hkinds]

theorem paired_errorUpdates (t : Transaction)
    (h : what = cstr "client_error_count" ∨ what = cstr "server_error_count")
    (cleanPath method : Bytes) (userAgent : Option Bytes) :
    Paired aggregate s timestamp (t.errorUpdates aggTimestamp what cleanPath method userAgent) := by
  have hpair : ∀ text tags, Paired aggregate s timestamp
      [Transaction.count aggTimestamp what text tags,
        Transaction.count aggTimestamp (cstr "error_count") text tags] :=
    fun text tags => paired_errorCount h text tags
  unfold Transaction.errorUpdates
  refine ((hpair _ _).append (hpair _ _)).append ?_
  cases userAgent with
  | none => exact paired_of_quiet (List.forall_mem_nil _)
  | some userAgent => exact (hpair _ _).append (hpair _ _)

theorem paired_requestUpdates (t : Transaction) (cleanPath method : Bytes)
    (userAgent : Option Bytes) (statCode : ℤ) :
    Paired aggregate s timestamp
      (t.requestUpdates aggTimestamp cleanPath method userAgent statCode) := by
  have herrors : ∀ what, what = cstr "client_error_count" ∨ what = cstr "server_error_count" →
      ∀ p : Prop, ∀ _ : Decidable p, Paired aggregate s timestamp
        (if p then t.errorUpdates aggTimestamp what cleanPath method userAgent else []) := by
    intro what hwhat p _
    split_ifs
    · exact paired_errorUpdates t hwhat cleanPath method userAgent
    · exact paired_of_quiet (List.forall_mem_nil _)
  unfold Transaction.requestUpdates
  refine (((((paired_of_quiet ?_).append (herrors _ (.inl rfl) _ _)).append
    (herrors _ (.inr rfl) _ _)).append (paired_of_quiet ?_)).append (paired_of_quiet ?_)).append
      (paired_of_quiet ?_)
  · simp only [List.mem_cons, List.not_mem_nil, or_false, forall_eq_or_imp, forall_eq]
    exact ⟨quiet_latency t, quiet_latency t⟩
  · simp only [List.mem_cons, List.not_mem_nil, or_false, forall_eq_or_imp, forall_eq]
    exact ⟨quiet_requestCount, quiet_requestCount⟩
  · cases userAgent with
    | none => exact List.forall_mem_nil _
    | some userAgent => exact List.forall_mem_singleton.2 quiet_requestCount
  · split_ifs
    · simp only [Transaction.hostUpdates, List.mem_cons, List.not_mem_nil, or_false, forall_eq_or_imp,
        forall_eq]
      exact ⟨fun _ _ _ _ => rfl, quiet_latency t⟩
    · exact List.forall_mem_nil _

/-! ### Documents -/

section Document

variable {env : Env} {m : Option Json}

theorem paired_markService (t : Transaction) (type : ServiceType) :
    Paired aggregate s timestamp (t.markService type) := by
  refine paired_of_quiet fun e he => ?_
  unfold Transaction.markService at he
  split_ifs at he
  · rw [List.mem_singleton.1 he]
    exact fun _ _ _ _ => rfl
  · cases he

theorem paired_storeTransaction (serviceName traceId : Bytes) (durationUs : ℕ)
    (cleanPath : Option Bytes) :
    Paired aggregate s timestamp
      (storeTransaction env m serviceName traceId durationUs cleanPath) := fun _ => by
  simp only [(storeTransaction_quiet env m serviceName traceId durationUs cleanPath _).2]

theorem paired_processNamed (t : Transaction) (trans : Option Json) (type : ServiceType) :
    (processNamed env t trans type).Yields fun b => Paired aggregate s timestamp b.effects := by
  unfold processNamed
  apply yields_bind
  intro aggTimestamp hcenter
  exact yields_ok.2 ((paired_markService t type).append (paired_nameUpdates t _))

theorem paired_processRequest (t : Transaction) (trans : Option Json) :
    (processRequest env m t trans).Yields fun b => Paired aggregate s timestamp b.effects := by
  have hmarks : Paired aggregate s timestamp (t.markService .transactional) :=
    paired_markService t _
  intro branch hbranch
  rcases processRequest_cases hbranch with
    ⟨e, he, rfl⟩ | ⟨req, method, cleanPath, url, aggTimestamp, statCode, -, -, -, -, rfl⟩
  · refine hmarks.append (paired_of_quiet (List.forall_mem_singleton.2 fun _ _ _ _ => ?_))
    obtain rfl | rfl := List.mem_pair.1 he <;> rfl
  · refine (hmarks.append (paired_of_quiet ?_)).append (paired_requestUpdates t _ _ _ _)
    cases url with
    | none => exact List.forall_mem_nil _
    | some url => exact List.forall_mem_singleton.2 fun _ _ _ _ => rfl

theorem paired_processByType (t : Transaction) (trans : Option Json) (type : Bytes) :
    (processByType env m t trans type).Yields fun b => Paired aggregate s timestamp b.effects := by
  unfold processByType
  split_ifs with hmessage hscheduled hrequest hload
  · exact paired_processNamed t trans _
  · exact paired_processNamed t trans _
  · exact paired_processRequest t trans
  · exact yields_ok.2 (paired_markService t _)
  · exact yields_ok.2 (paired_of_quiet (List.forall_mem_nil _))

/-- Whatever way a document takes, its updates are paired. -/
theorem paired_processTransactionMessage :
    (processTransactionMessage env m).Yields fun effects =>
      Paired aggregate s timestamp effects := by
  unfold processTransactionMessage
  apply yields_bind
  rintro (_ | prepared) hprepared
  · exact yields_error
  apply yields_bind
  intro aggTagString hagg
  dsimp only
  split
  · apply yields_bind
    intro type htype
    apply yields_bind
    intro branch hbranch
    have hpaired : Paired aggregate s timestamp branch.effects :=
      paired_processByType _ _ _ _ hbranch
    split_ifs
    · exact yields_ok.2 hpaired
    · exact yields_ok.2 (hpaired.append (paired_storeTransaction _ _ _ _))
  · exact yields_ok.2 (paired_of_quiet (List.forall_mem_singleton.2 fun _ _ _ _ => rfl))

end Document

/-! ### Runs -/

/-- What a run of documents adds to a counter. -/
def addedByRun (docs : List (Env × Option Json)) (key : MetricKey) : ℕ :=
  (docs.map fun d => addedBy d.1 d.2 key).sum

/-- **The counters of errors add up.**  In a run of any documents of any services whose names all
fit the buffer, what is added under `error_count` in a window, with any suffix, is what is added
under `client_error_count` and under `server_error_count` with this suffix. -/
theorem error_counts_add_up (docs : List (Env × Option Json))
    (hfits : ∀ d ∈ docs, ∀ effects, processTransactionMessage d.1 d.2 = .ok effects →
      ∀ e ∈ effects, e.NameFits) (aggregate : Bool) (s : Bytes) (timestamp : ℕ) :
    addedByRun docs (errorKey aggregate (cstr "error_count") s timestamp) =
      addedByRun docs (errorKey aggregate (cstr "client_error_count") s timestamp) +
        addedByRun docs (errorKey aggregate (cstr "server_error_count") s timestamp) := by
  unfold addedByRun
  induction docs with
  | nil => rfl
  | cons d docs ih =>
    obtain ⟨hd, hdocs⟩ := List.forall_mem_cons.1 hfits
    have hdoc : addedBy d.1 d.2 (errorKey aggregate (cstr "error_count") s timestamp) =
        addedBy d.1 d.2 (errorKey aggregate (cstr "client_error_count") s timestamp) +
          addedBy d.1 d.2 (errorKey aggregate (cstr "server_error_count") s timestamp) := by
      unfold addedBy
      cases hok : processTransactionMessage d.1 d.2 with
      | error fault => rfl
      | ok effects => exact paired_processTransactionMessage effects hok (hd effects hok)
    rw [List.map_cons, List.sum_cons, List.map_cons, List.sum_cons, List.map_cons, List.sum_cons,
      hdoc, ih hdocs]
    omega

/-- A request to the service `a-b` that is answered with a status code. -/
def failedRequest (statusCode : ℤ) : Json :=
  .obj [(cstr "@timestamp", .str (cstr "2019-03-20T17:09:03.949Z")),
    (cstr "context", .obj [(cstr "service", .obj [(cstr "name", .str (cstr "a-b"))]),
      (cstr "request", .obj [(cstr "method", .str (cstr "get")),
        (cstr "url", .obj [(cstr "pathname", .str (cstr "/x"))])]),
      (cstr "response", .obj [(cstr "status_code", .int statusCode)])]),
    (cstr "trace", .obj [(cstr "id", .str (cstr "1f"))]),
    (cstr "transaction", .obj [(cstr "type", .str (cstr "request")), (cstr "sampled", .bool true),
      (cstr "duration", .obj [(cstr "us", .int 1500)])])]

/-- A request that is not found and one that fails in the server. -/
def twoFailures : List (Env × Option Json) :=
  [(plainEnv, some (failedRequest 404)), (plainEnv, some (failedRequest 500))]

/-- The counter of the failures by method. -/
def byMethod (what : Bytes) : MetricKey :=
  errorKey true what (counterSuffix (cstr "all") (cstr "service:a-b,host:all,ip:all,method:GET"))
    1553101770000

/-- Both are counted as errors, and each is counted in its kind. -/
theorem error_counts_not_found :
    addedByRun twoFailures (byMethod (cstr "error_count")) =
      addedByRun twoFailures (byMethod (cstr "client_error_count")) +
        addedByRun twoFailures (byMethod (cstr "server_error_count")) := by
  have hfits : ∀ d ∈ twoFailures,
      ∀ e ∈ ((processTransactionMessage d.1 d.2).toOption).getD [], e.NameFits := by
    simp only [twoFailures, List.forall_mem_cons]
    decide
  refine error_counts_add_up _ (fun d hd effects hok => ?_) _ _ _
  have hdoc := hfits d hd
  rwa [hok] at hdoc

example : addedByRun twoFailures (byMethod (cstr "error_count")) = 2 ∧
    addedByRun twoFailures (byMethod (cstr "client_error_count")) = 1 ∧
    addedByRun twoFailures (byMethod (cstr "server_error_count")) = 1 := by
  decide

end Tracemate.Process
