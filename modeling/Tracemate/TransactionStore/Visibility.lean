import Tracemate.TransactionStore.Jaeger

/-!
# Which teams see a trace

A trace that goes to Jaeger is sent to the team of its root; its children are sent to their own
teams as well, and the root once more.

* `FullVisibility`: every team that owns a document of the trace receives all of it;
* `jaegerizeChild_posts`, `jaegerizeChildren_posts`: what one child and what all children add;
* `mem_posts_iff`: what is sent of a trace;
* `fullVisibility_iff`: full visibility needs that at most one other team takes part, and that it
  owns all children.
-/

namespace Tracemate.TransactionStore

open CStr JsonC Lmdb COutcome Outcome

section Definitions

variable (j : JaegerEnv)

/-- The team of a document. -/
def docTeam (doc : Json) : Option Bytes := tmGetTeam (tmServiceName j.lib (some doc))

/-- A document that the second pass does not drop as invalid. -/
def HasProcessor (doc : Json) : Prop := (Json.get (cstr "processor") (some doc)).isSome = true

/-- A document whose event is `span` or `transaction`. -/
def IsSpanOrTransaction (doc : Json) : Prop :=
  ∃ processor, Json.get (cstr "processor") (some doc) = some processor ∧
    ∃ event, j.lib.getString (Json.get (cstr "event") (some processor)) = some event ∧
      (event = cstr "transaction" ∨ event = cstr "span")

/-- The team owns a document of the trace. -/
def Handed.Owns (h : Handed) (team : Bytes) : Prop :=
  docTeam j h.trans = some team ∨ ∃ c ∈ h.children, HasProcessor c ∧ docTeam j c = some team

/-- The root, every span and every transaction of the trace are sent to the team's instance. -/
def Handed.Receives (h : Handed) (team : Bytes) : Prop :=
  ⟨.root, j.jaegerDestUrl team⟩ ∈ h.sending.posts ∧
    ∀ i c, h.children[i]? = some c → IsSpanOrTransaction j c →
      ⟨.child i, j.jaegerDestUrl team⟩ ∈ h.sending.posts

/-- Every team that owns a document of the trace receives the trace. -/
def Handed.FullVisibility (h : Handed) : Prop := ∀ team, h.Owns j team → h.Receives j team

/-- The teams that take part have different Jaeger instances. -/
def Handed.Apart (h : Handed) : Prop :=
  ∀ team team', h.Owns j team → h.Owns j team' →
    j.jaegerDestUrl team = j.jaegerDestUrl team' → team = team'

/-- If a team other than the root's takes part, it is the only one, and it owns every span and
every transaction below the root. -/
def Handed.OneOtherTeam (h : Handed) : Prop :=
  ∀ other, h.Owns j other → other ≠ h.sending.team →
    (∀ other', h.Owns j other' → other' ≠ h.sending.team → other' = other) ∧
      ∀ c ∈ h.children, IsSpanOrTransaction j c → docTeam j c = some other

/-- The other team of a child, if it has one. -/
def otherTeam (team : Bytes) (c : Json) : Option Bytes :=
  if (Json.get (cstr "processor") (some c)).isSome then (docTeam j c).filter (· ≠ team) else none

end Definitions

variable {j : JaegerEnv} {team other : Bytes} {c : Json} {children : List Json} {i : ℕ}
  {st st' : SecondPass} {p : Post}

theorem teamOf_eq_ok {doc : Json} {o : Option Bytes} (h : teamOf j doc = .ok o) :
    o = docTeam j doc := by
  unfold teamOf at h
  unfold docTeam
  cases hteam : tmGetTeam (tmServiceName j.lib (some doc)) with
  | none =>
    rw [hteam] at h
    exact (Except.ok.inj h).symm
  | some team =>
    rw [hteam] at h
    obtain ⟨team', hfits, h⟩ := bind_eq_ok.1 h
    obtain ⟨-, rfl⟩ := fitting_eq_ok.1 hfits
    exact (Except.ok.inj h).symm

theorem otherTeam_eq_some : otherTeam j team c = some other ↔
    HasProcessor c ∧ docTeam j c = some other ∧ other ≠ team := by
  unfold otherTeam HasProcessor
  split_ifs with hprocessor
  · simp [hprocessor, Option.filter_eq_some_iff]
  · simp [hprocessor]

theorem IsSpanOrTransaction.hasProcessor (h : IsSpanOrTransaction j c) : HasProcessor c := by
  obtain ⟨processor, hprocessor, -⟩ := h
  unfold HasProcessor
  rw [hprocessor]
  rfl

/-! ### The second pass -/

/-- What one child adds: the root for the first other team, and the child itself for the root's
team and its own. -/
theorem jaegerizeChild_posts (h : jaegerizeChild j team i c st = .ok st') :
    st'.rejaegeredRoot = (st.rejaegeredRoot || (otherTeam j team c).isSome) ∧
    (p ∈ st'.posts ↔ p ∈ st.posts ∨
      (st.rejaegeredRoot = false ∧
        ∃ other, otherTeam j team c = some other ∧ p = ⟨.root, j.jaegerDestUrl other⟩) ∨
      (IsSpanOrTransaction j c ∧ (p = ⟨.child i, j.jaegerDestUrl team⟩ ∨
        ∃ other, otherTeam j team c = some other ∧ p = ⟨.child i, j.jaegerDestUrl other⟩))) := by
  unfold jaegerizeChild at h
  cases hprocessor : Json.get (cstr "processor") (some c) with
  | none =>
    rw [hprocessor] at h
    obtain rfl := Except.ok.inj h
    have hother : otherTeam j team c = none := by simp [otherTeam, hprocessor]
    have hspan : ¬ IsSpanOrTransaction j c := fun hs => by
      have := hs.hasProcessor
      simp [HasProcessor, hprocessor] at this
    simp [hother, hspan]
  | some processor =>
    rw [hprocessor] at h
    obtain ⟨o, ho, h⟩ := bind_eq_ok.1 h
    obtain rfl := teamOf_eq_ok ho
    have hother : otherTeam j team c = (docTeam j c).filter (· ≠ team) := by
      simp [otherTeam, hprocessor]
    rw [← hother] at h
    obtain ⟨event, hevent, h⟩ := bind_eq_ok.1 h
    have hstring := nonNull_eq_ok.1 hevent
    have hkind : IsSpanOrTransaction j c ↔ event = cstr "transaction" ∨ event = cstr "span" := by
      unfold IsSpanOrTransaction
      rw [hprocessor]
      simp [hstring]
    by_cases hsent : event = cstr "transaction" ∨ event = cstr "span"
    · rw [if_pos hsent] at h
      obtain rfl := Except.ok.inj h
      refine ⟨rfl, ?_⟩
      rw [iff_true_intro (hkind.2 hsent)]
      cases otherTeam j team c with
      | none => simp
      | some other => cases st.rejaegeredRoot <;> simp
    · rw [if_neg hsent] at h
      obtain rfl := Except.ok.inj h
      refine ⟨rfl, ?_⟩
      rw [iff_false_intro fun hs => hsent (hkind.1 hs)]
      cases otherTeam j team c with
      | none => simp
      | some other => cases st.rejaegeredRoot <;> simp

/-- The first other team among the children. -/
def firstOther (j : JaegerEnv) (team : Bytes) (children : List Json) : Option Bytes :=
  children.findSome? (otherTeam j team)

/-- What the children from the place `i` on add. -/
theorem jaegerizeChildren_posts (h : jaegerizeChildren j team i children st = .ok st') :
    p ∈ st'.posts ↔ p ∈ st.posts ∨
      (st.rejaegeredRoot = false ∧
        ∃ other, firstOther j team children = some other ∧ p = ⟨.root, j.jaegerDestUrl other⟩) ∨
      ∃ k c, children[k]? = some c ∧ IsSpanOrTransaction j c ∧
        (p = ⟨.child (i + k), j.jaegerDestUrl team⟩ ∨
          ∃ other, otherTeam j team c = some other ∧
            p = ⟨.child (i + k), j.jaegerDestUrl other⟩) := by
  induction children generalizing i st with
  | nil =>
    obtain rfl := Except.ok.inj h
    simp [firstOther]
  | cons c children ih =>
    obtain ⟨mid, hmid, h⟩ := bind_eq_ok.1 h
    obtain ⟨hflag, hposts⟩ := jaegerizeChild_posts (p := p) hmid
    rw [ih h, hposts, hflag]
    -- the places of the children below the first one
    have hplaces : (∃ k c', (c :: children)[k]? = some c' ∧ IsSpanOrTransaction j c' ∧
        (p = ⟨.child (i + k), j.jaegerDestUrl team⟩ ∨ ∃ other, otherTeam j team c' = some other ∧
          p = ⟨.child (i + k), j.jaegerDestUrl other⟩)) ↔
        (IsSpanOrTransaction j c ∧ (p = ⟨.child i, j.jaegerDestUrl team⟩ ∨
          ∃ other, otherTeam j team c = some other ∧ p = ⟨.child i, j.jaegerDestUrl other⟩)) ∨
        ∃ k c', children[k]? = some c' ∧ IsSpanOrTransaction j c' ∧
          (p = ⟨.child (i + 1 + k), j.jaegerDestUrl team⟩ ∨
            ∃ other, otherTeam j team c' = some other ∧
              p = ⟨.child (i + 1 + k), j.jaegerDestUrl other⟩) := by
      constructor
      · rintro ⟨k, c', hk, hrest⟩
        cases k with
        | zero =>
          obtain rfl := Option.some.inj hk
          exact .inl hrest
        | succ k =>
          have hadd : i + (k + 1) = i + 1 + k := by omega
          rw [hadd] at hrest
          exact .inr ⟨k, c', hk, hrest⟩
      · rintro (hfirst | ⟨k, c', hk, hrest⟩)
        · exact ⟨0, c, rfl, hfirst⟩
        · have hadd : i + 1 + k = i + (k + 1) := by omega
          rw [hadd] at hrest
          exact ⟨k + 1, c', hk, hrest⟩
    rw [hplaces]
    unfold firstOther
    rw [List.findSome?_cons]
    cases otherTeam j team c with
    | none => simp [or_assoc, or_left_comm]
    | some other => cases st.rejaegeredRoot <;> simp [or_assoc]

/-- What is sent of a trace. -/
theorem mem_posts_iff {transaction : Json} {sending : Sending}
    (h : jaegerizeTrace j transaction children = .ok (some sending)) :
    docTeam j transaction = some sending.team ∧
    (p ∈ sending.posts ↔ p = ⟨.root, j.jaegerDestUrl sending.team⟩ ∨
      (∃ other, firstOther j sending.team children = some other ∧
        p = ⟨.root, j.jaegerDestUrl other⟩) ∨
      ∃ k c, children[k]? = some c ∧ IsSpanOrTransaction j c ∧
        (p = ⟨.child k, j.jaegerDestUrl sending.team⟩ ∨
          ∃ other, otherTeam j sending.team c = some other ∧
            p = ⟨.child k, j.jaegerDestUrl other⟩)) := by
  obtain ⟨o, ho, h⟩ := bind_eq_ok.1 h
  cases o with
  | none => cases h
  | some team =>
    obtain ⟨errors, -, h⟩ := bind_eq_ok.1 h
    obtain ⟨st, hst, h⟩ := bind_eq_ok.1 h
    obtain rfl := Option.some.inj (Except.ok.inj h)
    refine ⟨(teamOf_eq_ok ho).symm, ?_⟩
    dsimp only
    rw [jaegerizeChildren_posts hst]
    simp

/-! ### Full visibility -/

theorem firstOther_eq_some (h : firstOther j team children = some other) :
    ∃ c ∈ children, otherTeam j team c = some other := List.exists_of_findSome?_eq_some h

theorem exists_firstOther (hc : c ∈ children) (h : otherTeam j team c = some other) :
    ∃ first, firstOther j team children = some first := by
  cases hfirst : firstOther j team children with
  | none =>
    rw [List.findSome?_eq_none_iff.1 hfirst c hc] at h
    cases h
  | some first => exact ⟨first, rfl⟩

section Trace

variable {h : Handed}

theorem owns_root (hsent : jaegerizeTrace j h.trans h.children = .ok (some h.sending)) :
    h.Owns j h.sending.team :=
  .inl (mem_posts_iff (p := ⟨.root, []⟩) hsent).1

theorem owns_otherTeam (hc : c ∈ h.children) (hother : otherTeam j h.sending.team c = some other) :
    h.Owns j other ∧ other ≠ h.sending.team := by
  obtain ⟨hprocessor, hteam, hne⟩ := otherTeam_eq_some.1 hother
  exact ⟨.inr ⟨c, hc, hprocessor, hteam⟩, hne⟩

/-- The team of the root receives everything. -/
theorem receives_root (hsent : jaegerizeTrace j h.trans h.children = .ok (some h.sending)) :
    h.Receives j h.sending.team := by
  constructor
  · exact (mem_posts_iff hsent).2.2 (.inl rfl)
  · intro i c hi hspan
    exact (mem_posts_iff hsent).2.2 (.inr (.inr ⟨i, c, hi, hspan, .inl rfl⟩))

/-- Another team receives everything exactly if it is the first other team and owns all children
that are sent. -/
theorem receives_other_iff (hsent : jaegerizeTrace j h.trans h.children = .ok (some h.sending))
    (hapart : h.Apart j) (howns : h.Owns j other) (hne : other ≠ h.sending.team) :
    h.Receives j other ↔ firstOther j h.sending.team h.children = some other ∧
      ∀ c ∈ h.children, IsSpanOrTransaction j c → docTeam j c = some other := by
  have hroot := owns_root hsent
  have hnot : j.jaegerDestUrl other ≠ j.jaegerDestUrl h.sending.team := fun heq =>
    hne (hapart other h.sending.team howns hroot heq)
  unfold Handed.Receives
  rw [(mem_posts_iff hsent).2]
  constructor
  · rintro ⟨hfirst, hchildren⟩
    constructor
    · rcases hfirst with heq | ⟨first, hfirst, heq⟩ | ⟨k, c, -, -, heq | ⟨o, -, heq⟩⟩
      · exact absurd (congrArg Post.destination heq) hnot
      · obtain ⟨c, hc, hother⟩ := firstOther_eq_some hfirst
        have hsame := hapart other first howns (owns_otherTeam hc hother).1
          (congrArg Post.destination heq)
        rw [hsame, hfirst]
      · cases congrArg Post.document heq
      · cases congrArg Post.document heq
    · intro c hc hspan
      obtain ⟨i, hi⟩ := List.mem_iff_getElem?.1 hc
      have hpost := hchildren i c hi hspan
      rw [(mem_posts_iff hsent).2] at hpost
      rcases hpost with heq | ⟨first, -, heq⟩ | ⟨k, c', hk, -, heq | ⟨o, hother, heq⟩⟩
      · cases congrArg Post.document heq
      · cases congrArg Post.document heq
      · exact absurd (congrArg Post.destination heq) hnot
      · obtain rfl : i = k := by simpa using congrArg Post.document heq
        obtain rfl := Option.some.inj (hi.symm.trans hk)
        have hsame := hapart other o howns (owns_otherTeam hc hother).1
          (congrArg Post.destination heq)
        rw [hsame]
        exact (otherTeam_eq_some.1 hother).2.1
  · rintro ⟨hfirst, hchildren⟩
    refine ⟨.inr (.inl ⟨other, hfirst, rfl⟩), fun i c hi hspan => ?_⟩
    rw [(mem_posts_iff hsent).2]
    refine .inr (.inr ⟨i, c, hi, hspan, .inr ⟨other, ?_, rfl⟩⟩)
    have hc : c ∈ h.children := List.mem_iff_getElem?.2 ⟨i, hi⟩
    exact otherTeam_eq_some.2 ⟨hspan.hasProcessor, hchildren c hc hspan, hne⟩

/-- What is sent of a trace reaches all of its teams exactly if at most one other team takes part
and owns all children that are sent. -/
theorem fullVisibility_of_sent
    (hsent : jaegerizeTrace j h.trans h.children = .ok (some h.sending)) (hapart : h.Apart j) :
    h.FullVisibility j ↔ h.OneOtherTeam j := by
  constructor
  · intro hfull other howns hne
    obtain ⟨hfirst, hchildren⟩ := (receives_other_iff hsent hapart howns hne).1 (hfull other howns)
    refine ⟨fun other' howns' hne' => ?_, hchildren⟩
    obtain ⟨hfirst', -⟩ := (receives_other_iff hsent hapart howns' hne').1 (hfull other' howns')
    exact Option.some.inj (hfirst'.symm.trans hfirst)
  · intro hone team howns
    by_cases hteam : team = h.sending.team
    · rw [hteam]
      exact receives_root hsent
    · obtain ⟨honly, hchildren⟩ := hone team howns hteam
      refine (receives_other_iff hsent hapart howns hteam).2 ⟨?_, hchildren⟩
      -- the team owns a child, so that some child has another team
      rcases howns with hroot | ⟨c, hc, hprocessor, hdoc⟩
      · rw [(mem_posts_iff (p := ⟨.root, []⟩) hsent).1] at hroot
        exact absurd (Option.some.inj hroot).symm hteam
      · obtain ⟨first, hfirst⟩ :=
          exists_firstOther hc (otherTeam_eq_some.2 ⟨hprocessor, hdoc, hteam⟩)
        obtain ⟨c', hc', hother⟩ := firstOther_eq_some hfirst
        obtain ⟨howns', hne'⟩ := owns_otherTeam hc' hother
        rw [hfirst, honly first howns' hne']

end Trace

/-- **Visibility.**  A trace that `tm_transaction_store_process_jaeger` sends is visible to all
teams that own a document of it exactly if at most one team other than the root's takes part, and
that team owns every span and every transaction below the root. -/
theorem fullVisibility_iff (j : JaegerEnv) (s s' : Store) (now : ℕ) (a : JaegerAnswers)
    (report : JaegerReport) (n : ℕ)
    (hok : tmTransactionStoreProcessJaeger j s now a = .ok (s', report, n))
    (h : Handed) (hmem : h ∈ report.handed) (hapart : h.Apart j) :
    h.FullVisibility j ↔ h.OneOtherTeam j :=
  fullVisibility_of_sent (sent_of_handed hok h hmem) hapart

/-! ### Two traces -/

/-- The root transaction of the service `a-web`. -/
def rootTransaction : Json :=
  .obj [(cstr "context", .obj [(cstr "service", .obj [(cstr "name", .str (cstr "a-web"))])])]

/-- What is put for it. -/
def rootDocument : Json := .obj [(cstr "transaction", rootTransaction)]

/-- A span of a service. -/
def spanOf (service id : Bytes) : Json := .obj [
  (cstr "processor", .obj [(cstr "event", .str (cstr "span"))]),
  (cstr "context", .obj [(cstr "service", .obj [(cstr "name", .str service)])]),
  (cstr "span", .obj [(cstr "hex_id", .str id)])]

/-- Spans of the services `a-web` and `b-db`. -/
def spanA : Json := spanOf (cstr "a-web") (cstr "01")
def spanB : Json := spanOf (cstr "b-db") (cstr "02")

/-- The libraries on these documents; every team has an instance of its own. -/
def threeDocuments : JaegerEnv where
  lib := reference
  jaegerDestUrl team := team ++ cstr ":14250"
  decompress _ := none
  parse text := [rootDocument, spanA, spanB].find? fun d => reference.toJsonString d = text
  otherAsRoot _ := ⟨false, 0, 0, 0, []⟩
  otherAsChild _ := ⟨[], false, 0, 0, []⟩

/-- The root is put and marked, and spans are added. -/
def storeOf (spans : List Json) : Store :=
  ([Op.put (cstr "1f") ⟨1000, rootDocument⟩ 0 1000 true, .markTraceable (cstr "1f") true] ++
    spans.map fun span => Op.addChild (cstr "1f") span 0 2000
      ⟨true, true, true, true, true, false, false, []⟩).foldl
    (Store.apply reference fun _ => none) (Store.fresh 1000 1000 300 false)

/-- LMDB succeeds. -/
def allSucceeds : JaegerAnswers := ⟨fun _ => true, fun _ => true, fun _ => true⟩

example : ((tmTransactionStoreProcessJaeger threeDocuments (storeOf [spanA, spanB]) 400000
    allSucceeds).toOption.map fun r => r.2.1.handed.map fun h => h.sending.posts) =
      some [[⟨.root, cstr "a:14250"⟩, ⟨.child 0, cstr "a:14250"⟩, ⟨.root, cstr "b:14250"⟩,
        ⟨.child 1, cstr "a:14250"⟩, ⟨.child 1, cstr "b:14250"⟩]] := by decide

/-- The traces of two stores: with the span of one other team, and with a span of the root's team
before it. -/
theorem handed_storeOf {spans : List Json} (hspans : spans = [spanB] ∨ spans = [spanA, spanB]) :
    ∃ s' count posts sent n,
      tmTransactionStoreProcessJaeger threeDocuments (storeOf spans) 400000 allSucceeds =
        .ok (s', ⟨count, [⟨cstr "1f", rootTransaction, spans, ⟨cstr "a", ∅, posts, sent⟩⟩], []⟩, n) ∧
      ⟨.child 0, threeDocuments.jaegerDestUrl (cstr "a")⟩ ∈ posts ∧
      (spans = [spanA, spanB] →
        ⟨.child 0, threeDocuments.jaegerDestUrl (cstr "b")⟩ ∉ posts) := by
  rcases hspans with rfl | rfl
  · exact ⟨_, _, _, _, _, rfl, by decide, fun h => by cases h⟩
  · exact ⟨_, _, _, _, _, rfl, by decide, fun _ => by decide⟩

/-- Different teams have different instances. -/
theorem apart_threeDocuments (h : Handed) : h.Apart threeDocuments := by
  intro team team' _ _ heq
  exact List.append_cancel_right heq

/-- A trace with the span of one other team is visible to both teams. -/
theorem visible_to_both : ∃ s' report n h,
    tmTransactionStoreProcessJaeger threeDocuments (storeOf [spanB]) 400000 allSucceeds =
      .ok (s', report, n) ∧ h ∈ report.handed ∧ h.FullVisibility threeDocuments := by
  obtain ⟨s', count, posts, sent, n, hok, -, -⟩ := handed_storeOf (.inl rfl)
  refine ⟨s', _, n, _, hok, List.mem_singleton_self _, ?_⟩
  refine (fullVisibility_iff threeDocuments (storeOf [spanB]) s' 400000 allSucceeds _ n hok _
    (List.mem_singleton_self _) (apart_threeDocuments _)).2 ?_
  have hteamB : docTeam threeDocuments spanB = some (cstr "b") := by decide
  have hteamA : docTeam threeDocuments rootTransaction = some (cstr "a") := by decide
  -- the other team is `b`
  have hother : ∀ team, Handed.Owns threeDocuments
      ⟨cstr "1f", rootTransaction, [spanB], ⟨cstr "a", ∅, posts, sent⟩⟩ team → team ≠ cstr "a" →
        team = cstr "b" := by
    rintro team (hroot | ⟨c, hc, -, hdoc⟩) hne
    · exact absurd (Option.some.inj (hroot.symm.trans hteamA)) hne
    · rw [List.mem_singleton.1 hc, hteamB] at hdoc
      exact (Option.some.inj hdoc).symm
  intro other howns hne
  obtain rfl := hother other howns hne
  refine ⟨hother, fun c hc _ => ?_⟩
  rw [List.mem_singleton.1 hc]
  exact hteamB

/-- A span of the root's team never goes to the other team that takes part in the trace. -/
theorem span_withheld : ¬ ∀ (j : JaegerEnv) (s s' : Store) (now : ℕ) (a : JaegerAnswers)
    (report : JaegerReport) (n : ℕ),
    tmTransactionStoreProcessJaeger j s now a = .ok (s', report, n) →
      ∀ h ∈ report.handed, h.Apart j → h.FullVisibility j := by
  intro hall
  obtain ⟨s', count, posts, sent, n, hok, -, hnot⟩ := handed_storeOf (.inr rfl)
  have hfull := hall threeDocuments _ s' 400000 allSucceeds _ n hok _ (List.mem_singleton_self _)
    (apart_threeDocuments _)
  have howns : Handed.Owns threeDocuments
      ⟨cstr "1f", rootTransaction, [spanA, spanB], ⟨cstr "a", ∅, posts, sent⟩⟩ (cstr "b") :=
    .inr ⟨spanB, by simp, by unfold HasProcessor; decide, by decide⟩
  have hspan : IsSpanOrTransaction threeDocuments spanA :=
    ⟨_, rfl, _, rfl, .inr rfl⟩
  exact hnot rfl ((hfull _ howns).2 0 spanA rfl hspan)

end Tracemate.TransactionStore
