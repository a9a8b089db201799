import Tracemate.TransactionStore.ChildEntries
import Tracemate.TransactionStore.Retention

/-!
# Documents come back

The text of a document is compressed when it is stored.  The readers do not know its length: their
buffer is as large as `mtev_compress_bound` of the stored length.

* `Located`, `locatedStep`: runs after a write, with the place of the record;
* `PutComesBack`: every get finds the document that was put, until its record is rotated out;
* `ReadsAs`, `ComesFirst`: a record that is read as the document, and the invariant;
* `putComesBack_iff`, `documents_come_back_iff`: when a document comes back.
-/

namespace Tracemate.TransactionStore

open CStr JsonC Lmdb Runs

/-- The tokener reads the document from its text, and not from a text that is cut short. -/
structure ReadFromText (j : JaegerEnv) (document : Json) : Prop where
  whole : j.parse (j.lib.toJsonString document) = some document
  part : ∀ n < (j.lib.toJsonString document).length,
    j.parse ((j.lib.toJsonString document).take n) ≠ some document

variable (m : Libmtev) (j : JaegerEnv)

/-! ### Runs after a write -/

/-- The store, and where the record of the write is. -/
structure Located where
  store : Store
  place : Whereabouts

/-- One call of a run. -/
def locatedStep (compress : Bytes → Option Bytes) (key : Bytes) (l : Located) (call : Call)
    (l' : Located) : Prop :=
  call.store j compress l.store = some l'.store ∧
    l'.place = l.place.after j.lib l.store key call

/-- The call writes no record under the key. -/
def Call.LeavesKey (lib : Conversions) (key : Bytes) (s : Store) (call : Call) : Prop :=
  ∀ side, call.target lib s ≠ some (side, key)

/-- The call adds a child to the trace with this id, whose record is then the parent's. -/
def Call.AddsTo (key : Bytes) : Call → Prop
  | .op (.addChild traceId _ _ _ _) => traceId = key
  | _ => False

/-- After the put, and after any calls that write no other record under the id, every get of the id
finds the document, as long as its record has not been rotated out. -/
def PutComesBack (s : Store) (id : Bytes) (entry : Entry) (ttl : Int32) (now : ℕ) : Prop :=
  ∀ tr l, Run (locatedStep (m.reader j) m.compressLz4f id)
      ⟨s.apply j.lib m.compressLz4f (.put id entry ttl now true), .stored .current⟩ tr l →
    (∀ e ∈ tr, e.label.LeavesKey j.lib id e.before.store) → ∀ side, l.place = .stored side →
    ∀ inLastBloom inCurrentBloom, ∃ got,
      tmTransactionStoreGet (m.reader j) l.store id inLastBloom inCurrentBloom = some got ∧
        got.data = some entry.data

/-- A get that finds the record finds the document, also when the times of children have been
written into the record. -/
def ReadsAs (v : Stored) (document : Json) : Prop :=
  ∀ v', Touched (some v) (some v') → j.documentOf (j.asRoot v') = some document

/-- A get of the id finds a record of the document: the environment holds it, its filter says so,
and what the last environment holds under the id is read as the document. -/
structure ComesFirst (s : Store) (id : Bytes) (side : Side) (document : Json) : Prop where
  opened : s.Opened
  holds : ∃ r, s.record side id = some (.root r) ∧ j.documentOf r = some document
  first : ∀ v, s.record .last id = some v → ReadsAs j v document
  filtered : s.useBloomFilters = true → id ∈ (s.side side).bloom

variable {m j} {compress : Bytes → Option Bytes} {s s' : Store} {side : Side} {id key : Bytes}
  {document : Json} {v v' : Stored} {call : Call} {now : ℕ}

/-! ### The text -/

/-- What is stored of a document is read as the document exactly if its text fits the buffer. -/
theorem parse_storeString_iff (hread : ReadFromText j document) :
    ((m.reader j).text (storeString j.lib m.compressLz4f document).1
        (storeString j.lib m.compressLz4f document).2).bind j.parse = some document ↔
      FitsBuffer j m.compressLz4f m.compressBound document := by
  unfold FitsBuffer storeString
  cases hcompress : m.compressLz4f (j.lib.toJsonString document) with
  | none => exact iff_of_true hread.whole nofun
  | some data =>
    have htext : (m.reader j).text true data =
        some ((j.lib.toJsonString document).take (m.compressBound data.length)) :=
      m.streamDecompress_eq hcompress _
    dsimp only
    rw [htext, Option.bind_some]
    constructor
    · rintro h data' hdata'
      obtain rfl := Option.some.inj hdata'
      by_contra hlong
      exact hread.part _ (not_le.1 hlong) h
    · intro h
      rw [List.take_of_length_le (h data rfl)]
      exact hread.whole

/-! ### The record that a get finds -/

theorem ReadsAs.self (h : ReadsAs j v document) : j.documentOf (j.asRoot v) = some document :=
  h v .refl

theorem ReadsAs.of_same (h : ReadsAs j v document) (hsame : SameRecord now (some v) (some v')) :
    ReadsAs j v' document :=
  fun w hw => h w (Relation.ReflTransGen.head ⟨now, hsame⟩ hw)

/-- The times of children are no part of the document of a root record. -/
theorem readsAs_root {r : StoredRoot} (hr : j.documentOf r = some document) :
    ReadsAs j (.root r) document := by
  have hroot : ∀ x, Touched (some (.root r)) x →
      ∃ r', x = some (.root r') ∧ j.documentOf r' = some document := by
    intro x hx
    induction hx with
    | refl => exact ⟨r, rfl, hr⟩
    | tail _ hstep ih =>
      obtain ⟨r', rfl, hr'⟩ := ih
      obtain ⟨now, rfl | rfl⟩ := hstep
      · exact ⟨r', rfl, hr'⟩
      · exact ⟨_, rfl, hr'⟩
  intro v' hv'
  obtain ⟨r', heq, hr'⟩ := hroot _ hv'
  obtain rfl := Option.some.inj heq
  exact hr'

theorem ComesFirst.get (h : ComesFirst j s id side document) (inLastBloom inCurrentBloom : Bool) :
    ∃ got, tmTransactionStoreGet j s id inLastBloom inCurrentBloom = some got ∧
      got.data = some document :=
  get_of_first h.opened h.holds (fun v hv => (h.first v hv).self) h.filtered inLastBloom
    inCurrentBloom

/-! ### One call -/

/-- A call that does not rotate takes nothing out of the filters. -/
theorem blooms_of_not_rotates (hopen : s.Opened) (hstore : call.store j compress s = some s')
    (hrotates : ¬ call.Rotates s) :
    (∀ side, (s.side side).bloom ⊆ (s'.side side).bloom) ∧
      s'.useBloomFilters = s.useBloomFilters := by
  cases call with
  | processJaeger now a =>
    dsimp only [Call.store] at hstore
    split at hstore
    · next report n hok =>
      obtain rfl := Option.some.inj hstore
      obtain ⟨hdeleted, -⟩ := processJaeger_spec hopen hok
      exact ⟨fun side => (hdeleted.bloom side).symm.subset, hdeleted.useBloom⟩
    · cases hstore
  | op op =>
    obtain rfl := Option.some.inj hstore
    refine ⟨fun side => ?_, useBloom_apply j.lib compress hopen op⟩
    cases op with
    | put id entry ttl now ok =>
      dsimp only [Store.apply]
      rw [put_eq j.lib compress hopen]
      split_ifs
      · cases side with
        | last => exact subset_rfl
        | current =>
          show s.current.bloom ⊆ if s.useBloomFilters then insert id s.current.bloom
            else s.current.bloom
          split_ifs
          · exact Finset.subset_insert id _
          · exact subset_rfl
      · exact subset_rfl
    | addChild traceId child ttl now a =>
      exact ((addChild_blooms j.lib compress hopen traceId child ttl now a).1 side).symm.subset
    | markTraceable traceId ok =>
      dsimp only [Store.apply, tmTransactionStoreMarkTraceable]
      split_ifs
      · split
        · cases side <;> exact subset_rfl
        · exact subset_rfl
      · exact subset_rfl
    | deleteOldTransactions now nowCurrent nowLast =>
      rw [apply_of_not_due j.lib compress hrotates]

/-- A call that writes no record under the id and does not rotate. -/
theorem ComesFirst.of_not_rotates (h : ComesFirst j s id side document)
    (hstore : call.store j compress s = some s') (hkey : call.LeavesKey j.lib id s)
    (hrotates : ¬ call.Rotates s) : ComesFirst j s' id side document := by
  have hsame : ∀ side, ∃ now, SameRecord now (s.record side id) (s'.record side id) :=
    fun side => (record_of_no_target h.opened hstore (hkey side) hrotates).1
  obtain ⟨hbloom, huse⟩ := blooms_of_not_rotates h.opened hstore hrotates
  refine ⟨opened_store h.opened hstore, ?_, fun v' hv' => ?_, fun hon =>
    hbloom side (h.filtered (huse ▸ hon))⟩
  · obtain ⟨now, hside⟩ := hsame side
    exact hside.holds h.holds
  · obtain ⟨now, hlast⟩ := hsame .last
    rw [hv'] at hlast
    cases hv : s.record .last id with
    | none =>
      rw [hv] at hlast
      exact absurd (hlast.none_iff.2 rfl) nofun
    | some v =>
      rw [hv] at hlast
      exact (h.first v hv).of_same hlast

/-- A rotation takes the record to the last environment. -/
theorem ComesFirst.of_rotates (h : ComesFirst j s id .current document)
    (hstore : call.store j compress s = some s') (hrotates : call.Rotates s) :
    ComesFirst j s' id .last document := by
  have hopen := opened_store h.opened hstore
  obtain ⟨now, nowCurrent, nowLast, rfl, hdue⟩ := hrotates.exists_eq
  obtain rfl := Option.some.inj hstore
  obtain ⟨hlast, -, hbloom, -, huse⟩ := record_rotate j.lib compress h.opened hdue nowCurrent nowLast
  obtain ⟨r, hrecord, hr⟩ := h.holds
  refine ⟨hopen, ⟨r, (hlast id).trans hrecord, hr⟩, fun v hv => ?_, fun hon => ?_⟩
  · rw [hlast, hrecord] at hv
    obtain rfl := Option.some.inj hv
    exact readsAs_root hr
  · show id ∈ (s.apply j.lib compress (.deleteOldTransactions now nowCurrent nowLast)).last.bloom
    rw [hbloom]
    exact h.filtered (huse ▸ hon)

/-- Where the record is after a call that does not write over it. -/
theorem place_after (hkey : call.LeavesKey j.lib key s) {side' : Side}
    (h : (Whereabouts.stored side).after j.lib s key call = .stored side') :
    (¬ call.Rotates s ∧ side' = side) ∨ (call.Rotates s ∧ side = .current ∧ side' = .last) := by
  dsimp only [Whereabouts.after] at h
  rw [if_neg (hkey side)] at h
  split_ifs at h with hrotates
  · cases side with
    | current => exact .inr ⟨hrotates, rfl, (Whereabouts.stored.inj h).symm⟩
    | last => cases h
  · exact .inl ⟨hrotates, (Whereabouts.stored.inj h).symm⟩

/-- A property of the store that a record has where it is: kept by the calls that do not rotate, and
taken to the last environment by those that do. -/
theorem stored_of_run (P : Store → Side → Prop) (guard : Store → Call → Prop) {tr : List _}
    {l l' : Located} (hrun : Run (locatedStep j compress key) l tr l')
    (hstart : ∀ side, l.place = .stored side → P l.store side)
    (hguard : ∀ e ∈ tr, e.label.LeavesKey j.lib key e.before.store ∧ guard e.before.store e.label)
    (hkeep : ∀ (s s' : Store) (call : Call) side, P s side → call.store j compress s = some s' →
      call.LeavesKey j.lib key s → guard s call → ¬ call.Rotates s → P s' side)
    (hrotate : ∀ (s s' : Store) (call : Call), P s .current →
      call.store j compress s = some s' → call.Rotates s → P s' .last) :
    ∀ side, l'.place = .stored side → P l'.store side := by
  refine (hrun.guarded (fun l => ∀ side, l.place = .stored side → P l.store side)
    (fun l call => call.LeavesKey j.lib key l.store ∧ guard l.store call) hstart ?_ hguard).2
  rintro u call w hu ⟨hkey, hcall⟩ ⟨hstore, hplace⟩ side' hside'
  rw [hplace] at hside'
  cases hu' : u.place with
  | overwritten => rw [hu'] at hside'; cases hside'
  | rotatedOut => rw [hu'] at hside'; cases hside'
  | stored side =>
    rw [hu'] at hside'
    rcases place_after hkey hside' with ⟨hrotates, rfl⟩ | ⟨hrotates, rfl, rfl⟩
    · exact hkeep _ _ _ _ (hu _ hu') hstore hkey hcall hrotates
    · exact hrotate _ _ _ (hu _ hu') hstore hrotates

/-! ### A put -/

theorem record_put_self (hopen : s.Opened) (hvalid : ValidKey id) (entry : Entry) (ttl : Int32)
    (now : ℕ) :
    (s.apply j.lib compress (.put id entry ttl now true)).record .current id =
      some (.root (rootRecord j.lib compress s entry ttl now)) := by
  dsimp only [Store.apply]
  rw [put_eq j.lib compress hopen, if_pos ⟨rfl, hvalid⟩, record_addBloom, record_write,
    if_pos ⟨rfl, rfl⟩]

theorem comesFirst_put (hopen : s.Opened) (hvalid : ValidKey id) {entry : Entry} {ttl : Int32}
    (hread : ReadFromText j entry.data)
    (hfits : FitsBuffer j m.compressLz4f m.compressBound entry.data)
    (hfirst : ∀ v, s.record .last id = some v → ReadsAs (m.reader j) v entry.data) :
    ComesFirst (m.reader j) (s.apply j.lib m.compressLz4f (.put id entry ttl now true)) id .current
      entry.data := by
  have hput : s.apply j.lib m.compressLz4f (.put id entry ttl now true) =
      (s.write .current .ts id
        (.root (rootRecord j.lib m.compressLz4f s entry ttl now))).addBloom id := by
    dsimp only [Store.apply]
    rw [put_eq j.lib m.compressLz4f hopen, if_pos ⟨rfl, hvalid⟩]
  refine ⟨(apply_spec j.lib m.compressLz4f hopen _).1, ?_, fun v hv => ?_, fun huse => ?_⟩
  · exact ⟨_, record_put_self hopen hvalid entry ttl now, (parse_storeString_iff hread).2 hfits⟩
  · rw [hput, record_addBloom, record_write, if_neg fun hside => by cases hside.1] at hv
    exact hfirst v hv
  · rw [hput] at huse ⊢
    have hon : s.useBloomFilters = true := huse
    show id ∈ if s.useBloomFilters then insert id s.current.bloom else s.current.bloom
    rw [if_pos hon]
    exact Finset.mem_insert_self id _

theorem putComesBack_of_fits (hopen : s.Opened) (hvalid : ValidKey id) {entry : Entry} {ttl : Int32}
    (hread : ReadFromText j entry.data)
    (hfits : FitsBuffer j m.compressLz4f m.compressBound entry.data)
    (hfirst : ∀ v, s.record .last id = some v → ReadsAs (m.reader j) v entry.data) :
    PutComesBack m j s id entry ttl now := by
  intro tr l hrun hkeys side hside
  have hstart : ComesFirst (m.reader j)
      (s.apply j.lib m.compressLz4f (.put id entry ttl now true)) id .current entry.data :=
    comesFirst_put hopen hvalid hread hfits hfirst
  refine (stored_of_run (fun s side => ComesFirst (m.reader j) s id side entry.data)
    (fun _ _ => True) hrun ?_ (fun e he => ⟨hkeys e he, trivial⟩)
    (fun _ _ _ _ h hstore hkey _ hrotates => h.of_not_rotates hstore hkey hrotates)
    (fun _ _ _ h hstore hrotates => h.of_rotates hstore hrotates) side hside).get
  rintro _ ⟨⟩
  exact hstart

/-- A rotation that is due. -/
theorem locatedStep_rotate (j : JaegerEnv) (compress : Bytes → Option Bytes) (key : Bytes)
    {time : ℕ} (hdue : s.Due time) :
    locatedStep j compress key ⟨s, .stored .current⟩ (rotateAt time)
      ⟨s.apply j.lib compress (.deleteOldTransactions time time time), .stored .last⟩ := by
  have htarget : (rotateAt time).target j.lib s ≠ some (.current, key) := nofun
  have hrotates : (rotateAt time).Rotates s := hdue
  refine ⟨rfl, ?_⟩
  dsimp only [Whereabouts.after]
  rw [if_neg htarget, if_pos hrotates]

/-- A filter that says yes hides nothing. -/
theorem findIn_true (hopen : s.Opened) (side : Side) (id : Bytes) :
    s.findIn side id true = s.record side id := by
  rw [findIn_eq_record hopen, if_neg]
  rintro ⟨-, hno⟩
  simp [bloomContains] at hno

/-- After a rotation a get finds the record that was put. -/
theorem fits_of_putComesBack (hopen : s.Opened) (hvalid : ValidKey id) {entry : Entry} {ttl : Int32}
    (hread : ReadFromText j entry.data) (h : PutComesBack m j s id entry ttl now) :
    FitsBuffer j m.compressLz4f m.compressBound entry.data := by
  set s₁ := s.apply j.lib m.compressLz4f (.put id entry ttl now true) with hs₁
  have hopen₁ : s₁.Opened := (apply_spec j.lib m.compressLz4f hopen _).1
  have hdue : s₁.Due (s₁.current.openMs + tenMinutesMs + 1) := due_of_le le_rfl
  have hstep := locatedStep_rotate (m.reader j) m.compressLz4f id hdue
  have hget := h _ _ (.single hstep) (fun e he side => by
    rw [List.mem_singleton.1 he]
    exact nofun) .last rfl true true
  obtain ⟨hlast, -⟩ := record_rotate j.lib m.compressLz4f hopen₁ hdue
    (s₁.current.openMs + tenMinutesMs + 1) (s₁.current.openMs + tenMinutesMs + 1)
  have hrecord := (hlast id).trans (record_put_self hopen hvalid entry ttl now)
  have hfound := (findIn_true (apply_spec j.lib m.compressLz4f hopen₁ _).1 .last id).trans hrecord
  exact (parse_storeString_iff hread).1 ((get_of_findIn (.inl hfound)).1 hget)

/-- Everything succeeds but the write of the child record. -/
def onlyTouches : Answers := ⟨true, true, true, true, false, true, true, []⟩

/-- A call that writes only the time of a child into the record of the last environment. -/
def touchLast (id : Bytes) (now : ℕ) : Op := .addChild id (.obj []) 0 now onlyTouches

theorem target_touchLast (lib : Conversions) (s : Store) (id : Bytes) (now : ℕ) :
    (Call.op (touchLast id now)).target lib s = none := by
  have hnone : childTarget lib s id (.obj []) onlyTouches = none := by
    dsimp only [childTarget]
    split
    · rfl
    · exact if_neg fun h => absurd h.1 (by decide)
    · exact if_neg fun h => absurd h.2.1 (by decide)
  dsimp only [Call.target, Store.written, touchLast]
  rw [hnone]
  rfl

theorem record_touchLast (hopen : s.Opened) (hvalid : ValidKey id)
    (hv : s.record .last id = some v) (now : ℕ) :
    (s.apply j.lib compress (touchLast id now)).record .last id = some (v.touch now) := by
  have hlookup : s.lookupIn .last id true true = .found (.last, v) := by
    have hskip : ¬ (s.useBloomFilters = true ∧
        bloomContains (s.side .last).bloom id true = false) := by
      rintro ⟨-, hno⟩
      simp [bloomContains] at hno
    unfold Store.lookupIn
    rw [if_neg hskip, if_pos rfl, (get_ts hopen .last .last id v).2 hv]
  have hparent : parentLookup s id onlyTouches = .found (.last, v) := by
    unfold parentLookup
    simp only [onlyTouches, hlookup]
  dsimp only [Store.apply, touchLast, tmTransactionStoreAddChild]
  rw [hparent]
  dsimp only
  rw [if_pos (by rfl), put_ts (hopen .last), if_pos hvalid]
  show (s.write .last .ts id (v.touch now)).record .last id = _
  rw [record_write, if_pos ⟨rfl, rfl⟩]

variable (j compress) in
/-- The times of children are written into the record of the last environment. -/
theorem exists_touched_run (hopen : s.Opened) (hvalid : ValidKey id)
    (hv : s.record .last id = some v) {x : Option Stored} (hx : Touched (some v) x) :
    ∃ tr s', Run (locatedStep j compress id) ⟨s, .stored .current⟩ tr ⟨s', .stored .current⟩ ∧
      (∀ e ∈ tr, e.label.LeavesKey j.lib id e.before.store) ∧ s'.Opened ∧
      s'.record .last id = x := by
  induction hx with
  | refl => exact ⟨[], s, .nil, by simp, hopen, hv⟩
  | @tail x y _ hstep ih =>
    obtain ⟨tr, s', hrun, hkeys, hopen', hrecord⟩ := ih
    obtain ⟨now, rfl | rfl⟩ := hstep
    · exact ⟨tr, s', hrun, hkeys, hopen', hrecord⟩
    · cases x with
      | none => exact ⟨tr, s', hrun, hkeys, hopen', hrecord⟩
      | some w =>
        have htarget := target_touchLast j.lib s' id now
        have hno : ¬ (Call.op (touchLast id now)).Rotates s' := fun h => h
        have hcall : locatedStep j compress id ⟨s', .stored .current⟩ (.op (touchLast id now))
            ⟨s'.apply j.lib compress (touchLast id now), .stored .current⟩ := by
          refine ⟨rfl, ?_⟩
          dsimp only [Whereabouts.after]
          rw [htarget, if_neg nofun, if_neg hno]
        refine ⟨_, _, hrun.snoc hcall, fun e he => ?_, (apply_spec j.lib compress hopen' _).1,
          record_touchLast hopen' hvalid hrecord now⟩
        rcases List.mem_append.1 he with he | he
        · exact hkeys e he
        · rw [List.mem_singleton.1 he]
          intro side
          rw [htarget]
          exact nofun

/-- A get before any rotation finds what the last environment holds. -/
theorem readsAs_of_putComesBack (hopen : s.Opened) (hvalid : ValidKey id) {entry : Entry}
    {ttl : Int32} (h : PutComesBack m j s id entry ttl now) (hv : s.record .last id = some v) :
    ReadsAs (m.reader j) v entry.data := by
  have hopen₁ := (apply_spec j.lib m.compressLz4f hopen (.put id entry ttl now true)).1
  have hv₁ : (s.apply j.lib m.compressLz4f (.put id entry ttl now true)).record .last id =
      some v := by
    dsimp only [Store.apply]
    rw [put_eq j.lib m.compressLz4f hopen, if_pos ⟨rfl, hvalid⟩, record_addBloom, record_write,
      if_neg fun hside => by cases hside.1]
    exact hv
  intro v' hv'
  obtain ⟨tr, s', hrun, hkeys, hopen', hrecord⟩ :=
    exists_touched_run (m.reader j) m.compressLz4f hopen₁ hvalid hv₁ hv'
  have hget := h tr _ hrun hkeys .current rfl true true
  exact (get_of_findIn (.inl ((findIn_true hopen' .last id).trans hrecord))).1 hget

/-- **Put and get.**  A document that is put comes back exactly if its text fits the buffer of the
reader and nothing else is read first from the last environment. -/
theorem putComesBack_iff (hopen : s.Opened) (hvalid : ValidKey id) {entry : Entry} {ttl : Int32}
    (hread : ReadFromText j entry.data) :
    PutComesBack m j s id entry ttl now ↔
      FitsBuffer j m.compressLz4f m.compressBound entry.data ∧
        ∀ v, s.record .last id = some v → ReadsAs (m.reader j) v entry.data :=
  ⟨fun h => ⟨fits_of_putComesBack hopen hvalid hread h,
      fun _ hv => readsAs_of_putComesBack hopen hvalid h hv⟩,
    fun h => putComesBack_of_fits hopen hvalid hread h.1 h.2⟩

/-! ### A child -/

/-- A record that is neither written nor the parent's, and stays in its environment. -/
theorem record_of_untouched (hopen : s.Opened) (hstore : call.store j compress s = some s')
    (hkey : call.LeavesKey j.lib key s) (hadds : ¬ call.AddsTo key) (hrotates : ¬ call.Rotates s)
    (side : Side) : s'.record side key = s.record side key := by
  cases call with
  | processJaeger now a =>
    dsimp only [Call.store] at hstore
    split at hstore
    · next report n hok =>
      obtain rfl := Option.some.inj hstore
      obtain ⟨hdeleted, -⟩ := processJaeger_spec hopen hok
      unfold Store.record
      rw [hdeleted.ts]
    · cases hstore
  | op op =>
    obtain rfl := Option.some.inj hstore
    cases op with
    | put id entry ttl now ok => exact record_put_of_ne hopen id entry ttl now ok (hkey side)
    | addChild traceId child ttl now a =>
      refine record_addChild_of_ne_parent compress hopen (fun ht => hkey side ?_) (Ne.symm hadds)
      simp [Call.target, Store.written, ht]
    | markTraceable traceId ok => exact record_markTraceable compress hopen traceId ok side key
    | deleteOldTransactions now nowCurrent nowLast =>
      rw [apply_of_not_due j.lib compress hrotates]

/-- The child record stays as it was written, as long as it is stored. -/
theorem record_of_located {tr : List _} {l l' : Located}
    (hrun : Run (locatedStep j compress key) l tr l') (hopen : l.store.Opened)
    (hplace : l.place = .stored side) (hv : l.store.record side key = some v)
    (hguard : ∀ e ∈ tr, e.label.LeavesKey j.lib key e.before.store ∧ ¬ e.label.AddsTo key)
    {side' : Side} (hside' : l'.place = .stored side') :
    l'.store.Opened ∧ l'.store.record side' key = some v := by
  refine stored_of_run (fun s side => s.Opened ∧ s.record side key = some v)
    (fun _ call => ¬ call.AddsTo key) hrun ?_ hguard ?_ ?_ side' hside'
  · intro side₀ hside₀
    obtain rfl := Whereabouts.stored.inj (hplace.symm.trans hside₀)
    exact ⟨hopen, hv⟩
  · rintro s s' call side ⟨ho, hrecord⟩ hstore hkey hadds hrotates
    exact ⟨opened_store ho hstore,
      (record_of_untouched ho hstore hkey hadds hrotates side).trans hrecord⟩
  · rintro s s' call ⟨ho, hrecord⟩ hstore hrotates
    refine ⟨opened_store ho hstore, ?_⟩
    obtain ⟨now, nowCurrent, nowLast, rfl, hdue⟩ := hrotates.exists_eq
    obtain rfl := Option.some.inj hstore
    exact ((record_rotate j.lib compress ho hdue nowCurrent nowLast).1 key).trans hrecord

/-- **Add child and scan.**  After any calls that do not write to the record of the child, its
document is among the children that are read exactly if its text fits the buffer of the reader and
the scan comes to the record. -/
theorem childComesBack_iff (hopen : s.Opened) (hread : ReadFromText j document) {traceId : Bytes}
    {ttl : Int32} {a : Answers} (ht : childTarget j.lib s traceId document a = some (side, key))
    {tr : List _} {l : Located} (hrun : Run (locatedStep (m.reader j) m.compressLz4f key)
      ⟨s.apply j.lib m.compressLz4f (.addChild traceId document ttl now a), .stored side⟩ tr l)
    (hguard : ∀ e ∈ tr, e.label.LeavesKey j.lib key e.before.store ∧ ¬ e.label.AddsTo key)
    {side' : Side} (hside' : l.place = .stored side') :
    (key, document) ∈ childEntriesIn (m.reader j) l.store side' traceId ↔
      FitsBuffer j m.compressLz4f m.compressBound document ∧
        ScanReaches (m.reader j) l.store side' traceId key := by
  obtain ⟨hopen', hrecord⟩ := record_of_located hrun
    (apply_spec j.lib m.compressLz4f hopen _).1 rfl
    (record_addChild_self m.compressLz4f hopen ttl now ht) hguard hside'
  rw [mem_childEntriesIn_iff hopen' hrecord, and_comm]
  exact and_congr_left fun _ => parse_storeString_iff hread

/-- **Documents come back.**  A document that is put is found by every get of its id, and the
document of a child by the scan of its trace, until they are written over or rotated out, exactly
if its text, when it is compressed, is not longer than the bound for the length of the compressed
text; and nothing else is read first under the id from the last environment, and the scan comes to
the record of the child. -/
theorem documents_come_back_iff (m : Libmtev) (j : JaegerEnv) {s : Store} (hopen : s.Opened)
    {document : Json} (hread : ReadFromText j document) :
    (∀ id firstSeenMs ttl now, ValidKey id →
      (PutComesBack m j s id ⟨firstSeenMs, document⟩ ttl now ↔
        FitsBuffer j m.compressLz4f m.compressBound document ∧
          ∀ v, s.record .last id = some v → ReadsAs (m.reader j) v document)) ∧
    (∀ traceId ttl now a side key, childTarget j.lib s traceId document a = some (side, key) →
      ∀ tr l, Run (locatedStep (m.reader j) m.compressLz4f key)
        ⟨s.apply j.lib m.compressLz4f (.addChild traceId document ttl now a), .stored side⟩ tr l →
      (∀ e ∈ tr, e.label.LeavesKey j.lib key e.before.store ∧ ¬ e.label.AddsTo key) →
      ∀ side', l.place = .stored side' →
        ((key, document) ∈ childEntriesIn (m.reader j) l.store side' traceId ↔
          FitsBuffer j m.compressLz4f m.compressBound document ∧
            ScanReaches (m.reader j) l.store side' traceId key)) :=
  ⟨fun _ _ _ _ hvalid => putComesBack_iff hopen hvalid hread,
    fun _ _ _ _ _ _ ht _ _ hrun hguard _ hside' =>
      childComesBack_iff hopen hread ht hrun hguard hside'⟩

/-! ### Two spans -/

/-- A tokener that reads the text of one document. -/
def parsesOnly (document : Json) : JaegerEnv where
  lib := reference
  jaegerDestUrl team := team
  decompress _ := none
  parse text := if text = reference.toJsonString document then some document else none
  otherAsRoot _ := ⟨false, 0, 0, 0, []⟩
  otherAsChild _ := ⟨[], false, 0, 0, []⟩

theorem readFromText_parsesOnly (document : Json) :
    ReadFromText (parsesOnly document) document where
  whole := if_pos rfl
  part n hn h := by
    have hne : (reference.toJsonString document).take n ≠ reference.toJsonString document := by
      intro heq
      have hlength := congrArg List.length heq
      rw [List.length_take] at hlength
      have hlt : n < (reference.toJsonString document).length := hn
      omega
    have hnone : (parsesOnly document).parse ((reference.toJsonString document).take n) = none :=
      if_neg hne
    exact absurd (hnone.symm.trans h) nofun

/-- A store in directories without files. -/
def freshStore : Store := Store.fresh 1000 1000 300 false

/-- The store after a span has been added to the trace `1f`. -/
def storeWithSpan (span : Json) : Store :=
  freshStore.apply reference runLengthLibrary.compressLz4f
    (.addChild (cstr "1f") span 0 2000 succeeds)

theorem belowRoot_storeWithSpan {span : Json} (ht : childTarget reference freshStore (cstr "1f") span
    succeeds = some (.current, cstr "1f-01")) :
    ∃ c, belowRoot (((storeWithSpan span).side .current).env.cursor
      ((storeWithSpan span).side .current).dbi) (cstr "1f") = [(cstr "1f-01", .child c)] := by
  have hopen : freshStore.Opened := opened_fresh 1000 1000 300 false
  refine ⟨childRecord reference runLengthLibrary.compressLz4f freshStore (cstr "1f") span 0 2000, ?_⟩
  have htouched : freshStore.touched (cstr "1f") 2000 succeeds = freshStore := rfl
  have heq : storeWithSpan span = freshStore.write .current .ts (cstr "1f-01")
      (.child (childRecord reference runLengthLibrary.compressLz4f freshStore (cstr "1f") span 0
        2000)) := by
    unfold storeWithSpan
    show (tmTransactionStoreAddChild _ _ _ _ _ _ _ _).1 = _
    rw [addChild_of_target _ hopen _ _ ht, htouched]
  rw [heq]
  generalize childRecord reference runLengthLibrary.compressLz4f freshStore (cstr "1f") span 0 2000 = c
  rfl

theorem scanReaches_storeWithSpan {span : Json} (ht : childTarget reference freshStore (cstr "1f")
    span succeeds = some (.current, cstr "1f-01")) {j : JaegerEnv}
    (hreads : ∀ c : StoredChild, (j.text c.compressed c.data).isSome = true) :
    ScanReaches j (storeWithSpan span) .current (cstr "1f") (cstr "1f-01") := by
  obtain ⟨c, hbelow⟩ := belowRoot_storeWithSpan ht
  refine ⟨by decide, fun front p rest heq _ => ?_, [], _, [], hbelow, Nat.zero_lt_succ 999⟩
  rw [hbelow] at heq
  have hp : p ∈ [(cstr "1f-01", Stored.child c)] := by
    rw [heq]
    simp
  rw [List.mem_singleton.1 hp]
  exact hreads c

theorem fits_runLengthLibrary {document : Json} :
    FitsBuffer (parsesOnly document) runLengthLibrary.compressLz4f runLengthLibrary.compressBound
        document ↔
      (reference.toJsonString document).length ≤
        runLengthLibrary.compressBound (runLengths (reference.toJsonString document)).length :=
  fitsBuffer_runLengths_iff

/-- A span with a name of equal bytes. -/
def repetitiveSpan : Json := .obj [
  (cstr "processor", .obj [(cstr "event", .str (cstr "span"))]),
  (cstr "span", .obj [(cstr "hex_id", .str (cstr "01")),
    (cstr "name", .str (List.replicate 120 120))])]

set_option maxRecDepth 4000 in
theorem shortSpan_le : (reference.toJsonString (spanWithId "01")).length ≤
    runLengthLibrary.compressBound (runLengths (reference.toJsonString (spanWithId "01"))).length := by
  decide

set_option maxRecDepth 4000 in
theorem bound_lt_repetitiveSpan :
    runLengthLibrary.compressBound (runLengths (reference.toJsonString repetitiveSpan)).length <
      (reference.toJsonString repetitiveSpan).length := by
  decide

theorem opened_freshStore : freshStore.Opened := opened_fresh 1000 1000 300 false

theorem located_storeWithSpan (span : Json) (j : JaegerEnv) :
    Run (locatedStep j runLengthLibrary.compressLz4f (cstr "1f-01"))
      ⟨freshStore.apply (parsesOnly span).lib runLengthLibrary.compressLz4f
        (.addChild (cstr "1f") span 0 2000 succeeds), .stored .current⟩ []
      ⟨storeWithSpan span, .stored .current⟩ := .nil

/-- A span without repetitions. -/
theorem short_span_comes_back :
    PutComesBack runLengthLibrary (parsesOnly (spanWithId "01")) freshStore (cstr "1f")
        ⟨1000, spanWithId "01"⟩ 0 1000 ∧
      (cstr "1f-01", spanWithId "01") ∈
        childEntriesIn (runLengthLibrary.reader (parsesOnly (spanWithId "01")))
          (storeWithSpan (spanWithId "01")) .current (cstr "1f") := by
  obtain ⟨hput, hchild⟩ := documents_come_back_iff runLengthLibrary (parsesOnly (spanWithId "01"))
    opened_freshStore (readFromText_parsesOnly (spanWithId "01"))
  have hfits := fits_runLengthLibrary.2 shortSpan_le
  have ht : childTarget reference freshStore (cstr "1f") (spanWithId "01") succeeds =
    some (.current, cstr "1f-01") := by decide
  have hnone : freshStore.record .last (cstr "1f") = none := rfl
  have hvalid : ValidKey (cstr "1f") := by decide
  have hreaches : ScanReaches (runLengthLibrary.reader (parsesOnly (spanWithId "01")))
      (storeWithSpan (spanWithId "01")) .current (cstr "1f") (cstr "1f-01") :=
    scanReaches_storeWithSpan ht fun c => by cases c.compressed <;> rfl
  refine ⟨(hput (cstr "1f") 1000 0 1000 hvalid).2
    ⟨hfits, fun v hv => absurd (hnone.symm.trans hv) nofun⟩, ?_⟩
  exact (hchild (cstr "1f") 0 2000 succeeds .current (cstr "1f-01") ht []
    ⟨storeWithSpan (spanWithId "01"), .stored .current⟩ (located_storeWithSpan _ _)
    (fun _ he => absurd he List.not_mem_nil) .current rfl).2 ⟨hfits, hreaches⟩

/-- The text of the repetitive span is compressed to less than its length, and cut off when it is
read: neither a get nor the scan gives the span. -/
theorem repetitive_span_lost :
    freshStore.Opened ∧ ReadFromText (parsesOnly repetitiveSpan) repetitiveSpan ∧
      ¬ PutComesBack runLengthLibrary (parsesOnly repetitiveSpan) freshStore (cstr "1f")
        ⟨1000, repetitiveSpan⟩ 0 1000 ∧
      (cstr "1f-01", repetitiveSpan) ∉
        childEntriesIn (runLengthLibrary.reader (parsesOnly repetitiveSpan))
          (storeWithSpan repetitiveSpan) .current (cstr "1f") := by
  have hread := readFromText_parsesOnly repetitiveSpan
  have hlong : ¬ FitsBuffer (parsesOnly repetitiveSpan) runLengthLibrary.compressLz4f
      runLengthLibrary.compressBound repetitiveSpan := fun h =>
    absurd (fits_runLengthLibrary.1 h) (not_le.2 bound_lt_repetitiveSpan)
  have ht : childTarget reference freshStore (cstr "1f") repetitiveSpan succeeds =
    some (.current, cstr "1f-01") := by decide
  have hvalid : ValidKey (cstr "1f") := by decide
  refine ⟨opened_freshStore, hread, fun h => hlong ?_, fun h => hlong ?_⟩
  · refine fits_of_putComesBack opened_freshStore hvalid ?_ h
    exact hread
  · exact ((childComesBack_iff opened_freshStore hread ht (located_storeWithSpan _ _)
      (fun _ he => absurd he List.not_mem_nil) rfl).1
      h).1

end Tracemate.TransactionStore
