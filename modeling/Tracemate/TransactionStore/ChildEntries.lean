import Tracemate.TransactionStore.ChildScan

/-!
# Which child record is read

`_tm_transaction_store_get_children` stops at `MAX_CHILD_COUNT` documents, and returns nothing at
all when it comes to a record that cannot be decompressed.

* `collectEntries`, `childEntriesIn`: the loop, with the key of the record that each document comes
  from; `map_snd_childEntriesIn`: the documents are those of `childrenIn`;
* `ScanReaches`: the loop comes to a record, and returns what it has read;
* `mem_childEntriesIn_iff`: the document of a record is among those that are read exactly if the
  loop comes to the record and can read it.
-/

namespace Tracemate.TransactionStore

open CStr JsonC Lmdb

variable (j : JaegerEnv)

/-- The documents that are collected, each with the key of its record. -/
def collectEntries (id : Bytes) :
    List (Bytes × Stored) → List (Bytes × Json) → List (Bytes × Json)
  | [], entries => entries
  | (key, v) :: records, entries =>
    if key.length = id.length then collectEntries id records entries
    else
      let s := j.asChild v
      match j.text s.compressed s.data with
      | none => []
      | some text =>
        match j.parse text with
        | none => collectEntries id records entries
        | some json =>
          let entries := entries ++ [(key, json)]
          if entries.length ≥ maxChildCount then entries
          else collectEntries id records entries

/-- The children that are read from one environment, each with the key of its record. -/
def childEntriesIn (s : Store) (side : Side) (id : Bytes) : List (Bytes × Json) :=
  if id = [] then []
  else collectEntries j id (scan ((s.side side).env.cursor (s.side side).dbi) id) []

/-- The record can be decompressed. -/
def JaegerEnv.Decompresses (p : Bytes × Stored) : Prop :=
  (j.text (j.asChild p.2).compressed (j.asChild p.2).data).isSome = true

/-- The documents of some records. -/
def JaegerEnv.documents (records : List (Bytes × Stored)) : List Json :=
  records.filterMap fun p => j.childDocument p.2

/-- The loop comes to the record under the key before it has reached the limit, and every record
that it comes to can be decompressed. -/
structure ScanReaches (s : Store) (side : Side) (id key : Bytes) : Prop where
  nonempty : id ≠ []
  readable : ∀ front p rest,
    belowRoot ((s.side side).env.cursor (s.side side).dbi) id = front ++ p :: rest →
      (j.documents front).length < maxChildCount → j.Decompresses p
  early : ∃ front v rest,
    belowRoot ((s.side side).env.cursor (s.side side).dbi) id = front ++ (key, v) :: rest ∧
      (j.documents front).length < maxChildCount

variable {j} {s : Store} {side : Side} {id key : Bytes} {records : List (Bytes × Stored)}
  {entries : List (Bytes × Json)} {v : Stored} {document : Json}

/-! ### The documents are those of the scan -/

theorem map_snd_collectEntries :
    (collectEntries j id records entries).map Prod.snd =
      collectChildren j id records (entries.map Prod.snd) := by
  induction records generalizing entries with
  | nil => rfl
  | cons p records ih =>
    obtain ⟨key, v⟩ := p
    unfold collectEntries collectChildren
    split_ifs with hroot
    · exact ih
    · dsimp only
      cases j.text (j.asChild v).compressed (j.asChild v).data with
      | none => rfl
      | some text =>
        dsimp only
        cases j.parse text with
        | none => exact ih
        | some json =>
          have hlength : (entries.map Prod.snd ++ [json]).length =
              (entries ++ [(key, json)]).length := by simp
          have hmap : entries.map Prod.snd ++ [json] = (entries ++ [(key, json)]).map Prod.snd := by
            simp
          dsimp only
          rw [hlength]
          split_ifs
          · exact hmap.symm
          · rw [ih, hmap]

/-- Without the keys, these are the children that the store returns. -/
theorem map_snd_childEntriesIn :
    (childEntriesIn j s side id).map Prod.snd = childrenIn j s side id := by
  unfold childEntriesIn childrenIn
  split_ifs
  · rfl
  · exact map_snd_collectEntries

/-! ### The loop -/

/-- No record that the loop comes to fails, after `n` documents have been collected. -/
def ReadsThrough (j : JaegerEnv) (n : ℕ) (records : List (Bytes × Stored)) : Prop :=
  ∀ front p rest, records = front ++ p :: rest → n + (j.documents front).length < maxChildCount →
    j.Decompresses p

theorem readsThrough_cons {n : ℕ} {p : Bytes × Stored} :
    ReadsThrough j n (p :: records) ↔
      (n < maxChildCount → j.Decompresses p) ∧
        ReadsThrough j (n + (j.documents [p]).length) records := by
  have happend : ∀ front, (j.documents (p :: front)).length =
      (j.documents [p]).length + (j.documents front).length := by
    intro front
    have hcons : j.documents (p :: front) = j.documents [p] ++ j.documents front :=
      List.filterMap_append (l := [p])
    rw [hcons, List.length_append]
  constructor
  · intro h
    refine ⟨fun hn => h [] p records rfl hn, fun front q rest heq hn => ?_⟩
    refine h (p :: front) q rest (by rw [heq]; rfl) ?_
    rw [happend]
    omega
  · rintro ⟨hp, hrest⟩ front q rest heq hn
    cases front with
    | nil =>
      obtain ⟨rfl, rfl⟩ := List.cons.inj heq
      exact hp hn
    | cons p' front =>
      obtain ⟨rfl, htail⟩ := List.cons.inj heq
      refine hrest front q rest htail ?_
      rw [happend] at hn
      omega

/-- The entry of a record. -/
def JaegerEnv.entry (j : JaegerEnv) (p : Bytes × Stored) : Option (Bytes × Json) :=
  (j.childDocument p.2).map fun document => (p.1, document)

theorem belowRoot_cons (hp : id <+: key) :
    belowRoot ((key, v) :: records) id =
      if key.length = id.length then belowRoot records id else (key, v) :: belowRoot records id := by
  have hskip : key.length = id.length ↔ key = id :=
    ⟨fun h => (hp.eq_of_length h.symm).symm, fun h => by rw [h]⟩
  have hbelow : id.isPrefixOf key = true := List.isPrefixOf_iff_prefix.2 hp
  unfold belowRoot
  split_ifs with h
  · rw [List.filter_cons, if_neg (by simpa using fun _ => hskip.1 h)]
  · rw [List.filter_cons, if_pos (by simpa [hbelow] using fun hk => h (hskip.2 hk))]

/-- What is collected: the entries up to the limit, or nothing after a failure. -/
theorem collectEntries_eq (hkeys : ∀ p ∈ records, id <+: p.1)
    (hlength : entries.length < maxChildCount) :
    (ReadsThrough j entries.length (belowRoot records id) →
      collectEntries j id records entries =
        (entries ++ (belowRoot records id).filterMap j.entry).take maxChildCount) ∧
    (¬ ReadsThrough j entries.length (belowRoot records id) →
      collectEntries j id records entries = []) := by
  induction records generalizing entries with
  | nil =>
    have hnil : belowRoot ([] : List (Bytes × Stored)) id = [] := rfl
    rw [hnil]
    refine ⟨fun _ => ?_, fun hno => absurd (fun front p rest heq => ?_) hno⟩
    · rw [List.filterMap_nil, List.append_nil, List.take_of_length_le hlength.le]
      rfl
    · simp at heq
  | cons p records ih =>
    obtain ⟨key, v⟩ := p
    obtain ⟨hp, hkeys⟩ := List.forall_mem_cons.1 hkeys
    rw [belowRoot_cons hp]
    unfold collectEntries
    split_ifs with hroot
    · exact ih hkeys hlength
    · rw [readsThrough_cons, List.filterMap_cons]
      have hdocument : j.childDocument v =
          (j.text (j.asChild v).compressed (j.asChild v).data).bind j.parse := rfl
      dsimp only
      cases htext : j.text (j.asChild v).compressed (j.asChild v).data with
      | none =>
        have hfails : ¬ j.Decompresses (key, v) := by
          unfold JaegerEnv.Decompresses
          simp [htext]
        exact ⟨fun h => absurd (h.1 hlength) hfails, fun _ => rfl⟩
      | some text =>
        have hreads : j.Decompresses (key, v) := by
          unfold JaegerEnv.Decompresses
          simp [htext]
        rw [htext, Option.bind_some] at hdocument
        dsimp only
        cases hparse : j.parse text with
        | none =>
          have hdocuments : j.documents [(key, v)] = [] := by
            simp [JaegerEnv.documents, hdocument, hparse]
          have hentry : j.entry (key, v) = none := by
            simp [JaegerEnv.entry, hdocument, hparse]
          rw [hdocuments, hentry, and_iff_right fun _ => hreads]
          exact ih hkeys hlength
        | some json =>
          have hdocuments : (j.documents [(key, v)]).length = 1 := by
            simp [JaegerEnv.documents, hdocument, hparse]
          have hentry : j.entry (key, v) = some (key, json) := by
            simp [JaegerEnv.entry, hdocument, hparse]
          have hsucc : (entries ++ [(key, json)]).length = entries.length + 1 := by simp
          rw [hdocuments, hentry, and_iff_right fun _ => hreads]
          dsimp only
          rw [List.append_cons entries (key, json) (List.filterMap _ _), ← hsucc]
          split_ifs with hlimit
          · -- the limit is reached, and no further record is visited
            have hfull : (entries ++ [(key, json)]).length = maxChildCount := by omega
            refine ⟨fun _ => ?_, fun hno => absurd (fun front q rest _ hn => ?_) hno⟩
            · rw [← hfull, List.take_left]
            · omega
          · exact ih hkeys (not_le.1 hlimit)

/-! ### One record -/

/-- An entry that is nowhere in front is taken exactly if it is early enough. -/
theorem mem_take_append_cons {α : Type*} {x : α} {front rest : List α} {n : ℕ} (hx : x ∉ front) :
    x ∈ (front ++ x :: rest).take n ↔ front.length < n := by
  constructor
  · intro hmem
    by_contra hle
    rw [List.take_append_of_le_length (not_lt.1 hle)] at hmem
    exact hx (List.mem_of_mem_take hmem)
  · intro hlt
    obtain ⟨m, rfl⟩ := Nat.exists_eq_add_of_lt hlt
    rw [add_assoc, List.take_length_add_append, List.take_succ_cons]
    exact List.mem_append_right _ List.mem_cons_self

theorem entry_eq_some {p : Bytes × Stored} :
    j.entry p = some (key, document) ↔ p.1 = key ∧ j.childDocument p.2 = some document := by
  unfold JaegerEnv.entry
  rw [Option.map_eq_some_iff]
  constructor
  · rintro ⟨d, hd, heq⟩
    obtain ⟨rfl, rfl⟩ := Prod.mk.inj heq
    exact ⟨rfl, hd⟩
  · rintro ⟨rfl, hd⟩
    exact ⟨document, hd, rfl⟩

theorem length_filterMap_entry (records : List (Bytes × Stored)) :
    (records.filterMap j.entry).length = (j.documents records).length := by
  have hmap : j.documents records = (records.filterMap j.entry).map Prod.snd := by
    rw [List.map_filterMap]
    refine List.filterMap_congr fun p _ => ?_
    unfold JaegerEnv.entry
    rw [Option.map_map]
    exact Option.map_id'.symm
  rw [hmap, List.length_map]

/-- The entry of a record is collected exactly if there are few enough documents in front of it. -/
theorem mem_take_entries_iff {front rest : List (Bytes × Stored)}
    (hnodup : ((front ++ (key, v) :: rest).map Prod.fst).Nodup)
    (hv : j.childDocument v = some document) :
    (key, document) ∈ ((front ++ (key, v) :: rest).filterMap j.entry).take maxChildCount ↔
      (j.documents front).length < maxChildCount := by
  have hentry : j.entry (key, v) = some (key, document) := entry_eq_some.2 ⟨rfl, hv⟩
  have hfront : (key, document) ∉ front.filterMap j.entry := by
    intro hmem
    obtain ⟨p, hp, heq⟩ := List.mem_filterMap.1 hmem
    rw [List.map_append, List.nodup_append] at hnodup
    exact hnodup.2.2 p.1 (List.mem_map_of_mem hp) key (by simp) (entry_eq_some.1 heq).1
  rw [List.filterMap_append, List.filterMap_cons, hentry]
  dsimp only
  rw [mem_take_append_cons hfront, length_filterMap_entry]

/-- **One child record.**  Its document is among the children that are read exactly if the loop
comes to the record, and the record is read as the document. -/
theorem mem_childEntriesIn_iff (hopen : s.Opened) (hv : s.record side key = some v) :
    (key, document) ∈ childEntriesIn j s side id ↔
      ScanReaches j s side id key ∧ j.childDocument v = some document := by
  unfold childEntriesIn
  by_cases hid : id = []
  · rw [if_pos hid]
    exact iff_of_false List.not_mem_nil fun h => h.1.nonempty hid
  rw [if_neg hid]
  have hzero : ([] : List (Bytes × Json)).length < maxChildCount := by decide
  obtain ⟨hreads, hfails⟩ := collectEntries_eq (j := j)
    (fun p (hp : p ∈ scan ((s.side side).env.cursor (s.side side).dbi) id) =>
      prefix_of_mem_scan hp) hzero
  rw [belowRoot_scan] at hreads hfails
  -- the record is among those below the root exactly if its key is below the id
  have hmem : ∀ w : Stored, (key, w) ∈ belowRoot ((s.side side).env.cursor (s.side side).dbi) id →
      w = v := fun w hw => by
    have hrecord := ((mem_belowRoot_iff (c := ⟨s, fun _ => ∅⟩) hopen).1 hw).2
    exact Option.some.inj (hrecord.symm.trans hv)
  have hnodup : ((belowRoot ((s.side side).env.cursor (s.side side).dbi) id).map Prod.fst).Nodup :=
    (nodup_keys_cursor _ _).sublist (List.filter_sublist.map _)
  by_cases hthrough : ReadsThrough j 0 (belowRoot ((s.side side).env.cursor (s.side side).dbi) id)
  · rw [hreads hthrough, List.nil_append]
    constructor
    · intro h
      obtain ⟨⟨key', w⟩, hw, heq⟩ := List.mem_filterMap.1 (List.mem_of_mem_take h)
      obtain ⟨rfl, hd⟩ := entry_eq_some.1 heq
      obtain rfl := hmem w hw
      obtain ⟨front, rest, hsplit⟩ := List.append_of_mem hw
      rw [hsplit] at h hnodup
      refine ⟨⟨hid, fun front p rest heq hn => ?_, front, w, rest, hsplit,
        (mem_take_entries_iff hnodup hd).1 h⟩, hd⟩
      exact hthrough front p rest heq (by rwa [zero_add])
    · rintro ⟨⟨-, -, front, w, rest, hsplit, hlt⟩, hd⟩
      obtain rfl := hmem w (by rw [hsplit]; simp)
      rw [hsplit] at hnodup ⊢
      exact (mem_take_entries_iff hnodup hd).2 hlt
  · rw [hfails hthrough]
    refine iff_of_false List.not_mem_nil fun h => hthrough fun front p rest heq hn => ?_
    exact h.1.readable front p rest heq (by rwa [zero_add] at hn)

end Tracemate.TransactionStore
