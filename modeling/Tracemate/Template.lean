import Tracemate.Lib.CStr

/-!
# Placeholders in templates

`tm_replace_vars` puts values in the places of `{{name}}` in the template of a graph or of a
dashboard.

* `scanByte`: what the scanner does with one byte; `tmReplaceVars`: the whole template;
* `Piece`: the pieces that a template is made of, complete and broken placeholders among them;
  `exists_pieces`: the scanner is back in its initial state exactly after whole pieces;
* `tmReplaceVars_append_iff`: when a placeholder is replaced by the value of its own name: the
  names of broken placeholders stay in the name buffer until a placeholder is complete.
-/

namespace Tracemate.Template

open CStr

/-- The states of the scanner. -/
inductive State
  | none
  | startBrace
  | inVar
  | endBrace
  deriving DecidableEq, Repr

/-- The table of the values: under a name there may be a `NULL` pointer or a C string. -/
structure Values where
  retr : Bytes → Option (Option Bytes)
  noNul : ∀ {name val : Bytes}, retr name = some (some val) → (0 : UInt8) ∉ val

/-- What is put in the place of a name: nothing for a name that is not in the table. -/
def Values.value (values : Values) (name : Bytes) : Bytes :=
  match values.retr name with
  | some (some val) => val
  | _ => []

theorem Values.notMem_value (values : Values) (name : Bytes) :
    (0 : UInt8) ∉ values.value name := by
  unfold Values.value
  split
  · next h => exact values.noNul h
  · exact List.not_mem_nil

/-- The variables of the loop: the state, and the two buffers. -/
structure Scanner where
  state : State
  result : Bytes
  varName : Bytes

/-- The scanner before the first byte. -/
def Scanner.init : Scanner := ⟨.none, [], []⟩

/-- One round of the loop, with the byte `x`. -/
def scanByte (values : Values) (sc : Scanner) (x : UInt8) : Scanner :=
  match sc.state with
  | .none =>
    if x = 123 then { sc with state := .startBrace }
    else { sc with result := sc.result ++ [x] }
  | .startBrace =>
    if x = 123 then { sc with state := .inVar }
    else { sc with state := .none, result := sc.result ++ [123] ++ [x] }
  | .inVar =>
    { sc with
      varName := if x ≠ 32 ∧ x ≠ 125 then sc.varName ++ [x] else sc.varName
      state := if x = 125 then .endBrace else .inVar }
  | .endBrace =>
    if x = 125 then ⟨.none, sc.result ++ values.value sc.varName, []⟩
    -- the name that has been read stays in the buffer
    else { sc with state := .none, result := sc.result ++ [125] ++ [x] }

/-- The loop over the bytes of the template. -/
def scan (values : Values) (source : Bytes) : Scanner :=
  source.foldl (scanByte values) Scanner.init

/-- `strdup`: the bytes before the first `NUL`. -/
def strdup (memory : Bytes) : Bytes := memory.takeWhile (· ≠ 0)

/-- The template with the values in the places of the names. -/
def tmReplaceVars (source : Bytes) (values : Values) : Bytes :=
  strdup ((scan values source).result ++ [0])

/-! ### The scanner on more input -/

section Scanner

variable (values : Values)

/-- What is in the result already is not looked at. -/
theorem scanByte_result (st : State) (r out name : Bytes) (x : UInt8) :
    scanByte values ⟨st, r ++ out, name⟩ x =
      { scanByte values ⟨st, out, name⟩ x with
        result := r ++ (scanByte values ⟨st, out, name⟩ x).result } := by
  cases st <;> simp only [scanByte] <;> split_ifs <;> simp

theorem foldl_scanByte_result (source : Bytes) (st : State) (r out name : Bytes) :
    source.foldl (scanByte values) ⟨st, r ++ out, name⟩ =
      { source.foldl (scanByte values) ⟨st, out, name⟩ with
        result := r ++ (source.foldl (scanByte values) ⟨st, out, name⟩).result } := by
  induction source generalizing st out name with
  | nil => rfl
  | cons x source ih =>
    simp only [List.foldl_cons]
    rw [scanByte_result, ih]

/-- From a state without a name, the rest of a template is read like a template of its own. -/
theorem foldl_scanByte_clean (r source : Bytes) :
    (source.foldl (scanByte values) ⟨.none, r, []⟩).result = r ++ (scan values source).result := by
  have h := foldl_scanByte_result values source .none r [] []
  rw [List.append_nil] at h
  rw [h]
  rfl

/-- The bytes of a name, without its blanks, go to the name buffer. -/
theorem foldl_scanByte_name {name : Bytes} (h : (125 : UInt8) ∉ name) (r v : Bytes) :
    name.foldl (scanByte values) ⟨.inVar, r, v⟩ = ⟨.inVar, r, v ++ name.filter (· ≠ 32)⟩ := by
  induction name generalizing v with
  | nil => simp
  | cons x name ih =>
    obtain ⟨hx, hname⟩ : x ≠ 125 ∧ (125 : UInt8) ∉ name := by
      rw [List.mem_cons, not_or] at h
      exact ⟨Ne.symm h.1, h.2⟩
    rw [List.foldl_cons]
    by_cases hblank : x = 32
    · subst hblank
      simpa [scanByte] using ih hname v
    · simpa [scanByte, hx, hblank] using ih hname (v ++ [x])

end Scanner

/-! ### Pieces of templates -/

/-- What takes the scanner from its initial state back to it. -/
inductive Piece
  | text (c : UInt8) (h : c ≠ 123)
  | brace (c : UInt8) (h : c ≠ 123)
  | broken (name : Bytes) (c : UInt8) (hname : (125 : UInt8) ∉ name) (h : c ≠ 125)
  | placeholder (name : Bytes) (hname : (125 : UInt8) ∉ name)

namespace Piece

/-- The bytes of a piece. -/
def source : Piece → Bytes
  | text c _ => [c]
  | brace c _ => [123, c]
  | broken name c _ _ => [123, 123] ++ name ++ [125, c]
  | placeholder name _ => [123, 123] ++ name ++ [125, 125]

/-- What a piece writes when `v` has been left behind. -/
def output (values : Values) (v : Bytes) : Piece → Bytes
  | text c _ => [c]
  | brace c _ => [123, c]
  | broken _ c _ _ => [125, c]
  | placeholder name _ => values.value (v ++ name.filter (· ≠ 32))

/-- What is left behind after a piece when `v` has been left behind before it: a broken
placeholder adds its name, a complete one takes all of it away. -/
def leave (v : Bytes) : Piece → Bytes
  | text _ _ => v
  | brace _ _ => v
  | broken name _ _ _ => v ++ name.filter (· ≠ 32)
  | placeholder _ _ => []

/-- A piece takes the scanner back to its initial state. -/
theorem foldl_scanByte (values : Values) (piece : Piece) (r v : Bytes) :
    piece.source.foldl (scanByte values) ⟨.none, r, v⟩ =
      ⟨.none, r ++ piece.output values v, piece.leave v⟩ := by
  cases piece with
  | text c h => simp [source, scanByte, h, output, leave]
  | brace c h => simp [source, scanByte, h, output, leave]
  | broken name c hname h =>
    have hopen : [123, 123].foldl (scanByte values) ⟨.none, r, v⟩ = ⟨.inVar, r, v⟩ := by
      simp [scanByte]
    rw [source, List.foldl_append, List.foldl_append, hopen, foldl_scanByte_name values hname]
    simp [scanByte, h, output, leave]
  | placeholder name hname =>
    have hopen : [123, 123].foldl (scanByte values) ⟨.none, r, v⟩ = ⟨.inVar, r, v⟩ := by
      simp [scanByte]
    rw [source, List.foldl_append, List.foldl_append, hopen, foldl_scanByte_name values hname]
    simp [scanByte, output, leave]

end Piece

/-- The names of the broken placeholders after the last complete one, without their blanks. -/
def leftBehind (pieces : List Piece) : Bytes := pieces.foldl Piece.leave []

/-- What the pieces write. -/
def outputs (values : Values) : Bytes → List Piece → Bytes
  | _, [] => []
  | v, piece :: pieces => piece.output values v ++ outputs values (piece.leave v) pieces

theorem foldl_scanByte_pieces (values : Values) (pieces : List Piece) (r v : Bytes) :
    (pieces.flatMap Piece.source).foldl (scanByte values) ⟨.none, r, v⟩ =
      ⟨.none, r ++ outputs values v pieces, pieces.foldl Piece.leave v⟩ := by
  induction pieces generalizing r v with
  | nil => simp [outputs]
  | cons piece pieces ih =>
    rw [List.flatMap_cons, List.foldl_append, piece.foldl_scanByte, ih, outputs,
      List.append_assoc, List.foldl_cons]

/-- After whole pieces the scanner is in its initial state, and its name buffer holds what has been
left behind. -/
theorem scan_pieces (values : Values) (pieces : List Piece) :
    scan values (pieces.flatMap Piece.source) =
      ⟨.none, outputs values [] pieces, leftBehind pieces⟩ := by
  simpa [scan, Scanner.init, leftBehind] using foldl_scanByte_pieces values pieces [] []

/-- What has been read in each state: whole pieces, and the start of a further one. -/
def HasRead (source : Bytes) (st : State) : Prop :=
  ∃ pieces : List Piece,
    match st with
    | .none => source = pieces.flatMap Piece.source
    | .startBrace => source = pieces.flatMap Piece.source ++ [123]
    | .inVar => ∃ name, (125 : UInt8) ∉ name ∧
        source = pieces.flatMap Piece.source ++ ([123, 123] ++ name)
    | .endBrace => ∃ name, (125 : UInt8) ∉ name ∧
        source = pieces.flatMap Piece.source ++ ([123, 123] ++ name ++ [125])

theorem HasRead.scanByte {source : Bytes} {sc : Scanner} (h : HasRead source sc.state)
    (values : Values) (x : UInt8) : HasRead (source ++ [x]) (scanByte values sc x).state := by
  obtain ⟨st, r, v⟩ := sc
  obtain ⟨pieces, h⟩ := h
  -- a piece that is complete with `x` joins the others
  have hjoin (piece : Piece) (hp : source ++ [x] = pieces.flatMap Piece.source ++ piece.source) :
      source ++ [x] = (pieces ++ [piece]).flatMap Piece.source := by
    simpa using hp
  cases st with
  | none =>
    by_cases hx : x = 123
    · simp only [Template.scanByte, if_pos hx]
      exact ⟨pieces, by rw [h, hx]⟩
    · simp only [Template.scanByte, if_neg hx]
      exact ⟨_, hjoin (.text x hx) (by rw [h]; rfl)⟩
  | startBrace =>
    by_cases hx : x = 123
    · simp only [Template.scanByte, if_pos hx]
      exact ⟨pieces, [], List.not_mem_nil, by rw [h, hx]; simp⟩
    · simp only [Template.scanByte, if_neg hx]
      exact ⟨_, hjoin (.brace x hx) (by rw [h]; simp [Piece.source])⟩
  | inVar =>
    obtain ⟨name, hname, rfl⟩ := h
    by_cases hx : x = 125
    · subst hx
      exact ⟨pieces, name, hname, by simp⟩
    · have hmem : (125 : UInt8) ∉ name ++ [x] := by simp [hname, Ne.symm hx]
      simp only [Template.scanByte, if_neg hx]
      exact ⟨pieces, name ++ [x], hmem, by simp⟩
  | endBrace =>
    obtain ⟨name, hname, rfl⟩ := h
    by_cases hx : x = 125
    · simp only [Template.scanByte, if_pos hx]
      exact ⟨_, hjoin (.placeholder name hname) (by simp [hx, Piece.source])⟩
    · simp only [Template.scanByte, if_neg hx]
      exact ⟨_, hjoin (.broken name x hname hx) (by simp [Piece.source])⟩

theorem hasRead_scan (values : Values) (source : Bytes) :
    HasRead source (scan values source).state := by
  induction source using List.reverseRecOn with
  | nil => exact ⟨[], rfl⟩
  | append_singleton source x ih =>
    rw [scan, List.foldl_append]
    exact ih.scanByte values x

/-- The scanner is in its initial state exactly after whole pieces. -/
theorem exists_pieces {values : Values} {source : Bytes} :
    (scan values source).state = .none ↔
      ∃ pieces : List Piece, pieces.flatMap Piece.source = source := by
  constructor
  · intro h
    have := hasRead_scan values source
    rw [h] at this
    obtain ⟨pieces, hpieces⟩ := this
    exact ⟨pieces, hpieces.symm⟩
  · rintro ⟨pieces, rfl⟩
    rw [scan_pieces]

/-! ### The copy of the result -/

theorem strdup_append_zero {s : Bytes} (h : (0 : UInt8) ∉ s) : strdup (s ++ [0]) = s := by
  have hs : ∀ c ∈ s, (decide (c ≠ 0)) = true := by
    intro c hc
    exact decide_eq_true fun h0 => h (h0 ▸ hc)
  rw [strdup, List.takeWhile_append_of_pos hs]
  simp

theorem notMem_scanByte (values : Values) {sc : Scanner} {x : UInt8}
    (h : (0 : UInt8) ∉ sc.result) (hx : x ≠ 0) :
    (0 : UInt8) ∉ (scanByte values sc x).result := by
  obtain ⟨st, r, v⟩ := sc
  have hx' : ¬ 0 = x := Ne.symm hx
  have hval := values.notMem_value v
  cases st with
  | none => simp only [scanByte]; split_ifs <;> simp_all
  | startBrace => simp only [scanByte]; split_ifs <;> simp_all
  | inVar => exact h
  | endBrace => simp only [scanByte]; split_ifs <;> simp_all

/-- No `NUL` gets into the result. -/
theorem notMem_scan (values : Values) {source : Bytes} (h : (0 : UInt8) ∉ source) :
    (0 : UInt8) ∉ (scan values source).result := by
  induction source using List.reverseRecOn with
  | nil => exact List.not_mem_nil
  | append_singleton source x ih =>
    simp only [List.mem_append, List.mem_singleton, not_or] at h
    rw [scan, List.foldl_append]
    exact notMem_scanByte values (ih h.1) (Ne.symm h.2)

/-- All of the result is copied. -/
theorem tmReplaceVars_eq (values : Values) {source : Bytes} (h : (0 : UInt8) ∉ source) :
    tmReplaceVars source values = (scan values source).result :=
  strdup_append_zero (notMem_scan values h)

/-- A whole template: what its pieces write. -/
theorem tmReplaceVars_pieces (values : Values) {pieces : List Piece}
    (h : (0 : UInt8) ∉ pieces.flatMap Piece.source) :
    tmReplaceVars (pieces.flatMap Piece.source) values = outputs values [] pieces := by
  rw [tmReplaceVars_eq values h, scan_pieces]

/-! ### Placeholders on their own -/

section Placeholder

variable (values : Values) {p name s : Bytes}

/-- After whole pieces, a placeholder is replaced by the value of what has been left behind,
followed by its name; the rest of the template is replaced as it would be on its own. -/
theorem scan_placeholder (pieces : List Piece) (hname : ∀ c ∈ name, c ≠ 32 ∧ c ≠ 125)
    (s : Bytes) :
    (scan values (pieces.flatMap Piece.source ++ cstr "\x7b\x7b" ++ name ++ cstr "\x7d\x7d" ++
        s)).result =
      (scan values (pieces.flatMap Piece.source)).result ++
        values.value (leftBehind pieces ++ name) ++ (scan values s).result := by
  have hmem : (125 : UInt8) ∉ name := fun h => (hname 125 h).2 rfl
  have hblank : name.filter (· ≠ 32) = name := by
    rw [List.filter_eq_self]
    intro c hc
    exact decide_eq_true (hname c hc).1
  have hpiece : pieces.flatMap Piece.source ++ cstr "\x7b\x7b" ++ name ++ cstr "\x7d\x7d" ++ s =
      pieces.flatMap Piece.source ++ ((Piece.placeholder name hmem).source ++ s) := by
    rw [show cstr "\x7b\x7b" = [123, 123] by decide, show cstr "\x7d\x7d" = [125, 125] by decide]
    simp [Piece.source]
  have hscan := scan_pieces values pieces
  rw [hpiece, scan, List.foldl_append, ← scan, hscan, List.foldl_append, Piece.foldl_scanByte]
  simp only [Piece.output, Piece.leave]
  rw [foldl_scanByte_clean, hblank]

/-- **Placeholders.**  After a start that leaves the scanner in its initial state, that is, after
whole pieces, a placeholder and the rest of the template are replaced on their own if and only if
the names left behind by broken placeholders, put before the name, do not change its value. -/
theorem tmReplaceVars_append_iff (hp : (scan values p).state = .none)
    (hname : ∀ c ∈ name, c ≠ 32 ∧ c ≠ 125) (h0 : (0 : UInt8) ∉ p ++ name ++ s) :
    (∃ pieces : List Piece, pieces.flatMap Piece.source = p) ∧
      ∀ pieces : List Piece, pieces.flatMap Piece.source = p →
        (tmReplaceVars (p ++ cstr "\x7b\x7b" ++ name ++ cstr "\x7d\x7d" ++ s) values =
            tmReplaceVars p values ++ values.value name ++ tmReplaceVars s values ↔
          values.value (leftBehind pieces ++ name) = values.value name) := by
  refine ⟨exists_pieces.1 hp, ?_⟩
  rintro pieces rfl
  simp only [List.mem_append, not_or] at h0
  obtain ⟨⟨hp0, hname0⟩, hs0⟩ := h0
  have hall : (0 : UInt8) ∉
      pieces.flatMap Piece.source ++ cstr "\x7b\x7b" ++ name ++ cstr "\x7d\x7d" ++ s := by
    simp only [List.mem_append, not_or]
    exact ⟨⟨⟨⟨hp0, by decide⟩, hname0⟩, by decide⟩, hs0⟩
  rw [tmReplaceVars_eq values hall, tmReplaceVars_eq values hp0, tmReplaceVars_eq values hs0,
    scan_placeholder values pieces hname s, List.append_left_inj, List.append_right_inj]

end Placeholder

/-- A table with the value `1` under `b` alone. -/
def oneValue : Values where
  retr name := if name = cstr "b" then some (some (cstr "1")) else none
  noNul h := by
    split_ifs at h
    obtain rfl := (Option.some.inj (Option.some.inj h))
    decide

theorem name_b : ∀ c ∈ cstr "b", c ≠ 32 ∧ c ≠ 125 := by
  intro c hc
  obtain rfl : c = 98 := List.mem_singleton.1 hc
  decide

/-- After a start without a broken placeholder. -/
theorem tmReplaceVars_after_text :
    (∃ pieces : List Piece, pieces.flatMap Piece.source = cstr "{{b}}, \x7bx") ∧
      ∀ pieces : List Piece, pieces.flatMap Piece.source = cstr "{{b}}, \x7bx" →
        (tmReplaceVars (cstr "{{b}}, \x7bx" ++ cstr "\x7b\x7b" ++ cstr "b" ++ cstr "\x7d\x7d" ++
              cstr "\x7b\x7bc") oneValue =
            tmReplaceVars (cstr "{{b}}, \x7bx") oneValue ++ oneValue.value (cstr "b") ++
              tmReplaceVars (cstr "\x7b\x7bc") oneValue ↔
          oneValue.value (leftBehind pieces ++ cstr "b") = oneValue.value (cstr "b")) :=
  tmReplaceVars_append_iff oneValue (by decide) name_b (by decide)

/-- The name of a broken placeholder is put before the next name. -/
theorem tmReplaceVars_broken :
    ¬ ∀ (values : Values) (p name s : Bytes), (scan values p).state = .none →
      (∀ c ∈ name, c ≠ 32 ∧ c ≠ 125) → (0 : UInt8) ∉ p ++ name ++ s →
      tmReplaceVars (p ++ cstr "\x7b\x7b" ++ name ++ cstr "\x7d\x7d" ++ s) values =
        tmReplaceVars p values ++ values.value name ++ tmReplaceVars s values := by
  intro h
  have := h oneValue (cstr "\x7b{a}x") (cstr "b") [] (by decide) name_b (by decide)
  exact absurd this (by decide)

end Tracemate.Template
