import Viracochan.Storage
import Viracochan.Journal.Resequence

/-!
# Viracochan: the journal file

A `Journal` keeps the entries of every configuration as the lines of one
storage object, one `json.Marshal` encoding per line.

**Append.**  Encode the entry, read the journal (a failed read counts as an
empty journal), add a newline if the text does not end with one, then the
encoding and a newline, and write the result back.  The mutex of a `Journal`
orders the appends made through that instance only; two instances on one path
are not ordered, so `append` is also given as its two storage steps,
`appendRead` and `appendWrite`.

**ReadAll.**  Read the journal (a read error that is `io.EOF` or whose text
contains `no such file` is an empty journal), split it with a `bufio.Scanner`
(`ScanLines`: lines end at a newline and lose a final carriage return; a line
of `MaxScanTokenSize` bytes or more stops the scan with `ErrTooLong`), skip
empty lines and decode the others.

**JournalReader.**  `Next` reads the whole journal again, scans from its
offset, takes the first line, moves the offset past it and its newline, and
decodes it; at the end of the text, or when no line can be scanned, it answers
`io.EOF`.

Errors are compared by their text: `io.EOF` is the error whose text is `EOF`.

**Results.**
* `append_eq_read_write`: `Append` is its read step followed by its write step.
* `interleaved_appends_lose_first`: when two instances both read before either
  writes, the second write replaces the first.
* `scanLines_journalText`: a journal of short one-line encodings is scanned
  back into those lines.
* `readAll_appendAll` and `nexts_appendAll`: appending entries to an absent
  journal and reading it back, with `ReadAll` or with a `JournalReader`.
-/

namespace Viracochan

/-- An entry as it is read back after `json.Marshal`: its config reread. -/
def JournalEntry.reread (e : JournalEntry) : JournalEntry :=
  { e with config := e.config.map Config.reread }

namespace Journal

open Json

/-! ## The line scanner -/

/-- `bufio.MaxScanTokenSize`: the longest line a default `Scanner` can hold,
newline included, in bytes. -/
def maxScanTokenSize : Nat :=
  64 * 1024

/-- The text of `bufio.ErrTooLong`. -/
def errTooLong : String :=
  "bufio.Scanner: token too long"

/-- The text of `io.EOF`. -/
def eof : String :=
  "EOF"

/-- The length of UTF-8 text in bytes. -/
def byteLength (l : List Char) : Nat :=
  (l.map Char.utf8Size).sum

theorem byteLength_append (a b : List Char) : byteLength (a ++ b) = byteLength a + byteLength b := by
  simp [byteLength]

theorem byteLength_cons (c : Char) (l : List Char) : byteLength (c :: l) = c.utf8Size + byteLength l := by
  simp [byteLength]

theorem byteLength_replicate (k : Nat) (c : Char) :
    byteLength (List.replicate k c) = k * c.utf8Size := by
  simp [byteLength, List.map_replicate, List.sum_replicate]

/-- `dropCR`: a line without its final carriage return. -/
def dropCR (l : List Char) : List Char :=
  if l.getLast? = some '\r' then l.dropLast else l

/-- `Scanner.Scan` with `ScanLines`, over the pieces of the text between
newlines (the last piece is not terminated): each piece is a token, without
its carriage return, except an empty last piece; the scan stops with
`ErrTooLong` at the first piece of `MaxScanTokenSize` bytes or more. -/
def scanPieces : List (List Char) → List (List Char) × Option String
  | [] => ([], none)
  | l :: rest =>
      if rest = [] ∧ l = [] then ([], none)
      else if maxScanTokenSize ≤ byteLength l then ([], some errTooLong)
      else
        let r := scanPieces rest
        (dropCR l :: r.1, r.2)

/-- The tokens a line `Scanner` returns for a text, and its error. -/
def scanLines (data : List Char) : List (List Char) × Option String :=
  scanPieces (data.splitOn '\n')

/-- A journal of the given lines, each ended by a newline. -/
def journalText (lines : List (List Char)) : List Char :=
  lines.flatMap (· ++ ['\n'])

@[simp] theorem journalText_nil : journalText [] = [] :=
  rfl

@[simp] theorem journalText_cons (l : List Char) (ls : List (List Char)) :
    journalText (l :: ls) = l ++ '\n' :: journalText ls := by
  simp [journalText]

theorem journalText_append (ls ls' : List (List Char)) :
    journalText (ls ++ ls') = journalText ls ++ journalText ls' := by
  simp [journalText]

/-- A line the scanner gives back as it is: no newline in it, no final
carriage return, and shorter than the scanner's buffer. -/
def OneLine (l : List Char) : Prop :=
  '\n' ∉ l ∧ l.getLast? ≠ some '\r' ∧ byteLength l < maxScanTokenSize

theorem splitOn_journalText {ls : List (List Char)} (h : ∀ l ∈ ls, '\n' ∉ l) :
    (journalText ls).splitOn '\n' = ls ++ [[]] := by
  induction ls with
  | nil => rfl
  | cons l ls ih =>
      have hl : ∀ x ∈ l, ¬(x == '\n') = true := fun x hx hx' =>
        (h l (List.mem_cons_self _ _)) (by rwa [beq_iff_eq.mp hx'] at hx)
      rw [journalText_cons, List.splitOn, List.splitOnP_first _ _ hl '\n' (beq_self_eq_true _),
        ← List.splitOn, ih fun l' hl' => h l' (List.mem_cons_of_mem _ hl')]
      rfl

theorem scanPieces_lines {ls : List (List Char)}
    (h : ∀ l ∈ ls, l.getLast? ≠ some '\r' ∧ byteLength l < maxScanTokenSize) :
    scanPieces (ls ++ [[]]) = (ls, none) := by
  induction ls with
  | nil => rfl
  | cons l ls ih =>
      obtain ⟨hcr, hlen⟩ := h l (List.mem_cons_self _ _)
      have hrest : ls ++ [[]] ≠ [] := by simp
      rw [List.cons_append, scanPieces]
      simp only [hrest, false_and, if_false, Nat.not_le.mpr hlen,
        ih fun l' hl' => h l' (List.mem_cons_of_mem _ hl'), dropCR, hcr]

/-- **The scanner reads a journal back.**  A journal of lines that each fit on
one line of the scanner is scanned into exactly those lines, with no error. -/
theorem scanLines_journalText {ls : List (List Char)} (h : ∀ l ∈ ls, OneLine l) :
    scanLines (journalText ls) = (ls, none) := by
  rw [scanLines, splitOn_journalText fun l hl => (h l hl).1]
  exact scanPieces_lines fun l hl => (h l hl).2

/-! ## Decoding lines -/

/-- `strings.Contains`: `sub` occurs in the text. -/
def containsText (sub : List Char) : List Char → Bool
  | [] => sub.isPrefixOf []
  | c :: cs => sub.isPrefixOf (c :: cs) || containsText sub cs

/-- The read errors `ReadAll` and `Compact` take for an absent journal:
`io.EOF`, or an error whose text contains `no such file`. -/
def isAbsent (e : String) : Bool :=
  e = eof || containsText "no such file".data e.data

/-- The loop of `ReadAll` over the scanned lines: empty lines are skipped, the
first line that does not decode ends it with that error. -/
def decodeLines : List (List Char) → Except String (List JournalEntry)
  | [] => .ok []
  | l :: ls =>
      if l = [] then decodeLines ls
      else
        match unmarshalEntry l with
        | .error e => .error ("invalid journal entry: " ++ e.text)
        | .ok entry => (decodeLines ls).map (entry :: ·)

/-- What `json.Marshal` writes for an entry (nothing when it fails). -/
def encoded (e : JournalEntry) : List Char :=
  match marshalEntry e with
  | .ok b => b
  | .error _ => []

/-- An entry whose encoding the journal keeps on one line and reads back: it
encodes, the encoding fits the scanner's buffer, and its times have
whole-minute zone offsets. -/
structure Storable (e : JournalEntry) : Prop where
  encodes : ∃ b, marshalEntry e = .ok b
  short : byteLength (encoded e) < maxScanTokenSize
  offset : e.time.offset % 60 = 0
  configOffset : ∀ c ∈ e.config, c.meta.time.offset % 60 = 0

theorem Storable.marshalEntry_eq {e : JournalEntry} (h : Storable e) :
    marshalEntry e = .ok (encoded e) := by
  obtain ⟨b, hb⟩ := h.encodes
  unfold encoded
  rw [hb]

/-- The encoding of an entry is one JSON object with no control character. -/
theorem Storable.oneLine {e : JournalEntry} (h : Storable e) :
    OneLine (encoded e) ∧ encoded e ≠ [] ∧
      unmarshalEntry (encoded e) = .ok e.reread := by
  have hm := h.marshalEntry_eq
  obtain ⟨tb, cm, -, hcm, hb⟩ := marshalEntry_ok hm
  have hcl := e.clean_fields (configMember_clean hcm)
  have hctl := render_bare_toNat hcl.valid
  have hne : encoded e ≠ [] := by
    obtain ⟨t, ts, ht, -⟩ := (Value.object (e.fields cm)).tokens_head
    have htext := Token.text_ne_nil (hcl.valid t (ht ▸ List.mem_cons_self _ _))
    rw [hb, render_bare, ht, List.flatMap_cons]
    simp [htext]
  refine ⟨⟨fun hn => absurd (hctl _ (hb ▸ hn)) (by decide),
    fun hr => absurd (hctl _ (hb ▸ List.mem_of_getLast?_eq_some hr)) (by decide), h.short⟩, hne,
    unmarshalEntry_marshalEntry hm h.offset h.configOffset⟩

/-- The encoder writes an entry and its reread copy alike. -/
theorem marshalEntry_reread {e : JournalEntry} {b : List Char} (h : marshalEntry e = .ok b) :
    marshalEntry e.reread = .ok b := by
  obtain ⟨tb, cm, ht, hcm, rfl⟩ := marshalEntry_ok h
  have hcm' : configMember e.reread.config = .ok cm := by
    cases hc : e.config with
    | none =>
        rw [hc] at hcm
        simpa only [JournalEntry.reread, hc, Option.map_none'] using hcm
    | some c =>
        rw [hc] at hcm
        obtain ⟨v, hv, -⟩ := except_bind_eq_ok.mp hcm
        obtain ⟨-, cv, -, hcv, -⟩ := marshalWith_config hv
        simp only [JournalEntry.reread, hc, Option.map_some', configMember,
          Config.marshalJSON_reread hcv] at hcm ⊢
        exact hcm
  exact @marshalEntry_eq_render e.reread _ _ ht hcm'

theorem encoded_reread {e : JournalEntry} (h : Storable e) : encoded e.reread = encoded e := by
  unfold encoded
  rw [h.marshalEntry_eq, marshalEntry_reread h.marshalEntry_eq]

/-- What the journal hands back of a storable entry is storable, and is handed back
as it is. -/
theorem Storable.reread {e : JournalEntry} (h : Storable e) :
    Storable e.reread ∧ e.reread.reread = e.reread := by
  have hst : Storable e.reread :=
    ⟨⟨_, marshalEntry_reread h.marshalEntry_eq⟩, (encoded_reread h).symm ▸ h.short, h.offset,
      fun c hc => by
        obtain ⟨c0, hc0, rfl⟩ := Option.mem_map.mp hc
        exact h.configOffset c0 hc0⟩
  refine ⟨hst, ?_⟩
  have h1 := hst.oneLine.2.2
  rw [encoded_reread h, h.oneLine.2.2] at h1
  exact (Except.ok.inj h1).symm

theorem decodeLines_encoded {es : List JournalEntry} (h : ∀ e ∈ es, Storable e) :
    decodeLines (es.map encoded) = .ok (es.map JournalEntry.reread) := by
  induction es with
  | nil => rfl
  | cons e es ih =>
      obtain ⟨-, hne, hdec⟩ := (h e (List.mem_cons_self _ _)).oneLine
      simp only [List.map_cons, decodeLines, hne, if_false, hdec,
        ih fun e' he' => h e' (List.mem_cons_of_mem _ he')]
      rfl

/-! ## A journal of several lines is not one value

A journal stored at a snapshot's key is read by `Load` as one JSON text; with two
lines or more it is not one value, and `json.Unmarshal` rejects it. -/

/-- The lexemes of a line after the first: a newline before its first token. -/
def lineLexemes : List Token → List Lexeme
  | [] => []
  | t :: ts => (['\n'], t) :: bare ts

theorem render_lineLexemes (v : Value) (tr : List Char) :
    render (lineLexemes v.tokens) tr = '\n' :: render (bare v.tokens) tr := by
  obtain ⟨t, ts, hv, -⟩ := v.tokens_head
  simp [hv, lineLexemes, render]

/-- A journal of encodings, as one rendering: each line after the first starts
with the newline that ends the line before. -/
theorem journalText_render (v : Value) :
    ∀ vs : List Value, journalText ((v :: vs).map fun w => render (bare w.tokens) []) =
      render (bare v.tokens ++ vs.flatMap fun w => lineLexemes w.tokens) ['\n']
  | [] => by simp [render]
  | w :: vs => by
      rw [List.map_cons, journalText_cons, journalText_render w vs, List.flatMap_cons]
      simp only [render, List.flatMap_append, List.append_assoc] at *
      have h := render_lineLexemes w []
      simp only [render, List.append_nil] at h
      rw [h]
      simp

/-- Whitespace between tokens of a lexeme stream: a break before a token, or
tokens that do not run into each other. -/
def Separated (a b : Lexeme) : Prop :=
  b.1 = [] → a.2.clash b.2 = false

theorem bare_separated (v : Value) : (bare v.tokens).Chain' Separated := by
  have h := v.tokens_chain
  unfold bare
  rw [List.chain'_map]
  exact h.imp fun a b hab => show ([] : List Char) = [] → _ from fun _ => hab

theorem lineLexemes_separated (v : Value) : (lineLexemes v.tokens).Chain' Separated := by
  obtain ⟨t, ts, hv, -⟩ := v.tokens_head
  have h := bare_separated v
  rw [hv, bare_cons] at h
  rw [hv, lineLexemes]
  cases ts with
  | nil => exact List.chain'_singleton _
  | cons u us => exact List.Chain'.cons (List.chain'_cons.mp h).1 (List.chain'_cons.mp h).2

theorem lines_head :
    ∀ vs : List Value, ∀ y ∈ (vs.flatMap fun w => lineLexemes w.tokens).head?, y.1 = ['\n']
  | [], _, hy => by cases hy
  | w :: vs, y, hy => by
      obtain ⟨t, ts, hv, -⟩ := w.tokens_head
      simp only [List.flatMap_cons, hv, lineLexemes, List.cons_append, List.head?_cons,
        Option.mem_def, Option.some.injEq] at hy
      rw [← hy]

theorem lines_separated :
    ∀ vs : List Value, (vs.flatMap fun w => lineLexemes w.tokens).Chain' Separated
  | [] => List.chain'_nil
  | w :: vs => by
      rw [List.flatMap_cons]
      refine List.chain'_append.mpr ⟨lineLexemes_separated w, lines_separated vs, fun x _ y hy => ?_⟩
      intro hy'
      rw [lines_head vs y hy] at hy'
      cases hy'

/-- Lines of values with well-formed tokens lex back as written. -/
theorem lines_wellFormed {v : Value} {vs : List Value} (hv : ∀ t ∈ v.tokens, t.valid)
    (hvs : ∀ w ∈ vs, ∀ t ∈ w.tokens, t.valid) :
    WellFormed (bare v.tokens ++ vs.flatMap fun w => lineLexemes w.tokens) ['\n'] where
  ws l hl c hc := by
    simp only [List.mem_append, List.mem_flatMap] at hl
    rcases hl with hl | ⟨w, -, hl⟩
    · simp [bare] at hl
      obtain ⟨t, -, rfl⟩ := hl
      cases hc
    · obtain ⟨t, ts, hw, -⟩ := w.tokens_head
      rw [hw, lineLexemes] at hl
      rcases List.mem_cons.mp hl with rfl | hl
      · rw [List.mem_singleton.mp hc]
        rfl
      · simp [bare] at hl
        obtain ⟨t, -, rfl⟩ := hl
        cases hc
  trail c hc := by rw [List.mem_singleton.mp hc]; rfl
  valid l hl := by
    simp only [List.mem_append, List.mem_flatMap] at hl
    rcases hl with hl | ⟨w, hw, hl⟩
    · simp only [bare, List.mem_map] at hl
      obtain ⟨t, ht, rfl⟩ := hl
      exact hv t ht
    · obtain ⟨t, ts, htk, -⟩ := w.tokens_head
      rw [htk, lineLexemes] at hl
      have hw' := hvs w hw
      rw [htk] at hw'
      rcases List.mem_cons.mp hl with rfl | hl
      · exact hw' _ (List.mem_cons_self _ _)
      · simp only [bare, List.mem_map] at hl
        obtain ⟨u, hu, rfl⟩ := hl
        exact hw' u (List.mem_cons_of_mem _ hu)
  sep := List.chain'_append.mpr ⟨bare_separated v, lines_separated vs, fun x _ y hy hy' => by
    rw [lines_head vs y hy] at hy'
    cases hy'⟩

/-- A value followed by more lexemes is not one value. -/
theorem readValue_trailing {v : Value} {more : List Lexeme} {tr : List Char}
    (hwf : WellFormed (bare v.tokens ++ more) tr) (hmore : more ≠ []) :
    readValue (render (bare v.tokens ++ more) tr) = none := by
  have hp := @parseValue_tokens v (bare v.tokens ++ more).length (bare v.tokens) more
    (bare_map_snd v.tokens) (by simp [bare])
  simp only [readValue, lex_render hwf, parse, hp]
  cases more with
  | nil => exact absurd rfl hmore
  | cons _ _ => rfl

/-- The encoding of a storable entry is the rendering of a value with well-formed tokens. -/
theorem Storable.value {e : JournalEntry} (h : Storable e) :
    ∃ v : Value, (∀ t ∈ v.tokens, t.valid) ∧ encoded e = render (bare v.tokens) [] := by
  obtain ⟨tb, cm, -, hcm, hb⟩ := marshalEntry_ok h.marshalEntry_eq
  exact ⟨_, (e.clean_fields (configMember_clean hcm)).valid, hb⟩

theorem exists_values :
    ∀ es : List JournalEntry, (∀ e ∈ es, Storable e) → ∃ vs : List Value,
      (∀ w ∈ vs, ∀ t ∈ w.tokens, t.valid) ∧ es.map encoded = vs.map fun w => render (bare w.tokens) []
  | [], _ => ⟨[], by simp, rfl⟩
  | e :: es, h => by
      obtain ⟨v, hv, he⟩ := (h e (List.mem_cons_self _ _)).value
      obtain ⟨vs, hvs, hes⟩ := exists_values es fun e' he' => h e' (List.mem_cons_of_mem _ he')
      refine ⟨v :: vs, ?_, by rw [List.map_cons, List.map_cons, he, hes]⟩
      rintro w hw
      rcases List.mem_cons.mp hw with rfl | hw
      · exact hv
      · exact hvs w hw

/-- **A journal of two lines or more does not decode as a config**: it is not one
JSON value. -/
theorem unmarshalConfig_journalText {es : List JournalEntry} (hes : ∀ e ∈ es, Storable e)
    (h2 : 2 ≤ es.length) : unmarshalConfig (journalText (es.map encoded)) = .error .syntaxErr := by
  obtain ⟨vs, hvs, hmap⟩ := exists_values es hes
  have hlen : 2 ≤ vs.length := by
    have := congrArg List.length hmap
    simp only [List.length_map] at this
    omega
  obtain ⟨v, w, ws, rfl⟩ : ∃ v w ws, vs = v :: w :: ws := by
    rcases vs with _ | ⟨v, _ | ⟨w, ws⟩⟩
    · simp at hlen
    · simp at hlen
    · exact ⟨v, w, ws, rfl⟩
  have hwf := lines_wellFormed (hvs v (List.mem_cons_self _ _))
    fun u hu => hvs u (List.mem_cons_of_mem _ hu)
  rw [hmap, journalText_render, unmarshalConfig,
    readValue_trailing hwf (by
      obtain ⟨t, ts, ht, -⟩ := w.tokens_head
      simp [List.flatMap_cons, ht, lineLexemes])]

/-! ## A line `json.Marshal` does not write

`ReadAll` accepts any line that decodes, whether or not `json.Marshal` would have
written it: here, an entry whose operation is written with raw `<`, which
`json.Marshal` escapes as `\u003c`, six bytes for one. -/

theorem validRaw_replicate_lt (k : Nat) : validRaw (List.replicate k '<') = true := by
  induction k with
  | zero => rfl
  | succ k ih =>
      rw [List.replicate_succ, ← List.singleton_append, validRaw_append (by decide)]
      exact ih

theorem formatRFC3339Nano_epoch : (GoTime.mk 0 0).formatRFC3339Nano = "1970-01-01T00:00:00Z".data :=
  rfl

/-- The members of a journal line of `cfg` at version 1 whose `op` is the literal
body `raw`, as written, not as `json.Marshal` would escape it. -/
def rawOpMembers (id cs : String) (raw : List Char) : List (List Char × Value) :=
  [("id".data, stringValue id), ("v".data, .num (decimal (1 : UInt64).toNat)),
    ("cs".data, stringValue cs), ("t".data, .str "1970-01-01T00:00:00Z".data),
    ("op".data, .str raw)]

theorem rawOp_tokens (id cs : String) (raw : List Char) :
    (Value.object (rawOpMembers id cs raw)).tokens =
      [.beginObject, .str "id".data, .colon, .str (escape id.data), .comma, .str "v".data, .colon,
        .num (decimal (1 : UInt64).toNat), .comma, .str "cs".data, .colon, .str (escape cs.data),
        .comma, .str "t".data, .colon, .str "1970-01-01T00:00:00Z".data, .comma, .str "op".data,
        .colon] ++ [.str raw, .endObject] := by
  simp [rawOpMembers, Value.tokens, Value.tokens.membersTail, stringValue]

theorem rawOp_valid (id cs : String) {raw : List Char} (hv : validRaw raw) :
    ∀ t ∈ (Value.object (rawOpMembers id cs raw)).tokens, t.valid := by
  have hA : ∀ t ∈ [Token.beginObject, .str "id".data, .colon, .str (escape id.data), .comma,
      .str "v".data, .colon, .num (decimal (1 : UInt64).toNat), .comma, .str "cs".data, .colon,
      .str (escape cs.data), .comma, .str "t".data, .colon, .str "1970-01-01T00:00:00Z".data, .comma,
      .str "op".data, .colon], t.valid := by
    have hi := validRaw_escape id.data
    have hc := validRaw_escape cs.data
    simp only [List.mem_cons, List.not_mem_nil, or_false]
    rintro t (rfl | rfl | rfl | rfl | rfl | rfl | rfl | rfl | rfl | rfl | rfl | rfl | rfl | rfl | rfl |
      rfl | rfl | rfl | rfl) <;> first | exact hi | exact hc | rfl
  rw [rawOp_tokens]
  intro t ht
  rcases List.mem_append.mp ht with ht | ht
  · exact hA t ht
  · rcases List.mem_cons.mp ht with rfl | ht
    · exact hv
    · rw [List.mem_singleton.mp ht]; rfl

theorem unmarshalEntry_rawOp (id cs : String) {raw : List Char} (hv : validRaw raw)
    (hu : unquote raw = raw) :
    unmarshalEntry (render (bare (Value.object (rawOpMembers id cs raw)).tokens) []) =
      .ok ⟨id, 1, cs, "", ⟨0, 0⟩, String.mk raw, none⟩ := by
  have hvalid := rawOp_valid id cs hv
  rw [unmarshalEntry, readValue_render (bare_map_snd _) (bare_ws _) hvalid (by simp)]
  dsimp only
  rw [decodeStruct_object]
  have li : lookup entryFields (unquote "id".data) = some ⟨"id", storeString fun s e => { e with id := s }⟩ := rfl
  have lv : lookup entryFields (unquote "v".data) =
      some ⟨"v", storeUint64 fun n e => { e with version := n }⟩ := rfl
  have lc : lookup entryFields (unquote "cs".data) = some ⟨"cs", storeString fun s e => { e with cs := s }⟩ := rfl
  have lt : lookup entryFields (unquote "t".data) = some ⟨"t", storeTime fun t e => { e with time := t }⟩ := rfl
  have lo : lookup entryFields (unquote "op".data) =
      some ⟨"op", storeString fun s e => { e with operation := s }⟩ := rfl
  have st := storeTime_formatted (fun t (e : JournalEntry) => { e with time := t })
    GoTime.marshalJSON_unixEpoch rfl
  rw [formatRFC3339Nano_epoch] at st
  have so : ∀ ctx (a : JournalEntry), storeString (fun s e => { e with operation := s }) ctx (bare [.str raw]) a =
      .ok ({ a with operation := String.mk raw }, none) := by
    intro ctx a
    simp [storeString, bare, isNull, hu]
  simp only [rawOpMembers, List.map_cons, List.map_nil, stringValue, Value.tokens, decodeMembers, li, lv,
    lc, lt, lo, storeUint64_decimal, st, storeString_escape, so, Option.orElse, Decoded.result,
    JournalEntry.zero]

theorem rawOp_line (id cs : String) (raw : List Char) :
    render (bare (Value.object (rawOpMembers id cs raw)).tokens) [] =
      ([Token.beginObject, .str "id".data, .colon, .str (escape id.data), .comma, .str "v".data, .colon,
        .num (decimal (1 : UInt64).toNat), .comma, .str "cs".data, .colon, .str (escape cs.data),
        .comma, .str "t".data, .colon, .str "1970-01-01T00:00:00Z".data, .comma, .str "op".data,
        .colon].flatMap Token.text) ++ ('"' :: raw ++ ['"']) ++ ['}'] := by
  rw [render_bare, rawOp_tokens]
  simp [Token.text]

theorem rawOp_line_ne_nil (id cs : String) (raw : List Char) :
    render (bare (Value.object (rawOpMembers id cs raw)).tokens) [] ≠ [] := by
  rw [rawOp_line]
  simp

/-- The entry of `cfg` whose operation is eleven thousand `<`. -/
theorem rawOp_byteLength (id cs : String) (raw : List Char) :
    byteLength (render (bare (Value.object (rawOpMembers id cs raw)).tokens) []) =
      byteLength ([Token.beginObject, .str "id".data, .colon, .str (escape id.data), .comma,
        .str "v".data, .colon, .num (decimal (1 : UInt64).toNat), .comma, .str "cs".data, .colon,
        .str (escape cs.data), .comma, .str "t".data, .colon, .str "1970-01-01T00:00:00Z".data,
        .comma, .str "op".data, .colon].flatMap Token.text) + byteLength raw + 3 := by
  rw [rawOp_line, byteLength_append, byteLength_append, byteLength_append, byteLength_cons]
  have h1 : byteLength ['"'] = 1 := rfl
  have h2 : byteLength ['}'] = 1 := rfl
  have h3 : '"'.utf8Size = 1 := rfl
  omega

theorem byteLength_escape_replicate (k : Nat) (c : Char) :
    byteLength (escape (List.replicate k c)) = k * byteLength (escapeChar c) := by
  induction k with
  | zero => simp [escape, byteLength]
  | succ k ih =>
      rw [List.replicate_succ, escape, List.flatMap_cons, ← escape, byteLength_append, ih, Nat.succ_mul]
      omega

/-- What `json.Marshal` writes for an entry of `cfg` at version 1 with no
predecessor and no config, at the Unix epoch: the members of the raw line, with
the operation escaped. -/
theorem fields_epoch (id cs : String) (op : String) :
    (⟨id, 1, cs, "", ⟨0, 0⟩, op, none⟩ : JournalEntry).fields [] = rawOpMembers id cs (escape op.data) := by
  unfold JournalEntry.fields omitEmpty rawOpMembers stringValue
  rw [if_pos rfl, formatRFC3339Nano_epoch]
  rfl

theorem marshalEntry_epoch (id cs : String) (op : String) :
    marshalEntry ⟨id, 1, cs, "", ⟨0, 0⟩, op, none⟩ =
      .ok (render (bare (Value.object (rawOpMembers id cs (escape op.data))).tokens) []) := by
  rw [← fields_epoch]
  exact marshalEntry_eq_render GoTime.marshalJSON_unixEpoch rfl

/-- A line of `cfg` whose operation is `k` raw `<`: short enough for the scanner
while `k` is below 65 000, and written back by `json.Marshal` with each `<` as
`\u003c`, six bytes, too long for it once `k` reaches 11 000. -/
theorem rawOp_lt_facts {k : Nat} (hk : 11000 ≤ k) (hk' : k ≤ 65000) :
    OneLine (render (bare (Value.object (rawOpMembers "cfg" "cs" (List.replicate k '<'))).tokens) []) ∧
      unmarshalEntry (render (bare (Value.object (rawOpMembers "cfg" "cs" (List.replicate k '<'))).tokens) []) =
        .ok ⟨"cfg", 1, "cs", "", ⟨0, 0⟩, String.mk (List.replicate k '<'), none⟩ ∧
      ∃ b, marshalEntry ⟨"cfg", 1, "cs", "", ⟨0, 0⟩, String.mk (List.replicate k '<'), none⟩ = .ok b ∧
        '\n' ∉ b ∧ maxScanTokenSize ≤ byteLength b := by
  have hv := validRaw_replicate_lt k
  have hu : unquote (List.replicate k '<') = List.replicate k '<' :=
    unquote_plain fun c hc => by rw [List.eq_of_mem_replicate hc]; decide
  have hpre : byteLength ([Token.beginObject, .str "id".data, .colon, .str (escape "cfg".data), .comma,
      .str "v".data, .colon, .num (decimal (1 : UInt64).toNat), .comma, .str "cs".data, .colon,
      .str (escape "cs".data), .comma, .str "t".data, .colon, .str "1970-01-01T00:00:00Z".data,
      .comma, .str "op".data, .colon].flatMap Token.text) = 60 := by decide
  have hctl := render_bare_toNat (rawOp_valid "cfg" "cs" hv)
  have hlt : '<'.utf8Size = 1 := rfl
  have hesc : byteLength (escapeChar '<') = 6 := rfl
  refine ⟨⟨fun hn => absurd (hctl _ hn) (by decide), fun hr => ?_, ?_⟩,
    unmarshalEntry_rawOp _ _ hv hu, _, marshalEntry_epoch _ _ _, fun hn => ?_, ?_⟩
  · exact absurd (hctl _ (List.mem_of_getLast?_eq_some hr)) (by decide)
  · rw [rawOp_byteLength, hpre, byteLength_replicate, hlt, maxScanTokenSize]
    omega
  · exact absurd (render_bare_toNat (rawOp_valid "cfg" "cs" (validRaw_escape _)) _ hn)
      (by decide)
  · rw [rawOp_byteLength, hpre, byteLength_escape_replicate, hesc, maxScanTokenSize]
    omega

section Operations

variable {σ : Type} (st : Storage σ) (path : String)

/-! ## `Append` -/

/-- What `Append` reads: the journal's text, or nothing when the read fails. -/
def existingOf : Except String String → List Char
  | .ok d => d.data
  | .error _ => []

/-- The text `Append` writes: the journal read, a newline if it does not end
with one, the entry's encoding and a newline. -/
def appendData (existing data : List Char) : List Char :=
  (if existing ≠ [] ∧ hasSuffix (String.mk existing) "\n" = false then existing ++ ['\n']
    else existing) ++ data ++ ['\n']

/-- `Journal.Append`. -/
def append (s : σ) (entry : JournalEntry) : Except String σ := do
  let data ← marshalEntry entry
  let existing := existingOf (st.read s path)
  st.write s path (String.mk (appendData existing data))

/-- The first storage step of `Append`: encode the entry and read the journal. -/
def appendRead (s : σ) (entry : JournalEntry) : Except String (List Char × List Char) := do
  let data ← marshalEntry entry
  pure (data, existingOf (st.read s path))

/-- The second storage step of `Append`: write what the first step read, with
the entry's line after it. -/
def appendWrite (s : σ) (p : List Char × List Char) : Except String σ :=
  st.write s path (String.mk (appendData p.2 p.1))

/-- `Append` of each entry in turn. -/
def appendAll (s : σ) : List JournalEntry → Except String σ
  | [] => .ok s
  | e :: es => do
      let s' ← append st path s e
      appendAll s' es

/-- Under its mutex, `Append` is its read step followed by its write step, on
the same state. -/
theorem append_eq_read_write (s : σ) (entry : JournalEntry) :
    append st path s entry = appendRead st path s entry >>= appendWrite st path s := by
  simp only [append, appendRead, appendWrite]
  cases marshalEntry entry <;> rfl

theorem appendData_journalText (ls : List (List Char)) (data : List Char) :
    appendData (journalText ls) data = journalText (ls ++ [data]) := by
  have hend : journalText ls = [] ∨ hasSuffix (String.mk (journalText ls)) "\n" = true := by
    rcases List.eq_nil_or_concat ls with rfl | ⟨L, b, rfl⟩
    · exact .inl rfl
    · right
      simp [journalText_append, hasSuffix, List.isPrefixOf]
  rw [appendData, if_neg (by rcases hend with h | h <;> simp [h]), journalText_append]
  simp

/-! ## `ReadAll` and `FindByID` -/

/-- `Journal.ReadAll`. -/
def readAll (s : σ) : Except String (List JournalEntry) :=
  match st.read s path with
  | .error e => if isAbsent e then .ok [] else .error e
  | .ok data => do
      let scan := scanLines data.data
      let entries ← decodeLines scan.1
      match scan.2 with
      | none => pure entries
      | some e => .error e

/-- `Journal.FindByID`: the entries of one configuration, in journal order. -/
def findByID (s : σ) (id : String) : Except String (List JournalEntry) := do
  let all ← readAll st path s
  pure (all.filter fun e => e.id = id)

/-! ## `JournalReader` -/

/-- A `JournalReader`: the offset of the next line in the journal. -/
structure JournalReader where
  offset : Nat
deriving DecidableEq, Repr

/-- `JournalReader.Next`: the reader after the call, and the entry or the error. -/
def JournalReader.next (s : σ) (r : JournalReader) : JournalReader × Except String JournalEntry :=
  match st.read s path with
  | .error e => (r, .error e)
  | .ok data =>
      if data.length ≤ r.offset then (r, .error eof)
      else
        match (scanLines (data.data.drop r.offset)).1 with
        | [] => (r, .error eof)
        | line :: _ =>
            (⟨r.offset + line.length + 1⟩,
              match unmarshalEntry line with
              | .ok entry => .ok entry
              | .error e => .error e.text)

/-- The answers of `n` calls of `Next`. -/
def JournalReader.nexts (s : σ) : Nat → JournalReader → List (Except String JournalEntry)
  | 0, _ => []
  | n + 1, r =>
      let step := r.next st path s
      step.2 :: JournalReader.nexts s n step.1

/-! ## Appending to a journal and reading it back -/

section Lawful

variable {st : Storage σ} {path : String}

theorem append_spec (hst : st.Lawful) {s : σ} {e : JournalEntry} {b : List Char}
    (h : marshalEntry e = .ok b) :
    ∃ s', append st path s e = .ok s' ∧
      st.read s' path = .ok (String.mk (appendData (existingOf (st.read s path)) b)) := by
  obtain ⟨s', hs'⟩ := hst.write_ok s path (String.mk (appendData (existingOf (st.read s path)) b))
  exact ⟨s', by simp [append, h, hs'], hst.read_write _ _ _ _ hs'⟩

/-- A successful `Append` is one write of the journal. -/
theorem append_eq_ok {s s' : σ} {e : JournalEntry} (h : append st path s e = .ok s') :
    ∃ data, st.write s path data = .ok s' := by
  obtain ⟨_, -, h⟩ := except_bind_eq_ok.mp h
  exact ⟨_, h⟩

/-- Appending entries to a journal of lines adds one line per entry. -/
theorem appendAll_journalText (hst : st.Lawful) :
    ∀ (es : List JournalEntry) (e : JournalEntry) (s : σ) (ls : List (List Char)),
      existingOf (st.read s path) = journalText ls → (∀ x ∈ e :: es, Storable x) →
      ∃ s', appendAll st path s (e :: es) = .ok s' ∧
        st.read s' path = .ok (String.mk (journalText (ls ++ (e :: es).map encoded)))
  | es, e, s, ls, hs, hes => by
      obtain ⟨s1, hs1, hr1⟩ :=
        @append_spec _ st path hst s _ _ (hes e (List.mem_cons_self _ _)).marshalEntry_eq
      rw [hs, appendData_journalText] at hr1
      match es with
      | [] => exact ⟨s1, by simp [appendAll, hs1], hr1⟩
      | e' :: es' =>
          obtain ⟨s', hs', hr'⟩ := appendAll_journalText hst es' e' s1 (ls ++ [encoded e])
            (by rw [hr1]; rfl) fun x hx => hes x (List.mem_cons_of_mem _ hx)
          refine ⟨s', by simp [appendAll, hs1, ← hs', appendAll], ?_⟩
          simpa using hr'

/-- The answers of `Next` once the reader is at the end of the journal. -/
theorem nexts_end {s : σ} {data : String} (hs : st.read s path = .ok data) {r : JournalReader}
    (hr : data.length ≤ r.offset) :
    ∀ k, JournalReader.nexts st path s k r = List.replicate k (.error eof)
  | 0 => rfl
  | k + 1 => by
      simp [JournalReader.nexts, JournalReader.next, hs, hr, nexts_end hs hr k,
        List.replicate_succ]

/-- A reader at the start of a line of the journal answers that line's entry
and each later one, then `io.EOF`. -/
theorem nexts_journalText {s : σ} (pre : List (List Char)) :
    ∀ rest : List JournalEntry, (∀ e ∈ rest, Storable e) →
      st.read s path = .ok (String.mk (journalText (pre ++ rest.map encoded))) → ∀ k,
      JournalReader.nexts st path s (rest.length + 1 + k) ⟨(journalText pre).length⟩ =
        rest.map (fun e => .ok e.reread) ++ List.replicate (k + 1) (.error eof)
  | [], _, hs, k => by
      simpa [Nat.add_comm] using nexts_end hs (by simp [String.length]) (k + 1)
  | e :: rest, hes, hs, k => by
      obtain ⟨hline, -, hdec⟩ := (hes e (List.mem_cons_self _ _)).oneLine
      have hrest : ∀ x ∈ rest, Storable x := fun x hx => hes x (List.mem_cons_of_mem _ hx)
      rw [List.map_cons] at hs
      have hdrop : (String.mk (journalText (pre ++ encoded e :: rest.map encoded))).data.drop
          (journalText pre).length = journalText (encoded e :: rest.map encoded) := by
        simp [journalText_append]
      have hscan := @scanLines_journalText (encoded e :: rest.map encoded) (by
        simpa using ⟨hline, fun x hx => (hrest x hx).oneLine.1⟩)
      have hlen : ¬(String.mk (journalText (pre ++ encoded e :: rest.map encoded))).length ≤
          (journalText pre).length := by
        simp [String.length, journalText_append]
      have hoff : (journalText pre).length + (encoded e).length + 1 =
          (journalText (pre ++ [encoded e])).length := by
        simp [journalText_append]; omega
      have ih := nexts_journalText (pre ++ [encoded e]) rest hrest (by simpa using hs) k
      rw [show (e :: rest).length + 1 + k = (rest.length + 1 + k) + 1 by simp; omega]
      simp only [JournalReader.nexts, JournalReader.next, hs, hlen, if_false, hdrop, hscan, hdec,
        hoff, ih, List.map_cons]
      rfl

end Lawful

end Operations

/-! ## Two journals on one path -/

/-- **A lost append.**  Two `Journal` instances on one path of a
`MemoryStorage` both read the journal before either writes: both appends
succeed, and the journal ends as if only the second had been made. -/
theorem interleaved_appends_lose_first (ms : MemoryStorage) (path : String)
    (a b : JournalEntry) :
    (do
      let pa ← appendRead MemoryStorage.storage path ms a
      let pb ← appendRead MemoryStorage.storage path ms b
      let ms' ← appendWrite MemoryStorage.storage path ms pa
      appendWrite MemoryStorage.storage path ms' pb) =
    (do
      let _ ← marshalEntry a
      append MemoryStorage.storage path ms b) := by
  cases ha : marshalEntry a <;> cases hb : marshalEntry b <;>
    simp [appendRead, appendWrite, append, ha, hb, MemoryStorage.storage,
      MemoryStorage.write_write]

/-! ## Reading back an absent journal and appended entries -/

/-- With no journal yet in a `MemoryStorage`, `ReadAll` fails with the error of
the missing key, which does not contain `no such file`, and a fresh
`JournalReader` answers that error and not `io.EOF`. -/
theorem readAll_absent_memoryStorage :
    readAll MemoryStorage.storage "journal.jsonl" MemoryStorage.empty = .error errNotExist ∧
      (JournalReader.mk 0).next MemoryStorage.storage "journal.jsonl" MemoryStorage.empty =
        (⟨0⟩, .error errNotExist) := by
  constructor <;> rfl

/-- A journal holding the lines of storable entries is read back as them. -/
theorem readAll_of_read {σ : Type} {st : Storage σ} {path : String} {s : σ}
    {es : List JournalEntry} (hes : ∀ e ∈ es, Storable e)
    (hr : st.read s path = .ok (String.mk (journalText (es.map encoded)))) :
    readAll st path s = .ok (es.map JournalEntry.reread) := by
  have hscan := @scanLines_journalText (es.map encoded) (by
    simpa using fun x hx => (hes x hx).oneLine.1)
  simp only [readAll, hr, hscan, decodeLines_encoded hes]
  rfl

/-- A line the scanner cannot hold stops `ReadAll` with `ErrTooLong`. -/
theorem readAll_too_long {σ : Type} {st : Storage σ} {path : String} {s : σ} {l : List Char}
    (hn : '\n' ∉ l) (hlong : maxScanTokenSize ≤ byteLength l)
    (hr : st.read s path = .ok (String.mk (journalText [l]))) :
    readAll st path s = .error errTooLong := by
  have hscan : scanLines (journalText [l]) = ([], some errTooLong) := by
    rw [scanLines, splitOn_journalText (by simpa using hn)]
    simp [scanPieces, hlong]
  simp only [readAll, hr, hscan]
  rfl


/-- A journal of one line that decodes is read as that entry. -/
theorem readAll_one_line {σ : Type} {st : Storage σ} {path : String} {s : σ} {l : List Char}
    {e : JournalEntry} (hl : OneLine l) (hne : l ≠ []) (hdec : unmarshalEntry l = .ok e)
    (hr : st.read s path = .ok (String.mk (journalText [l]))) : readAll st path s = .ok [e] := by
  have hscan := @scanLines_journalText [l] fun l' hl' => by rw [List.mem_singleton.mp hl']; exact hl
  simp only [readAll, hr, hscan, decodeLines, if_neg hne, hdec]
  rfl

/-- **Appended entries are read back.**  Starting from an absent or empty
journal in a lawful storage, after appending one or more storable entries,
`ReadAll` returns them in order, each with its config reread, and a fresh
`JournalReader` answers the same entries and then `io.EOF` on every later call. -/
theorem readAll_appendAll {σ : Type} {st : Storage σ} (hst : st.Lawful) {path : String} {s : σ}
    (h0 : existingOf (st.read s path) = []) {es : List JournalEntry} (hne : es ≠ [])
    (hes : ∀ e ∈ es, Storable e) :
    ∃ s', appendAll st path s es = .ok s' ∧
      readAll st path s' = .ok (es.map JournalEntry.reread) ∧
      ∀ k, JournalReader.nexts st path s' (es.length + 1 + k) ⟨0⟩ =
        es.map (fun e => .ok e.reread) ++ List.replicate (k + 1) (.error eof) := by
  obtain ⟨e, es', rfl⟩ := List.exists_cons_of_ne_nil hne
  obtain ⟨s', hs', hr⟩ := appendAll_journalText hst es' e s [] h0 hes
  rw [List.nil_append] at hr
  refine ⟨s', hs', ?_, fun k => by simpa using nexts_journalText [] (e :: es') hes (by simpa using hr) k⟩
  have hscan := @scanLines_journalText ((e :: es').map encoded) (by
    simpa using fun x hx => (hes x hx).oneLine.1)
  simp only [readAll, hr, hscan, decodeLines_encoded hes]
  rfl

/-! ## A journal of storable entries -/

/-- The journal at `path` holds the lines of `es`, storable entries each read back
as it is; or there is no journal, and `es` is empty. -/
structure Journaled {σ : Type} (st : Storage σ) (path : String) (s : σ)
    (es : List JournalEntry) : Prop where
  text : st.read s path = .ok (String.mk (journalText (es.map encoded))) ∨
    es = [] ∧ ∃ e, st.read s path = .error e ∧ isAbsent e = true
  storable : ∀ e ∈ es, Storable e
  reread : ∀ e ∈ es, e.reread = e

namespace Journaled

variable {σ : Type} {st : Storage σ} {path : String} {s s' : σ} {es : List JournalEntry}

theorem readAll_eq (h : Journaled st path s es) : readAll st path s = .ok es := by
  rcases h.text with hr | ⟨rfl, e, hr, ha⟩
  · rw [readAll_of_read h.storable hr, List.map_congr_left h.reread, List.map_id']
  · simp [readAll, hr, ha]

theorem findByID_eq (h : Journaled st path s es) (id : String) :
    findByID st path s id = .ok (es.filter fun e => e.id = id) := by
  simp only [findByID, h.readAll_eq, except_ok_bind, except_pure]

/-- The journal stays as it is wherever its key reads the same. -/
theorem of_read_eq (h : Journaled st path s es) (hr : st.read s' path = st.read s path) :
    Journaled st path s' es :=
  ⟨hr ▸ h.text, h.storable, h.reread⟩

theorem existingOf_eq (h : Journaled st path s es) :
    existingOf (st.read s path) = journalText (es.map encoded) := by
  rcases h.text with hr | ⟨rfl, e, hr, -⟩ <;> simp [hr, existingOf]

/-- An `Append` after a read that `Append` takes for the lines of storable
entries `es` (the journal, or no text at all) leaves the journal of `es` and the
entry as it reads back. -/
theorem of_append (hst : st.Lawful) (hx : existingOf (st.read s path) = journalText (es.map encoded))
    (hs : ∀ e ∈ es, Storable e) (hr : ∀ e ∈ es, e.reread = e) {e : JournalEntry} (he : Storable e)
    (ha : append st path s e = .ok s') : Journaled st path s' (es ++ [e.reread]) := by
  obtain ⟨s'', ha', hw⟩ := @append_spec _ st path hst s _ _ he.marshalEntry_eq
  rw [ha] at ha'
  cases ha'
  rw [hx, appendData_journalText] at hw
  obtain ⟨hst', hre⟩ := he.reread
  refine ⟨.inl ?_, ?_, ?_⟩
  · rw [hw, List.map_append, List.map_singleton, encoded_reread he]
  · exact fun x hx => (List.mem_append.mp hx).elim (hs x)
      fun hx => List.mem_singleton.mp hx ▸ hst'
  · exact fun x hx => (List.mem_append.mp hx).elim (hr x)
      fun hx => List.mem_singleton.mp hx ▸ hre

/-- **An `Append` adds one line**: the journal then holds the entry as it reads back. -/
theorem snoc (hst : st.Lawful) (h : Journaled st path s es) {e : JournalEntry} (he : Storable e)
    (ha : append st path s e = .ok s') : Journaled st path s' (es ++ [e.reread]) :=
  of_append hst h.existingOf_eq h.storable h.reread he ha

end Journaled

/-! ## A journal that cannot be read -/

/-- **An append that drops the journal.**  When reading the journal fails with
any error, `Append` goes on as if the journal were empty and writes the entry's
line over whatever the journal held. -/
theorem append_overwrites_on_read_error (ms : MemoryStorage) (path err : String)
    {e : JournalEntry} {b : List Char} (hb : marshalEntry e = .ok b) :
    append (MemoryStorage.failingReads err) path ms e = .ok (ms.write path (String.mk (b ++ ['\n']))) := by
  simp [append, hb, MemoryStorage.failingReads, MemoryStorage.storage, existingOf, appendData]

/-- A create entry without a config, stamped at the Unix epoch, is storable. -/
theorem storable_epoch_entry : Storable ⟨"cfg", 1, "cs", "", ⟨0, 0⟩, "create", none⟩ := by
  have hm := marshalEntry_eq_render (e := ⟨"cfg", 1, "cs", "", ⟨0, 0⟩, "create", none⟩)
    GoTime.marshalJSON_unixEpoch rfl
  refine ⟨⟨_, hm⟩, ?_, by decide, by simp⟩
  unfold encoded
  rw [hm]
  decide

theorem readAll_appendAll_epoch_entry :
    ∃ s', appendAll MemoryStorage.storage "journal.jsonl" MemoryStorage.empty
        [⟨"cfg", 1, "cs", "", ⟨0, 0⟩, "create", none⟩] = .ok s' ∧
      readAll MemoryStorage.storage "journal.jsonl" s' =
        .ok ([⟨"cfg", 1, "cs", "", ⟨0, 0⟩, "create", none⟩].map JournalEntry.reread) ∧
      ∀ k, JournalReader.nexts MemoryStorage.storage "journal.jsonl" s' (1 + 1 + k) ⟨0⟩ =
        [(⟨"cfg", 1, "cs", "", ⟨0, 0⟩, "create", none⟩ : JournalEntry)].map
          (fun e => .ok e.reread) ++ List.replicate (k + 1) (.error eof) :=
  readAll_appendAll MemoryStorage.lawful
    (rfl : existingOf (MemoryStorage.storage.read MemoryStorage.empty "journal.jsonl") = [])
    (List.cons_ne_nil _ _) (by simpa using storable_epoch_entry)

theorem append_overwrites_epoch_entry :
    ∃ b, marshalEntry ⟨"cfg", 1, "cs", "", ⟨0, 0⟩, "create", none⟩ = .ok b ∧
      append (MemoryStorage.failingReads "input/output error") "journal.jsonl"
          (MemoryStorage.empty.write "journal.jsonl" "old line\n") ⟨"cfg", 1, "cs", "", ⟨0, 0⟩, "create", none⟩ =
        .ok ((MemoryStorage.empty.write "journal.jsonl" "old line\n").write "journal.jsonl"
          (String.mk (b ++ ['\n']))) :=
  ⟨_, storable_epoch_entry.marshalEntry_eq,
    append_overwrites_on_read_error _ _ _ storable_epoch_entry.marshalEntry_eq⟩

end Journal
end Viracochan
