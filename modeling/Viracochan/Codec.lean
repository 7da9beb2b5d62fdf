import Viracochan.Json.Decode
import Viracochan.Time.Parse
import Viracochan.Journal.Entry

/-!
# Viracochan: the JSON forms of configurations and journal entries

`json.Marshal` and `json.Unmarshal` on `Config` (through its `MarshalJSON` and
`UnmarshalJSON`, which go through a method-free `alias` type) and on
`JournalEntry`, as the library calls them.

**Encoding.** A struct is written as an object of its fields in declaration
order, `omitempty` fields left out when empty.  Strings are escaped by
`appendString` with HTML escaping, a `uint64` in decimal.  The output of a
`Marshaler` (`time.Time`, `json.RawMessage`, `*Config`) is checked and
compacted (`marshalWith`); an error of `MarshalJSON` is wrapped.  A nil
`json.RawMessage` is `null`.

**Decoding.** `decodeStruct` with one `StructField` per struct field.  A `uint64`
takes a number that `ParseUint` accepts, a `string` a string literal; a
`time.Time` is handed the text of its value (`GoTime.unmarshalJSON`), a
`json.RawMessage` keeps that text as it is, and a `*Config` is set to `nil`
by `null` and otherwise decoded by `Config.unmarshalJSON`.

**Results.**
* `unmarshalConfig_marshalConfig`: a configuration that `json.Marshal`
  writes reads back with the same `Meta` when its time's zone offset is whole
  minutes; its content reads back as the compacted text that was written.
* `unmarshalConfig_indent`: the indented encoding (`json.MarshalIndent`)
  reads back with the same `Meta`, its content being the text the indented
  encoding holds for it.
* `unmarshalEntry_marshalEntry`: the same as the first for journal entries.
-/

namespace Viracochan

open Json

/-! ## Computations that can fail -/

section Except

variable {ε α β : Type}

@[simp] theorem except_ok_bind (a : α) (f : α → Except ε β) : (Except.ok a >>= f) = f a := rfl

@[simp] theorem except_error_bind (e : ε) (f : α → Except ε β) :
    (Except.error e >>= f) = .error e := rfl

@[simp] theorem except_pure (a : α) : (pure a : Except ε α) = .ok a := rfl

/-- A step that succeeded: its first part succeeded, and so did the rest. -/
theorem except_pure_eq_ok {a b : α} (h : (pure a : Except ε α) = .ok b) : a = b :=
  Except.ok.inj h

theorem except_bind_eq_ok {x : Except ε α} {f : α → Except ε β} {b : β} :
    x >>= f = .ok b ↔ ∃ a, x = .ok a ∧ f a = .ok b := by
  cases x <;> simp

end Except

/-! ## Encoding -/

/-- The error `json.Marshal` reports for a failing `Marshaler`. -/
def marshalerError (type err : String) : String :=
  "json: error calling MarshalJSON for type " ++ type ++ ": " ++ err

/-- The value a `Marshaler` of Go type `type` contributes: its output, which
must be one JSON value, compacted with HTML escaping. -/
def marshalWith (type : String) : Except String (List Char) → Except String Value
  | .error e => .error (marshalerError type e)
  | .ok b =>
      match readValue b with
      | some (_, v) => .ok v.html
      | none => .error (marshalerError type syntaxError)

/-- `json.RawMessage.MarshalJSON`: `null` for a nil slice, else the bytes. -/
def rawMessageJSON : Option String → Except String (List Char)
  | none => .ok "null".data
  | some s => .ok s.data

/-- A string field: `appendString` with HTML escaping. -/
def stringValue (s : String) : Value :=
  .str (escape s.data)

/-- An `omitempty` string field: left out when empty. -/
def omitEmpty (name : String) (s : String) : List (List Char × Value) :=
  if s = "" then [] else [(name.data, stringValue s)]

/-- The fields of `Meta`: `v`, `t`, `prev_cs` (omitted when empty), `cs`,
`sig` (omitted when empty). -/
def Meta.toValue (m : Meta) : Except String Value := do
  let t ← marshalWith "time.Time" m.time.marshalJSON
  pure (.object ([("v".data, .num (decimal m.version.toNat)), ("t".data, t)] ++
    omitEmpty "prev_cs" m.prevCS ++ [("cs".data, stringValue m.cs)] ++ omitEmpty "sig" m.signature))

/-- The fields of the `alias` of `Config`: `_meta` and `content`. -/
def Config.toValue (c : Config) : Except String Value := do
  let m ← c.meta.toValue
  let content ← marshalWith "json.RawMessage" (rawMessageJSON c.content)
  pure (.object [("_meta".data, m), ("content".data, content)])

/-- `(*Config).MarshalJSON`: `json.Marshal` of the `alias` of the config. -/
def Config.marshalJSON (c : Config) : Except String (List Char) := do
  let v ← c.toValue
  pure (render (bare v.tokens) [])

/-- `json.Marshal(cfg)` for a `*Config`. -/
def marshalConfig (c : Config) : Except String (List Char) := do
  let v ← marshalWith "*viracochan.Config" c.marshalJSON
  pure (render (bare v.tokens) [])

/-- The `config` member of an entry: a `*Config`, left out when nil. -/
def configMember : Option Config → Except String (List (List Char × Value))
  | none => .ok []
  | some c => do
      let v ← marshalWith "*viracochan.Config" c.marshalJSON
      pure [("config".data, v)]

/-- The fields of `JournalEntry`: `id`, `v`, `cs`, `prev_cs` (omitted when
empty), `t`, `op`, `config` (omitted when nil). -/
def JournalEntry.toValue (e : JournalEntry) : Except String Value := do
  let t ← marshalWith "time.Time" e.time.marshalJSON
  let config ← configMember e.config
  pure (.object ([("id".data, stringValue e.id), ("v".data, .num (decimal e.version.toNat)),
    ("cs".data, stringValue e.cs)] ++ omitEmpty "prev_cs" e.prevCS ++
    [("t".data, t), ("op".data, stringValue e.operation)] ++ config))

/-- `json.Marshal(entry)` for a `*JournalEntry`. -/
def marshalEntry (e : JournalEntry) : Except String (List Char) := do
  let v ← e.toValue
  pure (render (bare v.tokens) [])

/-- `json.MarshalIndent(cfg, "", "  ")`: the encoding, indented. -/
def marshalIndentConfig (c : Config) : Except String (List Char) := do
  let b ← marshalConfig c
  match readValue b with
  | some (ls, _) => pure (indent (ls.map Prod.snd))
  | none => .error syntaxError

/-! ## Writing a time -/

/-- A character of an `RFC3339Nano` text. -/
def timeChar (c : Char) : Prop :=
  c.isDigit = true ∨ c = '-' ∨ c = 'T' ∨ c = ':' ∨ c = '.' ∨ c = 'Z' ∨ c = '+'

theorem appendInt_timeChar (x : Int) (w : Nat) : ∀ c ∈ appendInt x w, timeChar c := by
  intro c hc
  simp only [appendInt, List.mem_append] at hc
  rcases hc with (hc | hc) | hc
  · split at hc <;> simp_all [timeChar]
  · rw [List.eq_of_mem_replicate hc]; left; rfl
  · exact .inl (decimal_isDigit _ c hc)

theorem formatRFC3339Nano_timeChar (t : GoTime) : ∀ c ∈ t.formatRFC3339Nano, timeChar c := by
  have hnano : ∀ c ∈ GoTime.appendNano t.nanosecond, timeChar c := by
    intro c hc
    unfold GoTime.appendNano at hc
    split at hc
    · simp at hc
    · rcases List.mem_cons.mp hc with rfl | hc
      · simp [timeChar]
      · exact appendInt_timeChar _ _ c (List.mem_reverse.mp
          ((List.dropWhile_sublist _).subset (List.mem_reverse.mp hc)))
  have hzone : ∀ c ∈ GoTime.appendZone t.offset, timeChar c := by
    unfold GoTime.appendZone
    split
    · simp [timeChar]
    · simp only [List.forall_mem_append, List.forall_mem_cons]
      refine ⟨⟨?_, appendInt_timeChar _ _⟩, by simp [timeChar], appendInt_timeChar _ _⟩
      split <;> simp [timeChar]
  simp only [GoTime.formatRFC3339Nano, List.forall_mem_append, List.forall_mem_cons]
  repeat' apply And.intro
  all_goals first
    | exact appendInt_timeChar _ _
    | exact hnano
    | exact hzone
    | simp [timeChar]

theorem escapeChar_timeChar {c : Char} (h : timeChar c) : escapeChar c = [c] := by
  rcases h with h | rfl | rfl | rfl | rfl | rfl | rfl
  · have hd := Lexer.isDigit_toNat h
    have hne : ∀ d : Char, d.toNat < 48 ∨ 57 < d.toNat → c ≠ d := fun d hd' he => by
      subst he; omega
    simp [escapeChar, hne '\\' (by decide), hne '"' (by decide), hne '\x08' (by decide),
      hne '\x0c' (by decide), hne '\n' (by decide), hne '\r' (by decide), hne '\t' (by decide),
      hne '<' (by decide), hne '>' (by decide), hne '&' (by decide), hne '\u2028' (by decide),
      hne '\u2029' (by decide), show ¬ c.toNat < 32 by omega]
  all_goals rfl

theorem escape_of_forall {l : List Char} (h : ∀ c ∈ l, escapeChar c = [c]) : escape l = l := by
  induction l with
  | nil => rfl
  | cons c l ih =>
      simp only [escape, List.flatMap_cons] at ih ⊢
      rw [h c (List.mem_cons_self _ _), ih fun d hd => h d (List.mem_cons_of_mem _ hd)]
      rfl

/-- Nothing in a timestamp's text needs escaping. -/
theorem escape_formatRFC3339Nano (t : GoTime) :
    escape (t.formatRFC3339Nano) = t.formatRFC3339Nano :=
  escape_of_forall fun c hc => escapeChar_timeChar (formatRFC3339Nano_timeChar t c hc)

theorem count_brace_formatRFC3339Nano (t : GoTime) : t.formatRFC3339Nano.count '}' = 0 :=
  List.count_eq_zero_of_not_mem fun h => by
    rcases formatRFC3339Nano_timeChar t _ h with h | h | h | h | h | h | h <;> simp at h

/-! ## What the encoder writes -/

/-- Tokens the encoder has written: well formed, and left alone by HTML
escaping. -/
def Clean (ts : List Token) : Prop :=
  ∀ t ∈ ts, t.valid = true ∧ t.html = t

theorem marshalWith_render {v : Value} (type : String) (hv : ∀ t ∈ v.tokens, t.valid) :
    marshalWith type (.ok (render (bare v.tokens) [])) = .ok v.html := by
  simp only [marshalWith]
  rw [readValue_render (bare_map_snd _) (bare_ws _) hv (by simp)]

theorem html_tokens_of_clean {v : Value} (h : Clean v.tokens) : v.html.tokens = v.tokens := by
  rw [Value.html_tokens]
  exact (List.map_congr_left fun t ht => (h t ht).2).trans (List.map_id _)

theorem render_bare_str (raw : List Char) : render (bare [.str raw]) [] = '"' :: raw ++ ['"'] := by
  simp [render, bare, Token.text]

/-- What `MarshalJSON` of a time contributes: the string of its text. -/
theorem marshalWith_time {t : GoTime} {b : List Char} (hb : t.marshalJSON = .ok b) :
    marshalWith "time.Time" t.marshalJSON = .ok (.str t.formatRFC3339Nano) := by
  obtain ⟨-, -, -, rfl⟩ := GoTime.marshalJSON_ok hb
  have hv : validRaw t.formatRFC3339Nano := by
    rw [← escape_formatRFC3339Nano]; exact validRaw_escape _
  have h := marshalWith_render (v := .str t.formatRFC3339Nano) "time.Time"
    (by simpa [Value.tokens, Token.valid])
  rw [hb, ← render_bare_str]
  refine h.trans ?_
  show Except.ok (Value.str (htmlEscape t.formatRFC3339Nano)) = _
  rw [← escape_formatRFC3339Nano t, htmlEscape_escape]

/-- A `uint64` as the encoder writes it is a well-formed number. -/
theorem isNumber_cons_digit {d : Char} {r : List Char} (hd : d.isDigit) (h0 : d ≠ '0')
    (hr : dropDigits r = []) : isNumber (d :: r) = true := by
  have hm : d ≠ '-' := by rintro rfl; exact absurd hd (by decide)
  simp [isNumber, hm, h0, hd, hr, isFracExp, isExponent]

theorem decimal_valid (n : Nat) : (Token.num (decimal n)).valid = true := by
  rcases Nat.eq_zero_or_pos n with rfl | hn
  · decide
  · obtain ⟨d, r, hdr⟩ := List.exists_cons_of_ne_nil (decimal_ne_nil n)
    have hd0 := decimal_head_ne_zero hn r
    have hdig := decimal_isDigit n
    rw [hdr] at hdig hd0 ⊢
    have hd : d.isDigit = true := hdig d (List.mem_cons_self _ _)
    have hdrop : dropDigits r = [] :=
      List.dropWhile_eq_nil_iff.mpr fun c hc => hdig c (List.mem_cons_of_mem _ hc)
    have hall : (d :: r).all isNumberChar = true := by
      simp only [List.all_eq_true]
      intro c hc
      simp [isNumberChar, hdig c hc]
    simp only [Token.valid, hall, Bool.and_true,
      isNumber_cons_digit hd (fun h => hd0 (by rw [h])) hdrop]

@[simp] theorem clean_append {a b : List Token} : Clean (a ++ b) ↔ Clean a ∧ Clean b :=
  List.forall_mem_append

@[simp] theorem clean_cons {t : Token} {ts : List Token} :
    Clean (t :: ts) ↔ (t.valid = true ∧ t.html = t) ∧ Clean ts :=
  List.forall_mem_cons

theorem clean_num (n : Nat) : Clean [.num (decimal n)] := by
  simp [Clean, decimal_valid, Token.html]

theorem clean_str {raw : List Char} (h : escape raw = raw) : Clean [.str raw] := by
  simp only [Clean, List.mem_singleton, forall_eq, Token.valid, Token.html]
  exact ⟨h ▸ validRaw_escape raw, by rw [← h, htmlEscape_escape]⟩

theorem clean_stringValue (s : String) : Clean (stringValue s).tokens := by
  simp only [Clean, stringValue, Value.tokens, List.mem_singleton, forall_eq, Token.valid,
    Token.html]
  exact ⟨validRaw_escape _, by rw [htmlEscape_escape]⟩

theorem clean_html {v : Value} (hv : ∀ t ∈ v.tokens, t.valid = true) : Clean v.html.tokens := by
  rw [Value.html_tokens]
  intro t ht
  obtain ⟨t', ht', rfl⟩ := List.mem_map.mp ht
  exact ⟨Token.valid_html (hv t' ht'), Token.html_html t'⟩

/-- A member key: a plain name, written and read as it is. -/
def Plain (k : List Char) : Prop :=
  validRaw k = true ∧ htmlEscape k = k

instance : DecidablePred Plain := fun _ => inferInstanceAs (Decidable (_ ∧ _))

theorem clean_members :
    ∀ ms : List (List Char × Value), (∀ m ∈ ms, Plain m.1 ∧ Clean m.2.tokens) →
      Clean (Value.tokens.membersTail ms)
  | [], _ => by simp [Value.tokens.membersTail, Clean, Token.valid, Token.html]
  | (k, v) :: ms, h => by
      have hk := h (k, v) (List.mem_cons_self _ _)
      simp only [Value.tokens.membersTail, List.cons_append, clean_cons, clean_append]
      exact ⟨⟨rfl, rfl⟩, ⟨hk.1.1, by simp [Token.html, hk.1.2]⟩, ⟨rfl, rfl⟩, hk.2,
        clean_members ms fun m hm => h m (List.mem_cons_of_mem _ hm)⟩

/-- An object whose keys are plain and whose values are clean is clean. -/
theorem clean_object {ms : List (List Char × Value)} (h : ∀ m ∈ ms, Plain m.1 ∧ Clean m.2.tokens) :
    Clean (Value.object ms).tokens := by
  match ms, h with
  | [], _ => simp [Value.tokens, Clean, Token.valid, Token.html]
  | (k, v) :: ms, h =>
      have hk := h (k, v) (List.mem_cons_self _ _)
      simp only [Value.tokens, List.cons_append, clean_cons, clean_append]
      exact ⟨⟨rfl, rfl⟩, ⟨hk.1.1, by simp [Token.html, hk.1.2]⟩, ⟨rfl, rfl⟩, hk.2,
        clean_members ms fun m hm => h m (List.mem_cons_of_mem _ hm)⟩

theorem clean_elemsTail : ∀ vs : List Value, (∀ v ∈ vs, Clean v.tokens) →
    Clean (Value.tokens.elemsTail vs)
  | [], _ => by simp [Value.tokens.elemsTail, Clean, Token.valid, Token.html]
  | v :: vs, h => by
      simp only [Value.tokens.elemsTail, List.cons_append, clean_cons, clean_append]
      exact ⟨⟨rfl, rfl⟩, h v (List.mem_cons_self _ _),
        clean_elemsTail vs fun w hw => h w (List.mem_cons_of_mem _ hw)⟩

/-- An array whose items are clean is clean. -/
theorem clean_array {items : List Value} (h : ∀ v ∈ items, Clean v.tokens) :
    Clean (Value.array items).tokens := by
  match items, h with
  | [], _ => simp [Value.tokens, Clean, Token.valid, Token.html]
  | v :: vs, h =>
      simp only [Value.tokens, List.cons_append, clean_cons, clean_append]
      exact ⟨⟨rfl, rfl⟩, h v (List.mem_cons_self _ _),
        clean_elemsTail vs fun w hw => h w (List.mem_cons_of_mem _ hw)⟩

theorem Clean.valid {ts : List Token} (h : Clean ts) : ∀ t ∈ ts, t.valid = true :=
  fun t ht => (h t ht).1

/-! ## `Meta` -/

/-- The members `Meta.toValue` writes, its time written as `t`. -/
def Meta.fields (m : Meta) : List (List Char × Value) :=
  [("v".data, .num (decimal m.version.toNat)), ("t".data, .str m.time.formatRFC3339Nano)] ++
    omitEmpty "prev_cs" m.prevCS ++ [("cs".data, stringValue m.cs)] ++ omitEmpty "sig" m.signature

theorem Meta.toValue_ok {m : Meta} {b : List Char} (hb : m.time.marshalJSON = .ok b) :
    m.toValue = .ok (.object m.fields) := by
  simp only [Meta.toValue, marshalWith_time hb]
  rfl

theorem omitEmpty_plain {name s : String} (h : Plain name.data) :
    ∀ m ∈ omitEmpty name s, Plain m.1 ∧ Clean m.2.tokens := by
  unfold omitEmpty
  split
  · simp
  · simpa using ⟨h, clean_stringValue s⟩

theorem omitEmpty_injective {name p q : String} (h : omitEmpty name p = omitEmpty name q) :
    p = q := by
  unfold omitEmpty at h
  split at h <;> split at h
  · simp_all
  · cases h
  · cases h
  · simp only [List.cons.injEq, Prod.mk.injEq, stringValue, Value.str.injEq, true_and,
      and_true] at h
    have := congrArg unquote h
    rw [unquote_escape, unquote_escape] at this
    exact String.ext this

theorem Meta.clean_fields (m : Meta) : Clean (Value.object m.fields).tokens := by
  apply clean_object
  simp only [Meta.fields, List.mem_append, List.mem_cons, List.mem_singleton]
  rintro x ((((rfl | rfl | h) | h) | rfl | h) | h)
  · exact ⟨(by decide : Plain "v".data), clean_num _⟩
  · exact ⟨(by decide : Plain "t".data), clean_str (escape_formatRFC3339Nano _)⟩
  · simp at h
  · exact omitEmpty_plain (by decide) x h
  · exact ⟨(by decide : Plain "cs".data), clean_stringValue _⟩
  · simp at h
  · exact omitEmpty_plain (by decide) x h

/-! ## Decoding -/

/-- The zero `time.Time`: January 1 of year 1, UTC. -/
def GoTime.zero : GoTime :=
  ⟨-62135596800000000000, 0⟩

/-- The zero `Meta`. -/
def Meta.zero : Meta :=
  ⟨0, GoTime.zero, "", "", ""⟩

/-- A `time.Time` field: its value's text, handed to `UnmarshalJSON`. -/
def storeTime {α : Type} (set : GoTime → α → α) (_ : Context) (vls : List Lexeme) (a : α) :
    Decoded α :=
  match GoTime.unmarshalJSON (spanText vls) with
  | .ok (some t) => .ok (set t a, none)
  | .ok none => .ok (a, none)
  | .error e => .error (.message e)

/-- The fields of `Meta`. -/
def metaFields : List (StructField Meta) :=
  [⟨"v", storeUint64 fun n m => { m with version := n }⟩,
   ⟨"t", storeTime fun t m => { m with time := t }⟩,
   ⟨"prev_cs", storeString fun s m => { m with prevCS := s }⟩,
   ⟨"cs", storeString fun s m => { m with cs := s }⟩,
   ⟨"sig", storeString fun s m => { m with signature := s }⟩]

/-- The fields of the `alias` of `Config`: `_meta` is decoded as a struct in
place, `content` keeps the text of its value. -/
def configFields : List (StructField Config) :=
  [⟨"_meta", fun ctx vls c =>
      (decodeStruct "viracochan.Meta" "Meta" metaFields ctx.fields (some ctx) vls c.meta).map
        fun r => ({ c with meta := r.1 }, r.2)⟩,
   ⟨"content", fun _ vls c => .ok ({ c with content := some (String.mk (spanText vls)) }, none)⟩]

/-- `(*Config).UnmarshalJSON(data)`: `json.Unmarshal` into a zero `alias`. -/
def Config.unmarshalJSON (data : List Char) : Except DecodeError Config :=
  match readValue data with
  | some (ls, _) =>
      (decodeStruct "viracochan.alias" "alias" configFields [] none ls ⟨Meta.zero, none⟩).result
  | none => .error .syntaxErr

/-- `json.Unmarshal(data, &cfg)`: the text must be one value, whose text
`UnmarshalJSON` is handed. -/
def unmarshalConfig (data : List Char) : Except DecodeError Config :=
  match readValue data with
  | some (ls, _) => Config.unmarshalJSON (spanText ls)
  | none => .error .syntaxErr

/-- A `*Config` field: `null` sets it to nil, anything else is decoded by
`UnmarshalJSON`, whose type errors take the field's context. -/
def storeConfigPtr {α : Type} (set : Option Config → α → α) (ctx : Context) (vls : List Lexeme)
    (a : α) : Decoded α :=
  if isNull vls then .ok (set none a, none)
  else match Config.unmarshalJSON (spanText vls) with
    | .ok c => .ok (set (some c) a, none)
    | .error e => .error (e.addContext (some ctx))

/-- The zero `JournalEntry`. -/
def JournalEntry.zero : JournalEntry :=
  ⟨"", 0, "", "", GoTime.zero, "", none⟩

/-- The fields of `JournalEntry`. -/
def entryFields : List (StructField JournalEntry) :=
  [⟨"id", storeString fun s e => { e with id := s }⟩,
   ⟨"v", storeUint64 fun n e => { e with version := n }⟩,
   ⟨"cs", storeString fun s e => { e with cs := s }⟩,
   ⟨"prev_cs", storeString fun s e => { e with prevCS := s }⟩,
   ⟨"t", storeTime fun t e => { e with time := t }⟩,
   ⟨"op", storeString fun s e => { e with operation := s }⟩,
   ⟨"config", storeConfigPtr fun c e => { e with config := c }⟩]

/-- `json.Unmarshal(data, &entry)` into a zero `JournalEntry`. -/
def unmarshalEntry (data : List Char) : Except DecodeError JournalEntry :=
  match readValue data with
  | some (ls, _) =>
      (decodeStruct "viracochan.JournalEntry" "JournalEntry" entryFields [] none ls
        JournalEntry.zero).result
  | none => .error .syntaxErr

/-! ## Reading back -/

theorem storeTime_formatted {α : Type} (set : GoTime → α → α) {t : GoTime} {b : List Char}
    (hb : t.marshalJSON = .ok b) (hz : t.offset % 60 = 0) (ctx : Context) (a : α) :
    storeTime set ctx (bare [.str t.formatRFC3339Nano]) a = .ok (set t a, none) := by
  have hu := GoTime.unmarshalJSON_marshalJSON hb hz
  obtain ⟨-, -, -, rfl⟩ := GoTime.marshalJSON_ok hb
  simp only [storeTime, spanText_bare, render_bare_str, hu]

/-- The members `Meta.toValue` writes are decoded back into a zero `Meta`
(one whose omitted fields are empty). -/
theorem decodeStruct_meta {m m0 : Meta} {b : List Char} (hb : m.time.marshalJSON = .ok b)
    (hz : m.time.offset % 60 = 0) (h0 : m0.prevCS = "") (h1 : m0.signature = "")
    (path : List String) (ctx : Option Context) :
    decodeStruct "viracochan.Meta" "Meta" metaFields path ctx (bare (Value.object m.fields).tokens)
      m0 = .ok (m, none) := by
  rw [decodeStruct_object]
  have lv : lookup metaFields (unquote "v".data) = some ⟨"v", storeUint64 fun n m => { m with version := n }⟩ := rfl
  have lt : lookup metaFields (unquote "t".data) = some ⟨"t", storeTime fun t m => { m with time := t }⟩ := rfl
  have lp : lookup metaFields (unquote "prev_cs".data) =
      some ⟨"prev_cs", storeString fun s m => { m with prevCS := s }⟩ := rfl
  have lc : lookup metaFields (unquote "cs".data) = some ⟨"cs", storeString fun s m => { m with cs := s }⟩ := rfl
  have ls : lookup metaFields (unquote "sig".data) =
      some ⟨"sig", storeString fun s m => { m with signature := s }⟩ := rfl
  have st := storeTime_formatted (fun t (m : Meta) => { m with time := t }) hb hz
  obtain ⟨v, t, p, c, sg⟩ := m
  obtain ⟨v0, t0, p0, c0, sg0⟩ := m0
  simp only at h0 h1 st
  subst h0 h1
  unfold Meta.fields omitEmpty
  by_cases hpe : p = "" <;> by_cases hse : sg = "" <;>
    simp only [hpe, hse, if_true, if_false, List.nil_append, List.append_nil, List.cons_append,
      List.singleton_append, List.map_cons, List.map_nil, stringValue, Value.tokens, decodeMembers,
      lv, lt, lp, lc, ls, storeUint64_decimal, st, storeString_escape, Option.orElse]

/-! ## `Config` -/

/-- The text `json.Marshal` writes for a content, as `json.Unmarshal` hands it
back: `null` for nil, otherwise the content compacted. -/
def marshalledContent (content : Option String) : Except String String :=
  (marshalWith "json.RawMessage" (rawMessageJSON content)).map fun v =>
    String.mk (render (bare v.tokens) [])

/-- The members of the `alias` of a config, its content written as `cv`. -/
def Config.fields (c : Config) (cv : Value) : List (List Char × Value) :=
  [("_meta".data, .object c.meta.fields), ("content".data, cv)]

theorem marshalWith_clean {type : String} {r : Except String (List Char)} {v : Value}
    (h : marshalWith type r = .ok v) : Clean v.tokens := by
  unfold marshalWith at h
  split at h
  · cases h
  · split at h
    · rename_i hr
      cases h
      exact clean_html (readValue_tokens hr).2
    · cases h

theorem Config.clean_fields (c : Config) {cv : Value} (hcv : Clean cv.tokens) :
    Clean (Value.object (c.fields cv)).tokens := by
  apply clean_object
  simp only [Config.fields, List.mem_cons, List.mem_singleton, List.not_mem_nil, or_false]
  rintro x (rfl | rfl)
  · exact ⟨(by decide : Plain "_meta".data), c.meta.clean_fields⟩
  · exact ⟨(by decide : Plain "content".data), hcv⟩

theorem marshalWith_eq_ok {type : String} {r : Except String (List Char)} {v : Value} :
    marshalWith type r = .ok v ↔ ∃ b ls v', r = .ok b ∧ readValue b = some (ls, v') ∧ v = v'.html := by
  constructor
  · intro h
    unfold marshalWith at h
    split at h
    · cases h
    · rename_i b
      split at h
      · rename_i ls v' hr
        exact ⟨b, ls, v', rfl, hr, (Except.ok.inj h).symm⟩
      · cases h
  · rintro ⟨b, ls, v', rfl, hr, rfl⟩
    simp [marshalWith, hr]

/-- What the encoder makes of a `*Config`: the time of its `Meta` and its
content are written, and the value has the tokens of the object of its
members. -/
theorem marshalWith_config {c : Config} {v : Value}
    (h : marshalWith "*viracochan.Config" c.marshalJSON = .ok v) :
    ∃ tb cv, c.meta.time.marshalJSON = .ok tb ∧
      marshalWith "json.RawMessage" (rawMessageJSON c.content) = .ok cv ∧
      v.tokens = (Value.object (c.fields cv)).tokens := by
  obtain ⟨rb, ls, v', hrb, hr, rfl⟩ := marshalWith_eq_ok.mp h
  obtain ⟨V, hV, hrb⟩ := except_bind_eq_ok.mp hrb
  obtain rfl := except_pure_eq_ok hrb
  obtain ⟨m, hm, hV⟩ := except_bind_eq_ok.mp hV
  obtain ⟨cv, hcv, hV⟩ := except_bind_eq_ok.mp hV
  obtain rfl := except_pure_eq_ok hV
  obtain ⟨t, ht, hm⟩ := except_bind_eq_ok.mp hm
  obtain rfl := except_pure_eq_ok hm
  obtain ⟨tb, -, -, htb, -, -⟩ := marshalWith_eq_ok.mp ht
  rw [marshalWith_time htb] at ht
  obtain rfl := Except.ok.inj ht
  have hcl := c.clean_fields (marshalWith_clean hcv)
  have hval := readValue_render_compact (bare_map_snd _) (bare_ws _) hcl.valid
  have hr' : readValue (render (bare (Value.object (c.fields cv)).tokens) []) = some (ls, v') := hr
  rw [hval] at hr'
  obtain ⟨-, rfl⟩ := Prod.mk.inj (Option.some.inj hr')
  exact ⟨tb, cv, htb, hcv, html_tokens_of_clean hcl⟩

/-- What `json.Marshal` of a config succeeds with: the time of its `Meta` and
its content are written, and the text is the object of its members. -/
theorem marshalConfig_eq {c : Config} {b : List Char} :
    marshalConfig c = .ok b ↔ ∃ tb cv, c.meta.time.marshalJSON = .ok tb ∧
      marshalWith "json.RawMessage" (rawMessageJSON c.content) = .ok cv ∧
      b = render (bare (Value.object (c.fields cv)).tokens) [] := by
  constructor
  · intro h
    obtain ⟨v, hv, hb⟩ := except_bind_eq_ok.mp h
    obtain rfl := except_pure_eq_ok hb
    obtain ⟨tb, cv, htb, hcv, htok⟩ := marshalWith_config hv
    exact ⟨tb, cv, htb, hcv, by rw [htok]⟩
  · rintro ⟨tb, cv, ht, hc, rfl⟩
    have hcl := c.clean_fields (marshalWith_clean hc)
    simp only [Config.fields] at hcl ⊢
    simp only [marshalConfig, Config.marshalJSON, Config.toValue, Meta.toValue_ok ht, hc,
      except_ok_bind, except_pure]
    rw [marshalWith_render _ hcl.valid, except_ok_bind, html_tokens_of_clean hcl]

/-- `UnmarshalJSON` of the text `MarshalJSON` writes: the same `Meta`, and
the content as it was written. -/
theorem Config.unmarshalJSON_fields {c : Config} {tb : List Char} {cv : Value}
    (ht : c.meta.time.marshalJSON = .ok tb) (hz : c.meta.time.offset % 60 = 0)
    (hcv : Clean cv.tokens) :
    Config.unmarshalJSON (render (bare (Value.object (c.fields cv)).tokens) []) =
      .ok ⟨c.meta, some (String.mk (render (bare cv.tokens) []))⟩ := by
  have hcl := c.clean_fields hcv
  have hm := @decodeStruct_meta _ Meta.zero _ ht hz rfl rfl ["_meta"]
    (some ⟨"alias", ["_meta"]⟩)
  have l1 : lookup configFields (unquote "_meta".data) = configFields.head? := rfl
  have l2 : lookup configFields (unquote "content".data) = configFields.getLast? := rfl
  rw [Config.unmarshalJSON, readValue_render (bare_map_snd _) (bare_ws _) hcl.valid (by simp)]
  simp only [decodeStruct_object, Config.fields, List.map_cons, List.map_nil, decodeMembers, l1, l2]
  simp only [configFields, List.head?_cons, List.getLast?_cons_cons, List.getLast?_singleton,
    List.nil_append, hm, Except.map, spanText_bare, Decoded.result]
  rfl

/-- A configuration as `json.Marshal` and `json.Unmarshal` give it back: the
same `Meta`, and the content as it was written. -/
def Config.reread (c : Config) : Config :=
  ⟨c.meta, (marshalledContent c.content).toOption⟩

@[simp] theorem Config.reread_meta (c : Config) : c.reread.meta = c.meta :=
  rfl

theorem reread_of_marshalWith {c : Config} {cv : Value}
    (hc : marshalWith "json.RawMessage" (rawMessageJSON c.content) = .ok cv) :
    c.reread = ⟨c.meta, some (String.mk (render (bare cv.tokens) []))⟩ := by
  simp only [Config.reread, marshalledContent, hc]
  rfl

/-- The encoder writes a config and its reread copy alike: the content it reads
back is already compact and escaped. -/
theorem Config.marshalJSON_reread {c : Config} {cv : Value}
    (hc : marshalWith "json.RawMessage" (rawMessageJSON c.content) = .ok cv) :
    c.reread.marshalJSON = c.marshalJSON := by
  have hcv := marshalWith_clean hc
  have hc' : marshalWith "json.RawMessage" (rawMessageJSON c.reread.content) = .ok cv.html := by
    rw [reread_of_marshalWith hc]
    exact marshalWith_render _ hcv.valid
  have htok : ∀ m : Value, (Value.object [("_meta".data, m), ("content".data, cv.html)]).tokens =
      (Value.object [("_meta".data, m), ("content".data, cv)]).tokens := by
    intro m
    simp only [Value.tokens, Value.tokens.membersTail, html_tokens_of_clean hcv]
  simp only [Config.marshalJSON, Config.toValue, hc, hc', Config.reread_meta, except_ok_bind,
    except_pure]
  cases c.meta.toValue with
  | error e => simp only [except_error_bind]
  | ok m => simp only [except_ok_bind, htok]

/-- **Round trip of a configuration.** What `json.Marshal` writes for a
config whose time has a whole-minute zone offset is read back by
`json.Unmarshal` as the config with the same `Meta` and its content as it was
written. -/
theorem unmarshalConfig_marshalConfig {c : Config} {b : List Char} (h : marshalConfig c = .ok b)
    (hz : c.meta.time.offset % 60 = 0) : unmarshalConfig b = .ok c.reread := by
  obtain ⟨tb, cv, ht, hc, rfl⟩ := marshalConfig_eq.mp h
  have hcv := marshalWith_clean hc
  have hcl := c.clean_fields hcv
  rw [unmarshalConfig, readValue_render (bare_map_snd _) (bare_ws _) hcl.valid (by simp)]
  simp only [spanText_bare, Config.unmarshalJSON_fields ht hz hcv, reread_of_marshalWith hc]

/-! ## Reading back an indented configuration

`json.MarshalIndent` lays the encoding out over lines; `json.Unmarshal` reads
the metadata back as it was, and hands the content field the text of its value
as it stands in the indented text: laid out at depth one. -/

theorem metaFields_scalar : ∀ f ∈ metaFields, f.Scalar := by
  simp only [metaFields, List.mem_cons, List.mem_singleton, List.not_mem_nil, or_false,
    forall_eq_or_imp, forall_eq]
  refine ⟨?_, ?_, ?_, ?_, ?_⟩ <;> intro ctx w t a <;> cases t <;> rfl

theorem Meta.fields_scalar (m : Meta) : ∀ f ∈ m.fields, f.2.tokens.length = 1 := by
  intro f hf
  simp only [Meta.fields, omitEmpty] at hf
  split_ifs at hf <;> simp at hf <;> rcases hf with rfl | rfl | rfl | rfl | rfl <;> rfl

/-- The lexemes `MarshalIndent` writes for the two members of a config. -/
theorem run_config_fields (c : Config) (cv : Value) :
    Indenter.run "  ".data ⟨0, false, []⟩ (Value.object (c.fields cv)).tokens =
      ([], .beginObject) :: (newline "  ".data 1, .str "_meta".data) :: ([], .colon) ::
        Indenter.run "  ".data ⟨1, false, [' ']⟩ (Value.object c.meta.fields).tokens ++
      ([], .comma) :: (newline "  ".data 1, .str "content".data) :: ([], .colon) ::
        Indenter.run "  ".data ⟨1, false, [' ']⟩ cv.tokens ++ [(newline "  ".data 0, .endObject)] := by
  have e : (Value.object (c.fields cv)).tokens = [.beginObject, .str "_meta".data, .colon] ++
      ((Value.object c.meta.fields).tokens ++ ([.comma, .str "content".data, .colon] ++
        (cv.tokens ++ [.endObject]))) := by
    simp [Config.fields, Value.tokens, Value.tokens.membersTail]
  have f1 : Indenter.final "  ".data ⟨0, false, []⟩ [.beginObject, .str "_meta".data, .colon] =
      ⟨1, false, [' ']⟩ := rfl
  have f2 : Indenter.final "  ".data ⟨1, false, []⟩ [.comma, .str "content".data, .colon] =
      ⟨1, false, [' ']⟩ := rfl
  have r1 : Indenter.run "  ".data ⟨0, false, []⟩ [.beginObject, .str "_meta".data, .colon] =
      [([], .beginObject), (newline "  ".data 1, .str "_meta".data), ([], .colon)] := rfl
  have r2 : Indenter.run "  ".data ⟨1, false, []⟩ [.comma, .str "content".data, .colon] =
      [([], .comma), (newline "  ".data 1, .str "content".data), ([], .colon)] := rfl
  have r3 : Indenter.run "  ".data ⟨1, false, []⟩ [.endObject] = [(newline "  ".data 0, .endObject)] :=
    rfl
  rw [e, Indenter.run_append, f1, Indenter.run_append, Indenter.final_value, Indenter.run_append, f2,
    Indenter.run_append, Indenter.final_value, r1, r2, r3]
  simp only [List.cons_append, List.nil_append, List.append_assoc]

/-- The text a value is handed when it stands in indented text: the value laid
out at its depth, without the whitespace before it. -/
theorem spanText_run (v : Value) (d : Nat) (p : List Char) :
    spanText (Indenter.run "  ".data ⟨d, false, p⟩ v.tokens) = indentAt d v.tokens := by
  obtain ⟨t, ts, hv, ht⟩ := Indenter.Value.head_not_close v
  rw [hv, Indenter.run_cons_pending _ _ _ ht, indentAt, Indenter.run_head _ _ ht]
  simp [spanText, render]

/-- **Reading back an export.**  The indented encoding of a config whose time
has a whole-minute zone offset is read back with the same `Meta`, and with the
content as the indented text lays it out at depth one. -/
theorem unmarshalConfig_indent {c : Config} {tb : List Char} {cv : Value}
    (ht : c.meta.time.marshalJSON = .ok tb) (hz : c.meta.time.offset % 60 = 0)
    (hcv : Clean cv.tokens) :
    unmarshalConfig (indent (Value.object (c.fields cv)).tokens) =
      .ok ⟨c.meta, some (String.mk (indentAt 1 cv.tokens))⟩ := by
  have hcl := c.clean_fields hcv
  have hr := readValue_indentAt hcl.valid 0
  have hspan := spanText_run (Value.object (c.fields cv)) 0 []
  have hm := @decodeStruct_meta _ Meta.zero _ ht hz rfl rfl ["_meta"] (some ⟨"alias", ["_meta"]⟩)
  rw [← decodeStruct_scalars _ _ _ _ (Indenter.run_map_snd "  ".data ⟨1, false, [' ']⟩ _)
    metaFields_scalar c.meta.fields_scalar] at hm
  have hmem := @members_pair "_meta".data "content".data _ _ _ _ [] (newline "  ".data 1) [] []
    (newline "  ".data 1) []
    (newline "  ".data 0) (Indenter.run_map_snd "  ".data ⟨1, false, [' ']⟩
      (Value.object c.meta.fields).tokens) (Indenter.run_map_snd "  ".data ⟨1, false, [' ']⟩ cv.tokens)
  simp only [List.cons_append, List.append_assoc] at hmem
  have l1 : lookup configFields (unquote "_meta".data) = configFields.head? := rfl
  have l2 : lookup configFields (unquote "content".data) = configFields.getLast? := rfl
  rw [unmarshalConfig, indent, hr]
  dsimp only
  rw [hspan, Config.unmarshalJSON, hr]
  dsimp only
  rw [run_config_fields]
  simp only [List.cons_append, List.append_assoc]
  rw [decodeStruct_of_members _ _ _ _ hmem]
  simp only [decodeMembers, l1, l2]
  simp only [configFields, List.head?_cons, List.getLast?_cons_cons, List.getLast?_singleton,
    List.nil_append, hm, Except.map, Decoded.result]
  rw [← spanText_run cv 1 [' ']]
  rfl

/-- `json.MarshalIndent` of a config: its encoding, indented. -/
theorem marshalIndentConfig_eq {c : Config} {tb : List Char} {cv : Value}
    (ht : c.meta.time.marshalJSON = .ok tb)
    (hcv : marshalWith "json.RawMessage" (rawMessageJSON c.content) = .ok cv) :
    marshalIndentConfig c = .ok (indent (Value.object (c.fields cv)).tokens) := by
  have hcl := c.clean_fields (marshalWith_clean hcv)
  have hb := marshalConfig_eq.mpr ⟨tb, cv, ht, hcv, rfl⟩
  simp only [marshalIndentConfig, hb, except_ok_bind,
    readValue_render_compact (bare_map_snd _) (bare_ws _) hcl.valid, bare_map_snd]
  rfl

/-- The indented text of a content is encoded back as the content's value. -/
theorem marshalWith_indentAt {cv : Value} (hcv : Clean cv.tokens) (d : Nat) :
    marshalWith "json.RawMessage" (rawMessageJSON (some (String.mk (indentAt d cv.tokens)))) =
      .ok cv.html := by
  simp only [marshalWith, rawMessageJSON, readValue_indentAt hcv.valid d]

/-- What `json.MarshalIndent` of a config succeeds with. -/
theorem marshalIndentConfig_ok {c : Config} {d : List Char} (h : marshalIndentConfig c = .ok d) :
    ∃ tb cv, c.meta.time.marshalJSON = .ok tb ∧
      marshalWith "json.RawMessage" (rawMessageJSON c.content) = .ok cv ∧
      d = indent (Value.object (c.fields cv)).tokens := by
  obtain ⟨b, hb, -⟩ := except_bind_eq_ok.mp h
  obtain ⟨tb, cv, ht, hcv, -⟩ := marshalConfig_eq.mp hb
  rw [marshalIndentConfig_eq ht hcv] at h
  exact ⟨tb, cv, ht, hcv, (Except.ok.inj h).symm⟩

/-- A content replaced by its indented text is reread as the content was. -/
theorem reread_indentAt {c : Config} {cv : Value}
    (hcv : marshalWith "json.RawMessage" (rawMessageJSON c.content) = .ok cv) (d : Nat) :
    (⟨c.meta, some (String.mk (indentAt d cv.tokens))⟩ : Config).reread = c.reread := by
  have hcl := marshalWith_clean hcv
  rw [reread_of_marshalWith hcv, reread_of_marshalWith (c := ⟨c.meta, _⟩) (marshalWith_indentAt hcl d),
    html_tokens_of_clean hcl]

/-! ## `JournalEntry` -/

/-- The members `JournalEntry.toValue` writes, the config member being `cm`. -/
def JournalEntry.fields (e : JournalEntry) (cm : List (List Char × Value)) :
    List (List Char × Value) :=
  [("id".data, stringValue e.id), ("v".data, .num (decimal e.version.toNat)),
    ("cs".data, stringValue e.cs)] ++ omitEmpty "prev_cs" e.prevCS ++
    [("t".data, .str e.time.formatRFC3339Nano), ("op".data, stringValue e.operation)] ++ cm

/-- A `*Config` that the encoder wrote is decoded back as the reread config. -/
theorem storeConfigPtr_marshalWith {α : Type} (set : Option Config → α → α) {c : Config}
    {v : Value} (h : marshalWith "*viracochan.Config" c.marshalJSON = .ok v)
    (hz : c.meta.time.offset % 60 = 0) (ctx : Context) (a : α) :
    storeConfigPtr set ctx (bare v.tokens) a = .ok (set (some c.reread) a, none) := by
  obtain ⟨tb, cv, ht, hc, htok⟩ := marshalWith_config h
  have hcv := marshalWith_clean hc
  rw [htok]
  have hnull : isNull (bare (Value.object (c.fields cv)).tokens) = false := by
    simp only [Config.fields, Value.tokens, bare_cons, List.cons_append]
    rfl
  simp only [storeConfigPtr, hnull, Bool.false_eq_true, if_false, spanText_bare,
    Config.unmarshalJSON_fields ht hz hcv, reread_of_marshalWith hc]

theorem configMember_clean {co : Option Config} {cm : List (List Char × Value)}
    (h : configMember co = .ok cm) : ∀ m ∈ cm, Plain m.1 ∧ Clean m.2.tokens := by
  cases co with
  | none => cases h; simp
  | some c =>
      obtain ⟨v, hv, hcm⟩ := except_bind_eq_ok.mp h
      obtain rfl := except_pure_eq_ok hcm
      simpa using ⟨(by decide : Plain "config".data), marshalWith_clean hv⟩

theorem JournalEntry.clean_fields (e : JournalEntry) {cm : List (List Char × Value)}
    (hcm : ∀ m ∈ cm, Plain m.1 ∧ Clean m.2.tokens) : Clean (Value.object (e.fields cm)).tokens := by
  apply clean_object
  simp only [JournalEntry.fields, List.mem_append, List.mem_cons, List.mem_singleton]
  rintro x ((((rfl | rfl | rfl | h) | h) | rfl | rfl | h) | h)
  · exact ⟨(by decide : Plain "id".data), clean_stringValue _⟩
  · exact ⟨(by decide : Plain "v".data), clean_num _⟩
  · exact ⟨(by decide : Plain "cs".data), clean_stringValue _⟩
  · simp at h
  · exact omitEmpty_plain (by decide) x h
  · exact ⟨(by decide : Plain "t".data), clean_str (escape_formatRFC3339Nano _)⟩
  · exact ⟨(by decide : Plain "op".data), clean_stringValue _⟩
  · simp at h
  · exact hcm x h

/-- What `json.Marshal` of an entry succeeds with. -/
theorem marshalEntry_ok {e : JournalEntry} {b : List Char} (h : marshalEntry e = .ok b) :
    ∃ tb cm, e.time.marshalJSON = .ok tb ∧ configMember e.config = .ok cm ∧
      b = render (bare (Value.object (e.fields cm)).tokens) [] := by
  obtain ⟨V, hV, hb⟩ := except_bind_eq_ok.mp h
  obtain rfl := except_pure_eq_ok hb
  obtain ⟨t, ht, hV⟩ := except_bind_eq_ok.mp hV
  obtain ⟨cm, hcm, hV⟩ := except_bind_eq_ok.mp hV
  obtain rfl := except_pure_eq_ok hV
  obtain ⟨tb, -, -, htb, -, -⟩ := marshalWith_eq_ok.mp ht
  rw [marshalWith_time htb] at ht
  obtain rfl := Except.ok.inj ht
  exact ⟨tb, cm, htb, hcm, rfl⟩

/-- `json.Marshal` of an entry whose time and config encode. -/
theorem marshalEntry_eq_render {e : JournalEntry} {tb : List Char}
    {cm : List (List Char × Value)} (ht : e.time.marshalJSON = .ok tb)
    (hcm : configMember e.config = .ok cm) :
    marshalEntry e = .ok (render (bare (Value.object (e.fields cm)).tokens) []) := by
  simp only [marshalEntry, JournalEntry.toValue, marshalWith_time ht, hcm, except_ok_bind,
    except_pure]
  rfl

/-- **Round trip of a journal entry.** What `json.Marshal` writes for an entry
whose times have whole-minute zone offsets is read back by `json.Unmarshal` as
the entry with its config, if any, reread. -/
theorem unmarshalEntry_marshalEntry {e : JournalEntry} {b : List Char} (h : marshalEntry e = .ok b)
    (hz : e.time.offset % 60 = 0) (hzc : ∀ c ∈ e.config, c.meta.time.offset % 60 = 0) :
    unmarshalEntry b = .ok { e with config := e.config.map Config.reread } := by
  obtain ⟨tb, cm, ht, hcm, rfl⟩ := marshalEntry_ok h
  have hcl := e.clean_fields (configMember_clean hcm)
  rw [unmarshalEntry, readValue_render (bare_map_snd _) (bare_ws _) hcl.valid (by simp)]
  dsimp only
  rw [decodeStruct_object]
  have li : lookup entryFields (unquote "id".data) = some ⟨"id", storeString fun s e => { e with id := s }⟩ := rfl
  have lv : lookup entryFields (unquote "v".data) =
      some ⟨"v", storeUint64 fun n e => { e with version := n }⟩ := rfl
  have lc : lookup entryFields (unquote "cs".data) = some ⟨"cs", storeString fun s e => { e with cs := s }⟩ := rfl
  have lp : lookup entryFields (unquote "prev_cs".data) =
      some ⟨"prev_cs", storeString fun s e => { e with prevCS := s }⟩ := rfl
  have lt : lookup entryFields (unquote "t".data) = some ⟨"t", storeTime fun t e => { e with time := t }⟩ := rfl
  have lo : lookup entryFields (unquote "op".data) =
      some ⟨"op", storeString fun s e => { e with operation := s }⟩ := rfl
  have lg : lookup entryFields (unquote "config".data) =
      some ⟨"config", storeConfigPtr fun c e => { e with config := c }⟩ := rfl
  have st := storeTime_formatted (fun t (e : JournalEntry) => { e with time := t }) ht hz
  obtain ⟨id, v, cs, p, t, op, co⟩ := e
  simp only at st hzc ⊢
  unfold JournalEntry.fields omitEmpty
  cases co with
  | none =>
      cases hcm
      by_cases hpe : p = "" <;>
        simp only [hpe, if_true, if_false, List.nil_append, List.append_nil, List.cons_append,
          List.singleton_append, List.map_cons, List.map_nil, stringValue, Value.tokens,
          decodeMembers, li, lv, lc, lp, lt, lo, storeUint64_decimal, st, storeString_escape,
          Option.orElse, Decoded.result, JournalEntry.zero, Option.map_none']
  | some c =>
      obtain ⟨cv, hcv, hcm⟩ := except_bind_eq_ok.mp hcm
      obtain rfl := except_pure_eq_ok hcm
      have sc := storeConfigPtr_marshalWith (fun c (e : JournalEntry) => { e with config := c }) hcv
        (hzc c rfl)
      by_cases hpe : p = "" <;>
        simp only [hpe, if_true, if_false, List.nil_append, List.append_nil, List.cons_append,
          List.singleton_append, List.map_cons, List.map_nil, stringValue, Value.tokens,
          decodeMembers, li, lv, lc, lp, lt, lo, lg, storeUint64_decimal, st, storeString_escape,
          sc, Option.orElse, Decoded.result, JournalEntry.zero, Option.map_some']

end Viracochan
