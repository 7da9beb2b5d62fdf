import Viracochan.Codec
import Viracochan.Digest

/-!
# Viracochan: checksums and the chain of metadata

`computeChecksum` hashes the canonical JSON of a configuration whose `cs` and
`sig` are cleared, followed by its time in UTC truncated to microseconds.

**The canonical form** (`canonicalJSON` of `normalizeValue`).  The config is
turned into nested maps: `_meta` holds `cs` (empty), `prev_cs` (left out when
empty), `t` (the time's text) and `v`; a non-empty content is parsed into an
`interface{}` and normalized, an empty or nil content (a byte slice of length
zero) becomes an empty array.  `json.Marshal` then writes every map with its
keys sorted.  Parsing a content keeps, of each key of an object, the last
member; strings are unquoted (and re-escaped when written); numbers become
`float64`.

The `float64` round trip of a number (`strconv.ParseFloat`, then the float
encoder of `json.Marshal`) is not modelled bit by bit: it is the parameter
`float64Text`, which maps the text of a number to the text written back, or
to `none` when the number is out of range.  SHA-256 is the parameter
`sha256`, as in `Signer`.

**Operations.** `validate` (`Config.Validate`), `updateMeta`
(`Config.UpdateMeta`, the clock an argument) and `nextOf` (`Config.NextOf`).

**Results.**
* `canonical_html`: re-escaping a content's strings for HTML, as `compact`
  does, does not change its canonical form; so the checksum of a config read
  back from its JSON is the checksum of the config (`computeChecksum_reread`)
  when its content is not nil.
* `updateMeta_validate`: `updateMeta` produces a config that validates.
-/

namespace Viracochan

open Json

/-! ## The canonical form of a content -/

/-- Go's order on strings, byte by byte of their UTF-8 encoding, which is the
order of their code points. -/
def keyLt : List Char → List Char → Bool
  | [], _ :: _ => true
  | a :: as, b :: bs => decide (a < b) || (a = b && keyLt as bs)
  | _, _ => false

/-- Go's map assignment followed by sorting the keys: `k` set to `v` in
members sorted by key. -/
def insertMember (k : List Char) (v : Value) :
    List (List Char × Value) → List (List Char × Value)
  | [] => [(k, v)]
  | (k', v') :: ms =>
      if k = k' then (k, v) :: ms
      else if keyLt k k' then (k, v) :: (k', v') :: ms
      else (k', v') :: insertMember k v ms

theorem mem_insertMember {k : List Char} {v : Value} :
    ∀ {acc : List (List Char × Value)} {m : List Char × Value},
      m ∈ insertMember k v acc → m = (k, v) ∨ m ∈ acc
  | [], _, h => by simpa [insertMember] using h
  | (k', v') :: ms, m, h => by
      simp only [insertMember] at h
      split at h
      · rcases List.mem_cons.mp h with rfl | h
        · exact .inl rfl
        · exact .inr (List.mem_cons_of_mem _ h)
      · split at h
        · simpa using h
        · rcases List.mem_cons.mp h with rfl | h
          · exact .inr (List.mem_cons_self _ _)
          · rcases mem_insertMember h with h | h
            · exact .inl h
            · exact .inr (List.mem_cons_of_mem _ h)

section Canonical

variable (float64Text : List Char → Option (List Char))

/-- The error `json.Unmarshal` reports for a number out of the range of a
`float64`. -/
def floatError (t : List Char) : DecodeError :=
  .type ("number " ++ String.mk t) "float64" none

/-- The canonical form of a content: what `json.Marshal` writes for the
normalized `interface{}` that `json.Unmarshal` reads from it. -/
def canonical : Value → Except DecodeError Value
  | .str raw => .ok (.str (escape (unquote raw)))
  | .num t =>
      match float64Text t with
      | some t' => .ok (.num t')
      | none => .error (floatError t)
  | .lit t => .ok (.lit t)
  | .array items => (canonicalItems items).map .array
  | .object ms => (canonicalMembers ms []).map fun acc => .object (acc.map fun m => (escape m.1, m.2))
where
  /-- The elements, in order. -/
  canonicalItems : List Value → Except DecodeError (List Value)
    | [] => .ok []
    | v :: vs => do
        let v' ← canonical v
        let vs' ← canonicalItems vs
        pure (v' :: vs')
  /-- The members, each key unquoted and set in the sorted map `acc`. -/
  canonicalMembers : List (List Char × Value) → List (List Char × Value) →
      Except DecodeError (List (List Char × Value))
    | [], acc => .ok acc
    | (k, v) :: ms, acc => do
        let v' ← canonical v
        canonicalMembers ms (insertMember (unquote k) v' acc)

/-- The canonical form of a `json.RawMessage` field: an empty one is an empty
array, a non-empty one is parsed. -/
def contentCanonical : Option String → Except DecodeError Value
  | none => .ok (.array [])
  | some s =>
      if s.data = [] then .ok (.array [])
      else
        match readValue s.data with
        | some (_, v) => canonical float64Text v
        | none => .error .syntaxErr

/-- `canonicalJSON` of a config with `cs` and `sig` cleared, as a value. -/
def canonicalConfig (c : Config) : Except DecodeError Value := do
  let content ← contentCanonical float64Text c.content
  pure (.object [("_meta".data, .object ([("cs".data, .str [])] ++ omitEmpty "prev_cs" c.meta.prevCS ++
      [("t".data, .str c.meta.time.utc.truncateMicro.formatRFC3339Nano),
        ("v".data, .num (decimal c.meta.version.toNat))])),
    ("content".data, content)])

variable (sha256 : String → List UInt8)

/-- `computeChecksum`: the hex SHA-256 of the canonical JSON followed by the
time's text. -/
def computeChecksum (c : Config) : Except DecodeError String := do
  let v ← canonicalConfig float64Text c
  pure (hexEncode (sha256 ⟨render (bare v.tokens) [] ++ c.meta.time.utc.truncateMicro.formatRFC3339Nano⟩))

/-- The bytes `computeChecksum` hashes (`buf`): the canonical JSON followed by
the time's text. -/
def checksumBuf (c : Config) : Except DecodeError String := do
  let v ← canonicalConfig float64Text c
  pure ⟨render (bare v.tokens) [] ++ c.meta.time.utc.truncateMicro.formatRFC3339Nano⟩

theorem computeChecksum_eq_buf (c : Config) :
    computeChecksum float64Text sha256 c =
      (checksumBuf float64Text c).map fun b => hexEncode (sha256 b) := by
  unfold computeChecksum checksumBuf
  cases canonicalConfig float64Text c <;> rfl

/-- `Config.Validate`: the checksum recomputed must be the stored one. -/
def validate (c : Config) : Except String Unit :=
  match computeChecksum float64Text sha256 c with
  | .error e => .error e.text
  | .ok cs =>
      if cs = c.meta.cs then .ok ()
      else .error ("checksum mismatch: expected=" ++ c.meta.cs ++ " computed=" ++ cs)

/-- The metadata `UpdateMeta` sets before computing the checksum. -/
def nextMeta (now : GoTime) (m : Meta) : Meta :=
  ⟨m.version + 1, now.utc.truncateMicro, m.cs, "", ""⟩

/-- `Config.UpdateMeta` with the clock reading `now`: the next version, the
old checksum as `prev_cs`, and the checksum recomputed. -/
def updateMeta (now : GoTime) (c : Config) : Except String Config :=
  let c' : Config := ⟨nextMeta now c.meta, c.content⟩
  match computeChecksum float64Text sha256 c' with
  | .error e => .error e.text
  | .ok cs => .ok ⟨{ c'.meta with cs := cs }, c.content⟩

/-- `c.NextOf(prev)`. -/
def nextOf (c : Config) : Option Config → Except String Unit
  | none => .error "previous config is nil"
  | some prev =>
      if c.meta.version ≠ prev.meta.version + 1 then
        .error ("version break: " ++ String.mk (decimal prev.meta.version.toNat) ++ " -> " ++
          String.mk (decimal c.meta.version.toNat))
      else if c.meta.prevCS ≠ prev.meta.cs then
        .error ("chain break: prev_cs=" ++ c.meta.prevCS ++ " != cs=" ++ prev.meta.cs)
      else if c.meta.time.before prev.meta.time then .error "timestamp regression"
      else
        match validate float64Text sha256 prev with
        | .error e => .error ("previous config invalid: " ++ e)
        | .ok () =>
            match validate float64Text sha256 c with
            | .error e => .error ("current config invalid: " ++ e)
            | .ok () => .ok ()

/-! ## Re-escaping does not change the canonical form -/

theorem mem_elemsTail {vs : List Value} {v : Value} {t : Token} (hv : v ∈ vs) (ht : t ∈ v.tokens) :
    t ∈ Value.tokens.elemsTail vs := by
  induction vs with
  | nil => cases hv
  | cons w ws ih =>
      simp only [Value.tokens.elemsTail, List.cons_append, List.mem_cons, List.mem_append]
      rcases List.mem_cons.mp hv with rfl | hv
      · exact .inr (.inl ht)
      · exact .inr (.inr (ih hv))

theorem Value.mem_tokens_array {items : List Value} {v : Value} {t : Token} (hv : v ∈ items)
    (ht : t ∈ v.tokens) : t ∈ (Value.array items).tokens := by
  cases items with
  | nil => cases hv
  | cons w ws =>
      simp only [Value.tokens, List.cons_append, List.mem_cons, List.mem_append]
      rcases List.mem_cons.mp hv with rfl | hv
      · exact .inr (.inl ht)
      · exact .inr (.inr (mem_elemsTail hv ht))

theorem mem_membersTail {ms : List (List Char × Value)} {m : List Char × Value} {t : Token}
    (hm : m ∈ ms) (ht : t ∈ m.2.tokens ∨ t = .str m.1) : t ∈ Value.tokens.membersTail ms := by
  induction ms with
  | nil => cases hm
  | cons n ns ih =>
      simp only [Value.tokens.membersTail, List.cons_append, List.mem_cons, List.mem_append]
      rcases List.mem_cons.mp hm with rfl | hm
      · rcases ht with ht | rfl
        · exact .inr (.inr (.inr (.inl ht)))
        · exact .inr (.inl rfl)
      · exact .inr (.inr (.inr (.inr (ih hm))))

theorem Value.mem_tokens_object {ms : List (List Char × Value)} {m : List Char × Value} {t : Token}
    (hm : m ∈ ms) (ht : t ∈ m.2.tokens ∨ t = .str m.1) : t ∈ (Value.object ms).tokens := by
  cases ms with
  | nil => cases hm
  | cons n ns =>
      simp only [Value.tokens, List.cons_append, List.mem_cons, List.mem_append]
      rcases List.mem_cons.mp hm with rfl | hm
      · rcases ht with ht | rfl
        · exact .inr (.inr (.inr (.inl ht)))
        · exact .inr (.inl rfl)
      · exact .inr (.inr (.inr (.inr (mem_membersTail hm ht))))

theorem canonical_html : ∀ v : Value, (∀ t ∈ v.tokens, t.valid = true) →
    canonical float64Text v.html = canonical float64Text v
  | .str raw, h => by
      have hr : validRaw raw = true := h (.str raw) (List.mem_singleton_self _)
      simp only [Value.html, canonical, unquote_htmlEscape hr]
  | .num _, _ | .lit _, _ => rfl
  | .array items, h => by
      simp only [Value.html, canonical, items_html items fun v hv t ht => h t (Value.mem_tokens_array hv ht)]
  | .object ms, h => by
      simp only [Value.html, canonical,
        members_html ms [] fun m hm t ht => h t (Value.mem_tokens_object hm ht)]
where
  items_html : ∀ items : List Value, (∀ v ∈ items, ∀ t ∈ v.tokens, t.valid = true) →
      canonical.canonicalItems float64Text (Value.html.htmlItems items) =
        canonical.canonicalItems float64Text items
    | [], _ => rfl
    | v :: vs, h => by
        simp only [Value.html.htmlItems, canonical.canonicalItems,
          canonical_html v (h v (List.mem_cons_self _ _)),
          items_html vs fun w hw => h w (List.mem_cons_of_mem _ hw)]
  members_html : ∀ (ms acc : List (List Char × Value)),
      (∀ m ∈ ms, ∀ t, t ∈ m.2.tokens ∨ t = .str m.1 → t.valid = true) →
      canonical.canonicalMembers float64Text (Value.html.htmlMembers ms) acc =
        canonical.canonicalMembers float64Text ms acc
    | [], _, _ => rfl
    | (k, v) :: ms, acc, h => by
        have hk : validRaw k = true := h (k, v) (List.mem_cons_self _ _) (.str k) (.inr rfl)
        simp only [Value.html.htmlMembers, canonical.canonicalMembers,
          canonical_html v fun t ht => h (k, v) (List.mem_cons_self _ _) t (.inl ht),
          unquote_htmlEscape hk]
        congr 1
        funext v'
        exact members_html ms _ fun m hm => h m (List.mem_cons_of_mem _ hm)

/-! ## Canonical forms are well formed -/

/-- The float encoder writes a well-formed JSON number for every number it reads,
as `strconv.AppendFloat` does. -/
def NumbersWellFormed : Prop :=
  ∀ t t', (Token.num t).valid = true → float64Text t = some t' → (Token.num t').valid = true

/-- The canonical form of a well-formed value is clean. -/
theorem canonical_clean (hf : NumbersWellFormed float64Text) :
    ∀ v v' : Value, (∀ t ∈ v.tokens, t.valid = true) → canonical float64Text v = .ok v' →
      Clean v'.tokens
  | .str raw, _, _, h => by
      cases h
      exact clean_stringValue ⟨unquote raw⟩
  | .num t, _, hv, h => by
      simp only [canonical] at h
      split at h
      · rename_i t' ht'
        cases h
        simpa [Value.tokens, Clean, Token.html] using hf t t' (hv _ (List.mem_singleton_self _)) ht'
      · cases h
  | .lit t, _, hv, h => by
      cases h
      exact fun u hu => ⟨hv u hu, by simp [Value.tokens] at hu; subst hu; rfl⟩
  | .array items, _, hv, h => by
      simp only [canonical] at h
      cases hi : canonical.canonicalItems float64Text items with
      | error e => rw [hi] at h; cases h
      | ok items' =>
          rw [hi] at h
          cases h
          exact clean_array (items_clean items items'
            (fun v hv' t ht => hv t (Value.mem_tokens_array hv' ht)) hi)
  | .object ms, _, hv, h => by
      simp only [canonical] at h
      cases hm : canonical.canonicalMembers float64Text ms [] with
      | error e => rw [hm] at h; cases h
      | ok acc =>
          rw [hm] at h
          cases h
          refine clean_object fun m hm' => ?_
          obtain ⟨m0, hm0, rfl⟩ := List.mem_map.mp hm'
          exact ⟨⟨validRaw_escape _, htmlEscape_escape _⟩, members_clean ms [] acc
            (fun m hm t ht => hv t (Value.mem_tokens_object hm (.inl ht))) (by simp) hm m0 hm0⟩
where
  items_clean : ∀ items items' : List Value, (∀ v ∈ items, ∀ t ∈ v.tokens, t.valid = true) →
      canonical.canonicalItems float64Text items = .ok items' → ∀ v ∈ items', Clean v.tokens
    | [], _, _, h => by cases h; simp
    | v :: vs, _, hv, h => by
        obtain ⟨v', h1, h⟩ := except_bind_eq_ok.mp h
        obtain ⟨vs', h2, h⟩ := except_bind_eq_ok.mp h
        cases h
        intro w hw
        rcases List.mem_cons.mp hw with rfl | hw
        · exact canonical_clean hf v w (hv v (List.mem_cons_self _ _)) h1
        · exact items_clean vs vs' (fun u hu => hv u (List.mem_cons_of_mem _ hu)) h2 w hw
  members_clean : ∀ ms acc acc' : List (List Char × Value),
      (∀ m ∈ ms, ∀ t ∈ m.2.tokens, t.valid = true) → (∀ m ∈ acc, Clean m.2.tokens) →
      canonical.canonicalMembers float64Text ms acc = .ok acc' → ∀ m ∈ acc', Clean m.2.tokens
    | [], _, _, _, hacc, h => by cases h; exact hacc
    | (k, v) :: ms, acc, _, hv, hacc, h => by
        obtain ⟨v', h1, h⟩ := except_bind_eq_ok.mp h
        refine members_clean ms _ _ (fun m hm => hv m (List.mem_cons_of_mem _ hm)) ?_ h
        intro m hm
        rcases mem_insertMember hm with rfl | hm
        · exact canonical_clean hf v v' (hv _ (List.mem_cons_self _ _)) h1
        · exact hacc m hm

theorem contentCanonical_clean (hf : NumbersWellFormed float64Text) {content : Option String}
    {v : Value} (h : contentCanonical float64Text content = .ok v) : Clean v.tokens := by
  unfold contentCanonical at h
  split at h
  · cases h
    exact clean_array (by simp)
  · split at h
    · cases h
      exact clean_array (by simp)
    · split at h
      · rename_i hr
        exact canonical_clean float64Text hf _ _ (readValue_tokens hr).2 h
      · cases h

/-! ## What the checksum depends on -/

/-- The checksum does not read the checksum and the signature. -/
@[simp] theorem computeChecksum_cs_signature (c : Config) (cs sig : String) :
    computeChecksum float64Text sha256 ⟨{ c.meta with cs := cs, signature := sig }, c.content⟩ =
      computeChecksum float64Text sha256 c :=
  rfl

/-- The checksum is computed whenever the content has a canonical form. -/
theorem computeChecksum_ok {c : Config} {v : Value}
    (h : contentCanonical float64Text c.content = .ok v) :
    ∃ cs, computeChecksum float64Text sha256 c = .ok cs := by
  unfold computeChecksum canonicalConfig
  rw [h]
  exact ⟨_, rfl⟩

/-- A config given the checksum of its content and metadata validates. -/
theorem validate_setChecksum {c : Config} {cs : String}
    (h : computeChecksum float64Text sha256 c = .ok cs) :
    validate float64Text sha256 ⟨{ c.meta with cs := cs }, c.content⟩ = .ok () := by
  unfold validate
  rw [computeChecksum_cs_signature float64Text sha256 c cs c.meta.signature, h]
  simp

theorem readValue_ne_nil {s : List Char} {ls : List Lexeme} {v : Value}
    (h : readValue s = some (ls, v)) : s ≠ [] := by
  rintro rfl
  simp [readValue, lex, Lexer.init, Lexer.run, Lexer.finish, parse, parseValue] at h

/-- Reading a content back from its JSON does not change its canonical form. -/
theorem contentCanonical_marshalled {s0 s : String}
    (h : marshalledContent (some s0) = .ok s) :
    contentCanonical float64Text (some s) = contentCanonical float64Text (some s0) := by
  obtain ⟨v, hv, rfl⟩ : ∃ v, marshalWith "json.RawMessage" (rawMessageJSON (some s0)) = .ok v ∧
      String.mk (render (bare v.tokens) []) = s := by
    unfold marshalledContent at h
    cases hm : marshalWith "json.RawMessage" (rawMessageJSON (some s0)) with
    | error e => rw [hm] at h; cases h
    | ok v => rw [hm] at h; exact ⟨v, rfl, Except.ok.inj h⟩
  obtain ⟨b, ls, v', hb, hr, rfl⟩ := marshalWith_eq_ok.mp hv
  obtain rfl : s0.data = b := Except.ok.inj hb
  have hval := (readValue_tokens hr).2
  have hr' := readValue_render_compact (bare_map_snd _) (bare_ws _)
    (fun t ht => (clean_html hval t ht).1)
  simp only [contentCanonical, if_neg (readValue_ne_nil hr), if_neg (readValue_ne_nil hr'), hr, hr']
  exact canonical_html float64Text v' hval

/-- The checksum of a config read back from its JSON is the checksum of the
config, as long as its content is not nil. -/
theorem computeChecksum_reread {c : Config} {s0 s : String} (hc : c.content = some s0)
    (hs : marshalledContent c.content = .ok s) :
    computeChecksum float64Text sha256 c.reread = computeChecksum float64Text sha256 c := by
  rw [hc] at hs
  have h := contentCanonical_marshalled float64Text hs
  simp only [computeChecksum, canonicalConfig, Config.reread, hc, hs, Except.toOption, h]

/-- The indented text of a content has the canonical form of the content. -/
theorem contentCanonical_indent {s0 : String} {cv : Value}
    (hcv : marshalWith "json.RawMessage" (rawMessageJSON (some s0)) = .ok cv) (d : Nat) :
    contentCanonical float64Text (some (String.mk (indentAt d cv.tokens))) =
      contentCanonical float64Text (some s0) := by
  obtain ⟨b, ls, v', hb, hr, rfl⟩ := marshalWith_eq_ok.mp hcv
  obtain rfl : s0.data = b := Except.ok.inj hb
  have hval := (readValue_tokens hr).2
  have hr' := readValue_indentAt (fun t ht => (clean_html hval t ht).1) d
  simp only [contentCanonical, if_neg (readValue_ne_nil hr), if_neg (readValue_ne_nil hr'), hr, hr']
  exact canonical_html float64Text v' hval

/-- A config whose content is replaced by its indented text keeps its checksum. -/
theorem computeChecksum_indent {c : Config} {s0 : String} {cv : Value} (hc : c.content = some s0)
    (hcv : marshalWith "json.RawMessage" (rawMessageJSON c.content) = .ok cv) (d : Nat) :
    computeChecksum float64Text sha256 ⟨c.meta, some (String.mk (indentAt d cv.tokens))⟩ =
      computeChecksum float64Text sha256 c := by
  rw [hc] at hcv
  simp only [computeChecksum, canonicalConfig, hc, contentCanonical_indent float64Text hcv]

/-- A config whose content is replaced by its indented text validates alike. -/
theorem validate_indent {c : Config} {s0 : String} {cv : Value} (hc : c.content = some s0)
    (hcv : marshalWith "json.RawMessage" (rawMessageJSON c.content) = .ok cv) (d : Nat) :
    validate float64Text sha256 ⟨c.meta, some (String.mk (indentAt d cv.tokens))⟩ =
      validate float64Text sha256 c := by
  unfold validate
  rw [computeChecksum_indent float64Text sha256 hc hcv d]

/-- What `updateMeta` produces validates. -/
theorem updateMeta_validate {now : GoTime} {c c' : Config}
    (h : updateMeta float64Text sha256 now c = .ok c') : validate float64Text sha256 c' = .ok () := by
  unfold updateMeta at h
  dsimp only at h
  split at h
  · cases h
  · rename_i cs hcs
    cases h
    have hc : computeChecksum float64Text sha256
        ⟨{ nextMeta now c.meta with cs := cs }, c.content⟩ = .ok cs := by
      simpa [nextMeta] using hcs
    simp [validate, hc]

/-! ## The bytes hashed determine the checksummed fields -/

/-- The canonical value of a config, once its content has a canonical form. -/
def canonicalValue (c : Config) (content : Value) : Value :=
  .object [("_meta".data, .object ([("cs".data, .str [])] ++ omitEmpty "prev_cs" c.meta.prevCS ++
      [("t".data, .str c.meta.time.utc.truncateMicro.formatRFC3339Nano),
        ("v".data, .num (decimal c.meta.version.toNat))])),
    ("content".data, content)]

theorem checksumBuf_eq_ok {c : Config} {b : String} :
    checksumBuf float64Text c = .ok b ↔ ∃ content, contentCanonical float64Text c.content = .ok content ∧
      b = ⟨render (bare (canonicalValue c content).tokens) [] ++
        c.meta.time.utc.truncateMicro.formatRFC3339Nano⟩ := by
  unfold checksumBuf canonicalConfig
  cases contentCanonical float64Text c.content with
  | error e => simp
  | ok content =>
      simp only [except_ok_bind, except_pure, Except.ok.injEq, true_and, exists_eq_left']
      exact eq_comm

theorem canonicalValue_clean (hf : NumbersWellFormed float64Text) {c : Config} {content : Value}
    (h : contentCanonical float64Text c.content = .ok content) :
    Clean (canonicalValue c content).tokens := by
  refine clean_object fun m hm => ?_
  simp only [List.mem_cons, List.mem_singleton, List.not_mem_nil, or_false] at hm
  rcases hm with rfl | rfl
  · refine ⟨(by decide : Plain "_meta".data), clean_object fun m hm => ?_⟩
    simp only [List.mem_append, List.mem_cons, List.mem_singleton, List.not_mem_nil,
      or_false] at hm
    rcases hm with (rfl | h) | rfl | rfl
    · exact ⟨(by decide : Plain "cs".data), clean_str rfl⟩
    · exact omitEmpty_plain (by decide) _ h
    · exact ⟨(by decide : Plain "t".data), clean_str (escape_formatRFC3339Nano _)⟩
    · exact ⟨(by decide : Plain "v".data), clean_num _⟩
  · exact ⟨(by decide : Plain "content".data), contentCanonical_clean float64Text hf h⟩

/-- The bytes hashed determine the version, the previous checksum, the
truncated instant and the canonical form of the content. -/
theorem checksumBuf_fields (hf : NumbersWellFormed float64Text) {c1 c2 : Config} {b : String}
    (h1 : checksumBuf float64Text c1 = .ok b) (h2 : checksumBuf float64Text c2 = .ok b) :
    c1.meta.version = c2.meta.version ∧ c1.meta.prevCS = c2.meta.prevCS ∧
      c1.meta.time.truncateMicro.unixNano = c2.meta.time.truncateMicro.unixNano ∧
      contentCanonical float64Text c1.content = contentCanonical float64Text c2.content := by
  obtain ⟨C1, hC1, rfl⟩ := (checksumBuf_eq_ok float64Text).mp h1
  obtain ⟨C2, hC2, hb⟩ := (checksumBuf_eq_ok float64Text).mp h2
  obtain ⟨X1, hX1⟩ : ∃ X, render (bare (canonicalValue c1 C1).tokens) [] = X ++ ['}'] :=
    render_object_end _
  obtain ⟨X2, hX2⟩ : ∃ X, render (bare (canonicalValue c2 C2).tokens) [] = X ++ ['}'] :=
    render_object_end _
  -- the canonical JSON ends at the last closing brace: the time has none
  have hd := congrArg String.data hb
  simp only [hX1, hX2, List.append_assoc, List.singleton_append] at hd
  obtain ⟨hX, -⟩ := append_cons_cancel_of_count hd
    (by rw [count_brace_formatRFC3339Nano, count_brace_formatRFC3339Nano])
  have e1 := readValue_render_compact (bare_map_snd _) (bare_ws _)
    (canonicalValue_clean float64Text hf hC1).valid
  have e2 := readValue_render_compact (bare_map_snd _) (bare_ws _)
    (canonicalValue_clean float64Text hf hC2).valid
  rw [hX1, hX] at e1
  rw [hX2, e1, Option.some.injEq, Prod.mk.injEq] at e2
  have hV := e2.2
  simp only [canonicalValue, Value.object.injEq, List.cons.injEq, Prod.mk.injEq, true_and,
    and_true] at hV
  obtain ⟨hmeta, hC⟩ := hV
  obtain ⟨hp, htv⟩ := List.append_inj' hmeta (by simp only [List.length_cons])
  simp only [List.append_cancel_left_eq] at hp
  simp only [List.cons.injEq, Prod.mk.injEq, Value.str.injEq, Value.num.injEq, true_and,
    and_true] at htv
  exact ⟨UInt64.toNat.inj (decimal_injective htv.2), omitEmpty_injective hp,
    @GoTime.formatRFC3339Nano_injective c1.meta.time.utc.truncateMicro
      c2.meta.time.utc.truncateMicro rfl rfl htv.1, by rw [hC1, hC2, hC]⟩

theorem validate_eq_ok {c : Config} :
    validate float64Text sha256 c = .ok () ↔
      ∃ b, checksumBuf float64Text c = .ok b ∧ hexEncode (sha256 b) = c.meta.cs := by
  unfold validate
  rw [computeChecksum_eq_buf]
  cases checksumBuf float64Text c with
  | error e => simp [Except.map]
  | ok b =>
      simp only [Except.map]
      split <;> simp_all

theorem checksumBuf_data_ne_nil {c : Config} {b : String}
    (h : checksumBuf float64Text c = .ok b) : b.data ≠ [] := by
  obtain ⟨C, -, rfl⟩ := (checksumBuf_eq_ok float64Text).mp h
  obtain ⟨X, hX⟩ : ∃ X, render (bare (canonicalValue c C).tokens) [] = X ++ ['}'] :=
    render_object_end _
  simp [hX]

/-- A config without checksum never validates, under a digest of non-empty texts
that is never empty. -/
theorem validate_empty_cs (hsha : ∀ s : String, s.data ≠ [] → sha256 s ≠ []) {c : Config}
    (hcs : c.meta.cs = "") : validate float64Text sha256 c ≠ .ok () := fun hv => by
  obtain ⟨b, hb, hx⟩ := (validate_eq_ok float64Text sha256).mp hv
  obtain ⟨x, xs, hxs⟩ := List.exists_cons_of_ne_nil (hsha b (checksumBuf_data_ne_nil float64Text hb))
  rw [hcs, hxs] at hx
  have := congrArg String.data hx
  simp [hexEncode] at this

/-- With a collision-free digest, two configs that validate with one checksum name
one previous checksum. -/
theorem prevCS_eq_of_cs_eq (hf : NumbersWellFormed float64Text)
    (hsha : Function.Injective sha256) {c1 c2 : Config}
    (h1 : validate float64Text sha256 c1 = .ok ()) (h2 : validate float64Text sha256 c2 = .ok ())
    (hcs : c1.meta.cs = c2.meta.cs) : c1.meta.prevCS = c2.meta.prevCS := by
  obtain ⟨b1, hb1, hx1⟩ := (validate_eq_ok float64Text sha256).mp h1
  obtain ⟨b2, hb2, hx2⟩ := (validate_eq_ok float64Text sha256).mp h2
  obtain rfl : b1 = b2 := hsha (hexEncode_injective (hx1.trans (hcs.trans hx2.symm)))
  exact (checksumBuf_fields float64Text hf hb1 hb2).2.1

/-- **The checksum binds the checksummed fields.**  Two configs that differ in
their version, their previous checksum, their instant truncated to microseconds
or the canonical form of their content never hash the same bytes; so, with a
collision-free digest, a config that keeps the checksum of another that
validates, and differs from it in one of these, fails `Validate`. -/
theorem checksum_binds_fields (hf : NumbersWellFormed float64Text)
    (hsha : Function.Injective sha256) {c1 c2 : Config}
    (hdiff : c1.meta.version ≠ c2.meta.version ∨ c1.meta.prevCS ≠ c2.meta.prevCS ∨
      c1.meta.time.truncateMicro.unixNano ≠ c2.meta.time.truncateMicro.unixNano ∨
      contentCanonical float64Text c1.content ≠ contentCanonical float64Text c2.content) :
    (∀ b, checksumBuf float64Text c1 = .ok b → checksumBuf float64Text c2 ≠ .ok b) ∧
      (validate float64Text sha256 c1 = .ok () → c2.meta.cs = c1.meta.cs →
        validate float64Text sha256 c2 ≠ .ok ()) := by
  have hbuf : ∀ b, checksumBuf float64Text c1 = .ok b → checksumBuf float64Text c2 ≠ .ok b :=
    fun b h1 h2 => by
      obtain ⟨e1, e2, e3, e4⟩ := checksumBuf_fields float64Text hf h1 h2
      rcases hdiff with h | h | h | h
      exacts [h e1, h e2, h e3, h e4]
  refine ⟨hbuf, fun hv1 hcs hv2 => ?_⟩
  obtain ⟨b1, hb1, hcs1⟩ := (validate_eq_ok float64Text sha256).mp hv1
  obtain ⟨b2, hb2, hcs2⟩ := (validate_eq_ok float64Text sha256).mp hv2
  obtain rfl : b2 = b1 := hsha (hexEncode_injective (hcs2.trans (hcs.trans hcs1.symm)))
  exact hbuf b2 hb1 hb2

theorem numbersWellFormed_some : NumbersWellFormed fun t => some t :=
  fun _ _ h e => by cases e; exact h

/-- `checksum_binds_fields` for two versions of one content. -/
theorem checksum_binds_fields_versions :
    let c1 : Config := ⟨⟨1, ⟨0, 0⟩, "", "", ""⟩, some "[1]"⟩
    let c2 : Config := ⟨⟨2, ⟨0, 0⟩, "", "", ""⟩, some "[1]"⟩
    (NumbersWellFormed (fun t => some t) ∧ Function.Injective codePointDigest ∧
      (c1.meta.version ≠ c2.meta.version ∨ c1.meta.prevCS ≠ c2.meta.prevCS ∨
        c1.meta.time.truncateMicro.unixNano ≠ c2.meta.time.truncateMicro.unixNano ∨
        contentCanonical (fun t => some t) c1.content ≠
          contentCanonical (fun t => some t) c2.content)) ∧
    (∀ b, checksumBuf (fun t => some t) c1 = .ok b → checksumBuf (fun t => some t) c2 ≠ .ok b) ∧
      (validate (fun t => some t) codePointDigest c1 = .ok () → c2.meta.cs = c1.meta.cs →
        validate (fun t => some t) codePointDigest c2 ≠ .ok ()) := by
  intro c1 c2
  have hdiff : c1.meta.version ≠ c2.meta.version ∨ c1.meta.prevCS ≠ c2.meta.prevCS ∨
      c1.meta.time.truncateMicro.unixNano ≠ c2.meta.time.truncateMicro.unixNano ∨
      contentCanonical (fun t => some t) c1.content ≠
        contentCanonical (fun t => some t) c2.content := .inl (by decide)
  exact ⟨⟨numbersWellFormed_some, codePointDigest_injective, hdiff⟩,
    checksum_binds_fields _ _ numbersWellFormed_some codePointDigest_injective hdiff⟩

/-- **Different contents, the same bytes.**  The escape of an unpaired surrogate
and that of U+FFFD are different JSON strings, which `json.Unmarshal` reads alike;
an absent content and the empty array are hashed alike too. -/
theorem checksumBuf_collides_contents :
    (∀ float64Text, ∃ b,
      checksumBuf float64Text ⟨⟨1, ⟨0, 0⟩, "", "", ""⟩, some "\"\\ud800\""⟩ = .ok b ∧
      checksumBuf float64Text ⟨⟨1, ⟨0, 0⟩, "", "", ""⟩, some "\"\\ufffd\""⟩ = .ok b) ∧
    (∀ float64Text, ∃ b,
      checksumBuf float64Text ⟨⟨1, ⟨0, 0⟩, "", "", ""⟩, none⟩ = .ok b ∧
      checksumBuf float64Text ⟨⟨1, ⟨0, 0⟩, "", "", ""⟩, some "[]"⟩ = .ok b) := by
  have hs : ∀ f, contentCanonical f (some "\"\\ud800\"") = .ok (.str ['\uFFFD']) := fun _ => rfl
  have hu : ∀ f, contentCanonical f (some "\"\\ufffd\"") = .ok (.str ['\uFFFD']) := fun _ => rfl
  have he : ∀ f, contentCanonical f (some "[]") = .ok (.array []) := fun _ => rfl
  have hn : ∀ f, contentCanonical f none = .ok (.array []) := fun _ => rfl
  have hbuf : ∀ f c, ∀ v, contentCanonical f c.content = .ok v →
      checksumBuf f c = .ok ⟨render (bare (canonicalValue c v).tokens) [] ++
        c.meta.time.utc.truncateMicro.formatRFC3339Nano⟩ := fun f c v h =>
    (checksumBuf_eq_ok f).mpr ⟨v, h, rfl⟩
  exact ⟨fun f => ⟨_, hbuf f _ _ (hs f), hbuf f _ _ (hu f)⟩,
    fun f => ⟨_, hbuf f _ _ (hn f), hbuf f _ _ (he f)⟩⟩

end Canonical

end Viracochan
