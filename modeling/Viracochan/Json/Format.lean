import Viracochan.Json.Value
import Viracochan.Json.Strings

/-!
# Viracochan: compacting and indenting JSON text

The decoder's front end (`readValue`: the text must be exactly one value with
whitespace around it, as `checkValid` demands), and the two rewritings of
valid text that the library performs through `encoding/json`:

* compacting: what `json.Marshal` does to the bytes of a `json.RawMessage`,
  dropping whitespace and escaping `<`, `>`, `&`, U+2028 and U+2029 inside
  strings (Go's `appendCompact` with `escape = true`), done by `marshalWith`
  over the tokens `readValue` reads;
* `indent`: what `json.MarshalIndent(v, "", "  ")` does to the compact
  encoding of `v` (Go's `appendIndent`): a newline and the indentation of the
  depth before each element and member and before a closing bracket of a
  non-empty container, and a space after each colon.

Both are written over tokens; the text is the rendering of the result.

**Results.**

* `readValue_render`: a value's tokens, rendered with any whitespace, are
  read back as that value.
* `render_bare_toNat`: text without whitespace between well-formed tokens has
  no control character, so it is one line.
-/

namespace Viracochan
namespace Json

/-- The decoder's front end: the lexemes of a text that is exactly one value,
and that value. -/
def readValue (s : List Char) : Option (List Lexeme × Value) :=
  match lex s with
  | some (ls, _) => (parse ls).map fun v => (ls, v)
  | none => none

/-- The text of the error `checkValid` and `compact` report on text that is
not one JSON value. -/
def syntaxError : String :=
  "invalid character in JSON input"

/-- A token with its string body re-escaped for HTML. -/
def Token.html : Token → Token
  | .str raw => .str (htmlEscape raw)
  | t => t

/-- Lexemes without whitespace. -/
def bare (ts : List Token) : List Lexeme :=
  ts.map fun t => ([], t)

/-! ## Reading back -/

theorem bare_map_snd (ts : List Token) : (bare ts).map Prod.snd = ts := by
  simp [bare]

theorem bare_ws (ts : List Token) : ∀ l ∈ bare ts, ∀ c ∈ l.1, isSpace c := by
  simp [bare]

/-- A value's tokens, rendered with any whitespace, are read back as that value. -/
theorem readValue_render {v : Value} {ls : List Lexeme} {trail : List Char}
    (hls : ls.map Prod.snd = v.tokens) (hws : ∀ l ∈ ls, ∀ c ∈ l.1, isSpace c)
    (hvalid : ∀ t ∈ v.tokens, t.valid) (htrail : ∀ c ∈ trail, isSpace c) :
    readValue (render ls trail) = some (ls, v) := by
  simp [readValue, lex_render (Value.wellFormed hls hws hvalid htrail), parse_of_tokens hls]

/-- `readValue_render` for a rendering without trailing whitespace. -/
theorem readValue_render_compact {v : Value} {ls : List Lexeme}
    (hls : ls.map Prod.snd = v.tokens) (hws : ∀ l ∈ ls, ∀ c ∈ l.1, isSpace c)
    (hvalid : ∀ t ∈ v.tokens, t.valid) : readValue (render ls []) = some (ls, v) :=
  readValue_render hls hws hvalid (by simp)

theorem readValue_tokens {s : List Char} {ls : List Lexeme} {v : Value}
    (h : readValue s = some (ls, v)) : ls.map Prod.snd = v.tokens ∧ ∀ t ∈ v.tokens, t.valid := by
  unfold readValue at h
  split at h
  · rename_i ls' trail hlex
    simp only [Option.map_eq_some', Prod.mk.injEq] at h
    obtain ⟨v', hp, rfl, rfl⟩ := h
    have hv := parse_sound_tokens hp
    refine ⟨hv, fun t ht => ?_⟩
    rw [← hv] at ht
    obtain ⟨l, hl, rfl⟩ := List.mem_map.mp ht
    exact lex_valid hlex l hl
  · simp at h

/-! ## Compacting -/

/-- A value with its strings re-escaped for HTML. -/
def Value.html : Value → Value
  | .str raw => .str (htmlEscape raw)
  | .num t => .num t
  | .lit t => .lit t
  | .array items => .array (htmlItems items)
  | .object ms => .object (htmlMembers ms)
where
  /-- The items, re-escaped. -/
  htmlItems : List Value → List Value
    | [] => []
    | v :: vs => v.html :: htmlItems vs
  /-- The members, keys and values re-escaped. -/
  htmlMembers : List (List Char × Value) → List (List Char × Value)
    | [] => []
    | (k, v) :: ms => (htmlEscape k, v.html) :: htmlMembers ms

theorem Value.html_tokens : ∀ v : Value, v.html.tokens = v.tokens.map Token.html
  | .str _ | .num _ | .lit _ => rfl
  | .array [] => rfl
  | .array (v :: vs) => by
      simp [html, html.htmlItems, tokens, html_tokens v, elemsTail_html vs, Token.html]
  | .object [] => rfl
  | .object ((k, v) :: ms) => by
      simp [html, html.htmlMembers, tokens, html_tokens v, membersTail_html ms, Token.html]
where
  elemsTail_html : ∀ vs : List Value,
      tokens.elemsTail (html.htmlItems vs) = (tokens.elemsTail vs).map Token.html
    | [] => rfl
    | v :: vs => by
        simp [html.htmlItems, tokens.elemsTail, html_tokens v, elemsTail_html vs, Token.html]
  membersTail_html : ∀ ms : List (List Char × Value),
      tokens.membersTail (html.htmlMembers ms) = (tokens.membersTail ms).map Token.html
    | [] => rfl
    | (k, v) :: ms => by
        simp [html.htmlMembers, tokens.membersTail, html_tokens v, membersTail_html ms,
          Token.html]

theorem Token.valid_html {t : Token} (ht : t.valid) : t.html.valid := by
  cases t <;> first | exact ht | exact validRaw_htmlEscape ht

theorem Token.html_html (t : Token) : t.html.html = t.html := by
  cases t <;> simp [html, htmlEscape_htmlEscape]

/-! ## Indenting -/

/-- Where `appendIndent` is: the depth, whether a container was just opened
(its indentation is delayed so that `{}` and `[]` stay empty), and the
whitespace owed before the next token. -/
structure Indenter where
  depth : Nat
  opened : Bool
  pending : List Char
deriving DecidableEq, Repr

/-- A newline and the indentation of depth `d` (the prefix is empty). -/
def newline (unit : List Char) (d : Nat) : List Char :=
  '\n' :: (List.replicate d unit).flatten

/-- A closing bracket or brace. -/
def Token.isClose (t : Token) : Bool :=
  t = .endObject || t = .endArray

namespace Indenter

/-- One token: the whitespace written before it, and the state after it. -/
def step (unit : List Char) (st : Indenter) (t : Token) : Lexeme × Indenter :=
  let st := if st.opened && !t.isClose then ⟨st.depth + 1, false, newline unit (st.depth + 1)⟩
    else st
  match t with
  | .beginObject | .beginArray => ((st.pending, t), ⟨st.depth, true, []⟩)
  | .comma => ((st.pending, t), ⟨st.depth, false, newline unit st.depth⟩)
  | .colon => ((st.pending, t), ⟨st.depth, false, [' ']⟩)
  | .endObject | .endArray =>
      if st.opened then (([], t), ⟨st.depth, false, []⟩)
      else ((newline unit (st.depth - 1), t), ⟨st.depth - 1, false, []⟩)
  | t => ((st.pending, t), ⟨st.depth, false, []⟩)

/-- The lexemes of a token sequence. -/
def run (unit : List Char) : Indenter → List Token → List Lexeme
  | _, [] => []
  | st, t :: ts => (st.step unit t).1 :: run unit (st.step unit t).2 ts

/-- The state after a token sequence. -/
def final (unit : List Char) : Indenter → List Token → Indenter
  | st, [] => st
  | st, t :: ts => final unit (st.step unit t).2 ts

end Indenter

/-- The text `json.MarshalIndent(v, "", "  ")` writes for tokens that start at
depth `d`, without the whitespace owed before them. -/
def indentAt (d : Nat) (ts : List Token) : List Char :=
  render (Indenter.run "  ".data ⟨d, false, []⟩ ts) []

/-- `json.MarshalIndent(v, "", "  ")`, given the tokens of `json.Marshal(v)`. -/
def indent (ts : List Token) : List Char :=
  indentAt 0 ts

namespace Indenter

variable (unit : List Char)

theorem step_snd (st : Indenter) (t : Token) : (st.step unit t).1.2 = t := by
  unfold step
  cases t <;> simp <;> split <;> (try split) <;> rfl

theorem run_map_snd (st : Indenter) (ts : List Token) : (run unit st ts).map Prod.snd = ts := by
  induction ts generalizing st with
  | nil => rfl
  | cons t ts ih => simp [run, step_snd, ih]

theorem run_append (st : Indenter) (xs ys : List Token) :
    run unit st (xs ++ ys) = run unit st xs ++ run unit (final unit st xs) ys := by
  induction xs generalizing st with
  | nil => rfl
  | cons t xs ih => simp [run, final, ih]

theorem final_append (st : Indenter) (xs ys : List Token) :
    final unit st (xs ++ ys) = final unit (final unit st xs) ys := by
  induction xs generalizing st with
  | nil => rfl
  | cons t xs ih => simp [final, ih]

end Indenter

namespace Indenter

variable (unit : List Char)

/-- The whitespace owed before a token is written before it and then
forgotten: what follows does not depend on it. -/
theorem run_cons_pending (d : Nat) (p : List Char) {t : Token} (ht : t.isClose = false)
    (ts : List Token) :
    run unit ⟨d, false, p⟩ (t :: ts) = (p, t) :: (run unit ⟨d, false, []⟩ (t :: ts)).tail := by
  cases t <;> simp_all [run, step, Token.isClose]

theorem Value.head_not_close (v : Value) : ∃ t ts, v.tokens = t :: ts ∧ t.isClose = false := by
  obtain ⟨t, ts, h, h1, h2⟩ := v.tokens_head
  exact ⟨t, ts, h, by simp [Token.isClose, h1, h2]⟩

theorem step_opened (d : Nat) {t : Token} (ht : t.isClose = false) :
    step unit ⟨d, true, []⟩ t = step unit ⟨d + 1, false, newline unit (d + 1)⟩ t := by
  simp [step, ht]

theorem final_opened (d : Nat) {t : Token} (ht : t.isClose = false) (ts : List Token) :
    final unit ⟨d, true, []⟩ (t :: ts) = final unit ⟨d + 1, false, newline unit (d + 1)⟩ (t :: ts) := by
  simp only [final, step_opened unit d ht]

theorem final_comma (d : Nat) (p : List Char) (ts : List Token) :
    final unit ⟨d, false, p⟩ (.comma :: ts) = final unit ⟨d, false, newline unit d⟩ ts := rfl

theorem final_colon (d : Nat) (p : List Char) (ts : List Token) :
    final unit ⟨d, false, p⟩ (.colon :: ts) = final unit ⟨d, false, [' ']⟩ ts := rfl

theorem final_str (d : Nat) (p k : List Char) (ts : List Token) :
    final unit ⟨d, false, p⟩ (.str k :: ts) = final unit ⟨d, false, []⟩ ts := rfl

theorem final_begin (d : Nat) (p : List Char) (t : Token) (ts : List Token)
    (ht : t = .beginArray ∨ t = .beginObject) :
    final unit ⟨d, false, p⟩ (t :: ts) = final unit ⟨d, true, []⟩ ts := by
  rcases ht with rfl | rfl <;> rfl

/-- A value is written from depth `d` back to depth `d`, owing nothing. -/
theorem final_value : ∀ (v : Value) (d : Nat) (p : List Char),
    final unit ⟨d, false, p⟩ v.tokens = ⟨d, false, []⟩
  | .str _, _, _ | .num _, _, _ | .lit _, _, _ => rfl
  | .array [], _, _ => rfl
  | .array (v :: vs), d, p => by
      obtain ⟨t, ts, hv, ht⟩ := Value.head_not_close v
      have h := final_value v (d + 1) (newline unit (d + 1))
      simp only [Value.tokens, List.cons_append]
      rw [final_begin unit d p _ _ (.inl rfl), hv, List.cons_append, final_opened unit d ht,
        ← List.cons_append, ← hv, final_append, h, elemsTail_final]
  | .object [], _, _ => rfl
  | .object ((k, v) :: ms), d, p => by
      simp only [Value.tokens, List.cons_append]
      rw [final_begin unit d p _ _ (.inr rfl), final_opened unit d (t := .str k) rfl, final_str, final_colon,
        final_append, final_value v (d + 1), membersTail_final]
where
  elemsTail_final : ∀ (vs : List Value) (d : Nat),
      final unit ⟨d + 1, false, []⟩ (Value.tokens.elemsTail vs) = ⟨d, false, []⟩
    | [], d => rfl
    | v :: vs, d => by
        simp only [Value.tokens.elemsTail, List.cons_append]
        rw [final_comma, final_append, final_value v (d + 1), elemsTail_final vs d]
  membersTail_final : ∀ (ms : List (List Char × Value)) (d : Nat),
      final unit ⟨d + 1, false, []⟩ (Value.tokens.membersTail ms) = ⟨d, false, []⟩
    | [], d => rfl
    | (k, v) :: ms, d => by
        simp only [Value.tokens.membersTail, List.cons_append]
        rw [final_comma, final_str, final_colon, final_append, final_value v (d + 1),
          membersTail_final ms d]

/-- The indenter writes only newlines and copies of the unit as whitespace. -/
theorem run_ws {unit : List Char} (hu : ∀ c ∈ unit, isSpace c) :
    ∀ (st : Indenter) (ts : List Token), (∀ c ∈ st.pending, isSpace c) →
      ∀ l ∈ run unit st ts, ∀ c ∈ l.1, isSpace c
  | _, [], _ => by simp [run]
  | st, t :: ts, hp => by
      have hnl : ∀ d, ∀ c ∈ newline unit d, isSpace c := by
        intro d c hc
        simp only [newline, List.mem_cons, List.mem_flatten, List.mem_replicate] at hc
        rcases hc with rfl | ⟨l, ⟨-, rfl⟩, hc⟩
        · rfl
        · exact hu c hc
      have hstep : (∀ c ∈ (st.step unit t).1.1, isSpace c) ∧
          ∀ c ∈ (st.step unit t).2.pending, isSpace c := by
        unfold step
        generalize hs : (if st.opened && !t.isClose then
          (⟨st.depth + 1, false, newline unit (st.depth + 1)⟩ : Indenter) else st) = st'
        have hp' : ∀ c ∈ st'.pending, isSpace c := by
          subst hs
          split
          exacts [hnl _, hp]
        cases t <;> simp only [] <;> (try split) <;>
          exact ⟨by first | exact hp' | exact hnl _ | simp, by first | exact hnl _ | simp [isSpace]⟩
      simp only [run, List.mem_cons, forall_eq_or_imp]
      exact ⟨hstep.1, run_ws hu _ ts hstep.2⟩

/-- With nothing owed, the first token of a value is written with no
whitespace before it. -/
theorem run_head (d : Nat) {t : Token} (ht : t.isClose = false) (ts : List Token) :
    run unit ⟨d, false, []⟩ (t :: ts) = ([], t) :: (run unit ⟨d, false, []⟩ (t :: ts)).tail := by
  cases t <;> simp_all [run, step, Token.isClose]

end Indenter

/-- An indented value is read back as that value, its lexemes being the
indenter's. -/
theorem readValue_indentAt {v : Value} (hv : ∀ t ∈ v.tokens, t.valid) (d : Nat) :
    readValue (indentAt d v.tokens) = some (Indenter.run "  ".data ⟨d, false, []⟩ v.tokens, v) :=
  readValue_render (Indenter.run_map_snd _ _ _)
    (Indenter.run_ws (by decide) _ _ (by simp)) hv (by simp)

/-! ## No control characters

Every character of a well-formed token is at least U+0020: string bodies
escape control characters, and numbers and literals are printable.  So the
compact rendering of tokens has no newline and no carriage return. -/

theorem isHexDigit_toNat {c : Char} (h : isHexDigit c) : 0x20 ≤ c.toNat := by
  simp only [isHexDigit, Bool.or_eq_true, Bool.and_eq_true, decide_eq_true_eq] at h
  rcases h with (h | ⟨h, -⟩) | ⟨h, -⟩
  · have := Lexer.isDigit_toNat h; omega
  · have : 97 ≤ c.toNat := h; omega
  · have : 65 ≤ c.toNat := h; omega

theorem isSimpleEscape_toNat {c : Char} (h : isSimpleEscape c) : 0x20 ≤ c.toNat := by
  simp only [isSimpleEscape, Bool.or_eq_true, decide_eq_true_eq] at h
  rcases h with ((((((rfl | rfl) | rfl) | rfl) | rfl) | rfl) | rfl) | rfl <;> decide

theorem isNumberChar_toNat {c : Char} (h : isNumberChar c) : 0x20 ≤ c.toNat := by
  simp only [isNumberChar, Bool.or_eq_true, decide_eq_true_eq] at h
  rcases h with ((((h | rfl) | rfl) | rfl) | rfl) | rfl
  · have := Lexer.isDigit_toNat h; omega
  all_goals decide

theorem validRaw_toNat {raw : List Char} (h : validRaw raw) : ∀ c ∈ raw, 0x20 ≤ c.toNat := by
  induction raw using validRaw.induct with
  | case1 => simp
  | case2 a b c d r ih =>
      simp only [validRaw, if_true, Bool.and_eq_true] at h
      obtain ⟨⟨⟨⟨ha, hb⟩, hc⟩, hd⟩, hr⟩ := h
      simp only [List.forall_mem_cons]
      exact ⟨by decide, by decide, isHexDigit_toNat ha, isHexDigit_toNat hb,
        isHexDigit_toNat hc, isHexDigit_toNat hd, ih hr⟩
  | case3 r hr =>
      simp only [validRaw, if_true] at h
      cases h
  | case4 e r he ih =>
      unfold validRaw at h
      simp only [he, ↓reduceIte, Bool.and_eq_true] at h
      simp only [List.forall_mem_cons]
      exact ⟨by decide, isSimpleEscape_toNat h.1, ih h.2⟩
  | case5 => simp [validRaw] at h
  | case6 c r hc ih =>
      unfold validRaw at h
      simp only [hc, ↓reduceIte, Bool.and_eq_true, decide_eq_true_eq] at h
      simp only [List.forall_mem_cons]
      exact ⟨h.1.2, ih h.2⟩

theorem Token.text_toNat {t : Token} (h : t.valid) : ∀ c ∈ t.text, 0x20 ≤ c.toNat := by
  cases t with
  | str raw =>
      intro c hc
      simp only [Token.text, List.mem_cons, List.mem_append, List.not_mem_nil, or_false] at hc
      rcases hc with (rfl | hc) | rfl
      · decide
      · exact validRaw_toNat h c hc
      · decide
  | num t =>
      simp only [Token.valid, Bool.and_eq_true, List.all_eq_true] at h
      exact fun c hc => isNumberChar_toNat (h.2 c hc)
  | lit t =>
      simp only [Token.valid, isLiteral, Bool.or_eq_true, decide_eq_true_eq] at h
      rcases h with (rfl | rfl) | rfl <;> decide
  | _ => decide

theorem render_bare (ts : List Token) : render (bare ts) [] = ts.flatMap Token.text := by
  simp [render, bare, List.flatMap_map]

theorem membersTail_end : ∀ ms : List (List Char × Value),
    ∃ ts, Value.tokens.membersTail ms = ts ++ [.endObject]
  | [] => ⟨[], rfl⟩
  | (k, v) :: ms => by
      obtain ⟨ts, h⟩ := membersTail_end ms
      exact ⟨.comma :: .str k :: .colon :: v.tokens ++ ts, by simp [Value.tokens.membersTail, h]⟩

/-- The text of an object ends with its closing brace. -/
theorem render_object_end (ms : List (List Char × Value)) :
    ∃ X, render (bare (Value.object ms).tokens) [] = X ++ ['}'] := by
  obtain ⟨ts, h⟩ : ∃ ts, (Value.object ms).tokens = ts ++ [.endObject] := by
    match ms with
    | [] => exact ⟨[.beginObject], rfl⟩
    | (k, v) :: ms =>
        obtain ⟨ts, h⟩ := membersTail_end ms
        exact ⟨.beginObject :: .str k :: .colon :: v.tokens ++ ts, by simp [Value.tokens, h]⟩
  exact ⟨_, by rw [render_bare, h, List.flatMap_append]; rfl⟩

theorem render_bare_toNat {ts : List Token} (h : ∀ t ∈ ts, t.valid) :
    ∀ c ∈ render (bare ts) [], 0x20 ≤ c.toNat := by
  simp only [render_bare, List.mem_flatMap]
  rintro c ⟨t, ht, hc⟩
  exact Token.text_toNat (h t ht) c hc

end Json
end Viracochan
