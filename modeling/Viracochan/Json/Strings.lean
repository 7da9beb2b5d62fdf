import Viracochan.Json.Lexer

/-!
# Viracochan: JSON string literals

How `encoding/json` writes a Go string (`appendString`, with HTML escaping as
`json.Marshal` has it), how `compact` re-escapes the strings of a raw message
(`htmlEscape`), and how the decoder reads a string literal back (`unquote`).
Escapes follow the encoder of Go 1.22: `\b` and `\f` are written as such,
other control characters, `<`, `>` and `&` as `\u00XX`, and U+2028 and U+2029
as `\u2028` and `\u2029`.  Text is a list of Unicode scalar values, so the
replacement of invalid UTF-8 by U+FFFD does not arise.

**Results.**

* `unquote_escape`: reading back what the encoder wrote gives the string.
* `unquote_htmlEscape`: re-escaping a literal's body does not change the
  string it denotes.
* `validRaw_escape`, `validRaw_htmlEscape`: both produce bodies the lexer
  accepts.
-/

namespace Viracochan
namespace Json

/-- The lowercase hexadecimal digit of `n < 16`. -/
def hexDigit (n : Nat) : Char :=
  Nat.digitChar n

/-- The value of a hexadecimal digit. -/
def hexValue (c : Char) : Nat :=
  if c.isDigit then c.toNat - 48
  else if 'a' ≤ c && c ≤ 'f' then c.toNat - 87
  else c.toNat - 55

/-- The code unit of four hexadecimal digits. -/
def hex4 (a b c d : Char) : Nat :=
  ((hexValue a * 16 + hexValue b) * 16 + hexValue c) * 16 + hexValue d

/-- `\u00XX` for a character below U+0100. -/
def escapeU00 (c : Char) : List Char :=
  ['\\', 'u', '0', '0', hexDigit (c.toNat / 16), hexDigit (c.toNat % 16)]

/-- How `appendString` writes one character. -/
def escapeChar (c : Char) : List Char :=
  if c = '\\' || c = '"' then ['\\', c]
  else if c = '\x08' then ['\\', 'b']
  else if c = '\x0c' then ['\\', 'f']
  else if c = '\n' then ['\\', 'n']
  else if c = '\r' then ['\\', 'r']
  else if c = '\t' then ['\\', 't']
  else if c.toNat < 0x20 || c = '<' || c = '>' || c = '&' then escapeU00 c
  else if c = '\u2028' || c = '\u2029' then ['\\', 'u', '2', '0', '2', hexDigit (c.toNat % 16)]
  else [c]

/-- The body of the literal `appendString` writes for `s`. -/
def escape (s : List Char) : List Char :=
  s.flatMap escapeChar

/-- How `compact` re-escapes one character of a literal's body. -/
def htmlChar (c : Char) : List Char :=
  if c = '<' || c = '>' || c = '&' then escapeU00 c
  else if c = '\u2028' || c = '\u2029' then ['\\', 'u', '2', '0', '2', hexDigit (c.toNat % 16)]
  else [c]

/-- `compact` with HTML escaping, on the body of a string literal. -/
def htmlEscape (raw : List Char) : List Char :=
  raw.flatMap htmlChar

/-- The character a one-letter escape stands for. -/
def unescapeChar (e : Char) : Char :=
  if e = 'b' then '\x08'
  else if e = 'f' then '\x0c'
  else if e = 'n' then '\n'
  else if e = 'r' then '\r'
  else if e = 't' then '\t'
  else e

/-- Where `unquote` is in a literal's body: between characters, after a
backslash, inside `\u` with `n` digits read, and the same three after the
escape of a surrogate `h`, where a second escape may complete a pair. -/
inductive Unquote where
  | plain
  | esc
  | hex (n u : Nat)
  | high (h : Nat)
  | highEsc (h : Nat)
  | highHex (h n u : Nat)
deriving DecidableEq, Repr

namespace Unquote

/-- A surrogate code unit. -/
def isSurrogate (u : Nat) : Bool :=
  0xD800 ≤ u && u < 0xE000

/-- A complete `\u` escape of code unit `u`: a surrogate waits for what follows. -/
def unit (u : Nat) : Unquote × List Char :=
  if isSurrogate u then (high u, []) else (plain, [Char.ofNat u])

/-- One character of the body, and the characters it completes. -/
def step : Unquote → Char → Unquote × List Char
  | plain, c => if c = '\\' then (esc, []) else (plain, [c])
  | esc, c => if c = 'u' then (hex 0 0, []) else (plain, [unescapeChar c])
  | hex n u, c => if n = 3 then unit (u * 16 + hexValue c) else (hex (n + 1) (u * 16 + hexValue c), [])
  | high h, c => if c = '\\' then (highEsc h, []) else (plain, ['\uFFFD', c])
  | highEsc h, c =>
      if c = 'u' then (highHex h 0 0, []) else (plain, ['\uFFFD', unescapeChar c])
  | highHex h n u, c =>
      if !isHexDigit c then (plain, ['\uFFFD'])
      else if n < 3 then (highHex h (n + 1) (u * 16 + hexValue c), [])
      else
        let v := u * 16 + hexValue c
        if h < 0xDC00 && 0xDC00 ≤ v && v < 0xE000 then
          (plain, [Char.ofNat ((h - 0xD800) * 0x400 + (v - 0xDC00) + 0x10000)])
        else ((unit v).1, '\uFFFD' :: (unit v).2)

/-- The end of the body: a surrogate still waiting reads as U+FFFD. -/
def finish : Unquote → List Char
  | high _ | highEsc _ | highHex _ _ _ => ['\uFFFD']
  | _ => []

/-- Read the rest of a body from a state. -/
def run : Unquote → List Char → List Char
  | st, [] => st.finish
  | st, c :: cs => (st.step c).2 ++ run (st.step c).1 cs

end Unquote

/-- `unquote`: the string a literal's body denotes.  The escape of a high
surrogate followed by that of a low surrogate is one character; a surrogate
on its own reads as U+FFFD. -/
def unquote (raw : List Char) : List Char :=
  Unquote.run .plain raw

/-! ## What the encoder writes is a well-formed body -/

theorem hexDigit_isHexDigit : ∀ n < 16, isHexDigit (hexDigit n) := by
  decide

theorem hexValue_hexDigit : ∀ n < 16, hexValue (hexDigit n) = n := by
  decide

theorem validRaw_escapeU00 {c : Char} (hc : c.toNat < 256) : validRaw (escapeU00 c) := by
  have h1 := hexDigit_isHexDigit (c.toNat / 16) (by omega)
  have h2 := hexDigit_isHexDigit (c.toNat % 16) (Nat.mod_lt _ (by decide))
  have h0 : isHexDigit '0' := rfl
  simp [escapeU00, validRaw, h0, h1, h2]

theorem validRaw_escape2028 (c : Char) :
    validRaw ['\\', 'u', '2', '0', '2', hexDigit (c.toNat % 16)] := by
  have h := hexDigit_isHexDigit (c.toNat % 16) (Nat.mod_lt _ (by decide))
  have h0 : isHexDigit '0' := rfl
  have h2 : isHexDigit '2' := rfl
  simp [validRaw, h, h0, h2]

/-- The four ways `appendString` writes a character. -/
theorem escapeChar_cases (c : Char) :
    (∃ e, escapeChar c = ['\\', e] ∧ isSimpleEscape e ∧ unescapeChar e = c) ∨
    (escapeChar c = escapeU00 c ∧ c.toNat < 256) ∨
    ((c = '\u2028' ∨ c = '\u2029') ∧
      escapeChar c = ['\\', 'u', '2', '0', '2', hexDigit (c.toNat % 16)]) ∨
    (escapeChar c = [c] ∧ c ≠ '\\' ∧ c ≠ '"' ∧ 0x20 ≤ c.toNat ∧ htmlChar c = [c]) := by
  unfold escapeChar
  by_cases h1 : (c = '\\' || c = '"') = true
  · rw [if_pos h1]
    simp only [Bool.or_eq_true, decide_eq_true_eq] at h1
    rcases h1 with rfl | rfl
    exacts [.inl ⟨_, rfl, rfl, rfl⟩, .inl ⟨_, rfl, rfl, rfl⟩]
  rw [if_neg h1]
  by_cases h2 : c = '\x08'
  · rw [if_pos h2]; subst h2; exact .inl ⟨_, rfl, rfl, rfl⟩
  rw [if_neg h2]
  by_cases h3 : c = '\x0c'
  · rw [if_pos h3]; subst h3; exact .inl ⟨_, rfl, rfl, rfl⟩
  rw [if_neg h3]
  by_cases h4 : c = '\n'
  · rw [if_pos h4]; subst h4; exact .inl ⟨_, rfl, rfl, rfl⟩
  rw [if_neg h4]
  by_cases h5 : c = '\r'
  · rw [if_pos h5]; subst h5; exact .inl ⟨_, rfl, rfl, rfl⟩
  rw [if_neg h5]
  by_cases h6 : c = '\t'
  · rw [if_pos h6]; subst h6; exact .inl ⟨_, rfl, rfl, rfl⟩
  rw [if_neg h6]
  by_cases h7 : (c.toNat < 0x20 || c = '<' || c = '>' || c = '&') = true
  · rw [if_pos h7]
    refine .inr (.inl ⟨rfl, ?_⟩)
    simp only [Bool.or_eq_true, decide_eq_true_eq] at h7
    rcases h7 with ((h | rfl) | rfl) | rfl <;> first | omega | decide
  rw [if_neg h7]
  by_cases h8 : (c = '\u2028' || c = '\u2029') = true
  · rw [if_pos h8]
    simp only [Bool.or_eq_true, decide_eq_true_eq] at h8
    exact .inr (.inr (.inl ⟨h8, rfl⟩))
  rw [if_neg h8]
  simp only [Bool.or_eq_true, decide_eq_true_eq, not_or, not_lt] at h1 h7 h8
  refine .inr (.inr (.inr ⟨rfl, h1.1, h1.2, h7.1.1.1, ?_⟩))
  simp [htmlChar, h7.1.1.2, h7.1.2, h7.2, h8.1, h8.2]

theorem validRaw_escapeChar (c : Char) : validRaw (escapeChar c) := by
  rcases escapeChar_cases c with ⟨e, he, hs, -⟩ | ⟨he, hc⟩ | ⟨-, he⟩ | ⟨he, h1, h2, h3, -⟩ <;>
    rw [he]
  · have hu : e ≠ 'u' := by rintro rfl; simp [isSimpleEscape] at hs
    unfold validRaw
    simp [hu, hs, validRaw]
  · exact validRaw_escapeU00 hc
  · exact validRaw_escape2028 c
  · unfold validRaw
    simp [h1, h2, h3, validRaw]

theorem validRaw_escape (s : List Char) : validRaw (escape s) := by
  induction s with
  | nil => rfl
  | cons c s ih =>
      simp only [escape, List.flatMap_cons] at ih ⊢
      rw [validRaw_append (validRaw_escapeChar c), ih]

/-! ## Reading back what the encoder wrote -/

theorem run_plain_escapeChar (c : Char) (rest : List Char) :
    Unquote.run .plain (escapeChar c ++ rest) = c :: Unquote.run .plain rest := by
  rcases escapeChar_cases c with ⟨e, he, hs, hu⟩ | ⟨he, hc⟩ | ⟨hc, he⟩ | ⟨he, h1, -⟩ <;> rw [he]
  · have he' : e ≠ 'u' := by rintro rfl; simp [isSimpleEscape] at hs
    simp [Unquote.run, Unquote.step, he', hu]
  · have h1 := hexValue_hexDigit (c.toNat / 16) (by omega)
    have h2 := hexValue_hexDigit (c.toNat % 16) (Nat.mod_lt _ (by decide))
    have h0 : hexValue '0' = 0 := rfl
    have hv : c.toNat / 16 * 16 + c.toNat % 16 = c.toNat := Nat.div_add_mod' _ _
    have hs : Unquote.isSurrogate c.toNat = false := by
      simp [Unquote.isSurrogate]; omega
    simp [escapeU00, Unquote.run, Unquote.step, h0, h1, h2, hv, Unquote.unit, hs]
  · rcases hc with rfl | rfl <;> rfl
  · simp [Unquote.run, Unquote.step, h1]

/-- Reading back the body `appendString` wrote gives the string. -/
theorem unquote_escape (s : List Char) : unquote (escape s) = s := by
  induction s with
  | nil => rfl
  | cons c s ih =>
      simp only [unquote, escape, List.flatMap_cons] at ih ⊢
      rw [run_plain_escapeChar, ih]

/-- A body with no backslash denotes itself. -/
theorem unquote_plain : ∀ {raw : List Char}, (∀ c ∈ raw, c ≠ '\\') → unquote raw = raw
  | [], _ => rfl
  | c :: r, h => by
      have hc := h c (List.mem_cons_self _ _)
      have ih := @unquote_plain r fun x hx => h x (List.mem_cons_of_mem _ hx)
      simp only [unquote, Unquote.run, Unquote.step, if_neg hc] at ih ⊢
      simp [ih]

/-! ## Re-escaping for HTML does not change what a literal denotes -/

theorem htmlChar_cases (c : Char) :
    htmlChar c = [c] ∨ (htmlChar c = escapeU00 c ∧ c.toNat < 256) ∨
      ((c = '\u2028' ∨ c = '\u2029') ∧
        htmlChar c = ['\\', 'u', '2', '0', '2', hexDigit (c.toNat % 16)]) := by
  unfold htmlChar
  by_cases h1 : (c = '<' || c = '>' || c = '&') = true
  · rw [if_pos h1]
    simp only [Bool.or_eq_true, decide_eq_true_eq] at h1
    refine .inr (.inl ⟨rfl, ?_⟩)
    rcases h1 with (rfl | rfl) | rfl <;> decide
  rw [if_neg h1]
  by_cases h2 : (c = '\u2028' || c = '\u2029') = true
  · rw [if_pos h2]
    simp only [Bool.or_eq_true, decide_eq_true_eq] at h2
    exact .inr (.inr ⟨h2, rfl⟩)
  rw [if_neg h2]
  exact .inl rfl

theorem htmlChar_hexDigit : ∀ n < 16, htmlChar (hexDigit n) = [hexDigit n] := by
  decide

theorem htmlEscape_escapeChar (c : Char) : htmlEscape (escapeChar c) = escapeChar c := by
  have h0 : htmlChar '0' = ['0'] := rfl
  have h2 : htmlChar '2' = ['2'] := rfl
  have hb : htmlChar '\\' = ['\\'] := rfl
  have hu : htmlChar 'u' = ['u'] := rfl
  rcases escapeChar_cases c with ⟨e, he, hs, -⟩ | ⟨he, hc⟩ | ⟨-, he⟩ | ⟨he, -, -, -, hh⟩ <;>
    rw [he]
  · have : htmlChar e = [e] := by
      simp only [isSimpleEscape, Bool.or_eq_true, decide_eq_true_eq] at hs
      rcases hs with ((((((rfl | rfl) | rfl) | rfl) | rfl) | rfl) | rfl) | rfl <;> rfl
    simp [htmlEscape, this, hb]
  · simp [htmlEscape, escapeU00, htmlChar_hexDigit _ (Nat.mod_lt _ (by decide : 16 > 0)),
      htmlChar_hexDigit (c.toNat / 16) (by omega), h0, hb, hu]
  · simp [htmlEscape, htmlChar_hexDigit _ (Nat.mod_lt _ (by decide : 16 > 0)), h0, h2, hb, hu]
  · simp [htmlEscape, hh]

/-- `compact` leaves the strings the encoder wrote as they are. -/
theorem htmlEscape_escape (s : List Char) : htmlEscape (escape s) = escape s := by
  induction s with
  | nil => rfl
  | cons c s ih =>
      simp only [escape, htmlEscape, List.flatMap_cons, List.flatMap_append] at ih ⊢
      rw [ih]
      exact congrArg (· ++ _) (htmlEscape_escapeChar c)

namespace Unquote

/-- Read a list of characters: the state reached and the characters completed. -/
def go : Unquote → List Char → Unquote × List Char
  | st, [] => (st, [])
  | st, c :: cs => ((go (st.step c).1 cs).1, (st.step c).2 ++ (go (st.step c).1 cs).2)

theorem run_append (st : Unquote) (p rest : List Char) :
    run st (p ++ rest) = (go st p).2 ++ run (go st p).1 rest := by
  induction p generalizing st with
  | nil => rfl
  | cons c p ih => simp [run, go, ih]

/-- The states between two characters of the string a body denotes. -/
def Boundary (st : Unquote) : Prop :=
  st = plain ∨ ∃ h, st = high h

theorem unit_boundary (u : Nat) : (unit u).1.Boundary := by
  unfold unit
  split
  · exact .inr ⟨u, rfl⟩
  · exact .inl rfl

theorem go_htmlChar {st : Unquote} (hst : st.Boundary) {c : Char} (hc : c ≠ '\\') :
    go st (htmlChar c) = go st [c] := by
  have h0 : hexValue '0' = 0 := rfl
  have h2 : hexValue '2' = 2 := rfl
  have hx : ∀ n < 16, isHexDigit (hexDigit n) := hexDigit_isHexDigit
  have hx0 : isHexDigit '0' := rfl
  have hx2 : isHexDigit '2' := rfl
  rcases htmlChar_cases c with h | ⟨h, hlt⟩ | ⟨hc', h⟩ <;> rw [h]
  · have hv : c.toNat / 16 * 16 + c.toNat % 16 = c.toNat := Nat.div_add_mod' _ _
    have hs : isSurrogate c.toNat = false := by simp [isSurrogate]; omega
    have h1 := hexValue_hexDigit (c.toNat / 16) (by omega)
    have h3 := hexValue_hexDigit (c.toNat % 16) (Nat.mod_lt _ (by decide))
    rcases hst with rfl | ⟨hh, rfl⟩
    · simp [go, step, escapeU00, h0, h1, h3, hv, unit, hs, hc]
    · simp [go, step, escapeU00, h0, h1, h3, hv, unit, hs, hc, hx0,
        hx _ (Nat.mod_lt _ (by decide : 16 > 0)), hx (c.toNat / 16) (by omega)]
      omega
  · have h8 : hexDigit 8 = '8' := rfl
    have h9 : hexDigit 9 = '9' := rfl
    have hv8 : hexValue '8' = 8 := rfl
    have hv9 : hexValue '9' = 9 := rfl
    have hx8 : isHexDigit '8' := rfl
    have hx9 : isHexDigit '9' := rfl
    rcases hst with rfl | ⟨hh, rfl⟩ <;> rcases hc' with rfl | rfl
    · rfl
    · rfl
    · simp [go, step, h0, h2, h8, hv8, hx0, hx2, hx8, unit, isSurrogate]
    · simp [go, step, h0, h2, h9, hv9, hx0, hx2, hx9, unit, isSurrogate]

end Unquote

theorem htmlChar_of_isHexDigit {c : Char} (h : isHexDigit c) : htmlChar c = [c] := by
  have key : ∀ x ∈ ['<', '>', '&', '\u2028', '\u2029'], isHexDigit x = false := by decide
  have hne : ∀ x ∈ ['<', '>', '&', '\u2028', '\u2029'], c ≠ x := by
    rintro x hx rfl
    rw [key _ hx] at h
    exact absurd h (by decide)
  simp only [List.mem_cons, List.not_mem_nil, or_false, forall_eq_or_imp, forall_eq] at hne
  simp [htmlChar, hne.1, hne.2.1, hne.2.2.1, hne.2.2.2.1, hne.2.2.2.2]

theorem htmlChar_of_isSimpleEscape {c : Char} (h : isSimpleEscape c) : htmlChar c = [c] := by
  simp only [isSimpleEscape, Bool.or_eq_true, decide_eq_true_eq] at h
  rcases h with ((((((rfl | rfl) | rfl) | rfl) | rfl) | rfl) | rfl) | rfl <;> rfl

theorem validRaw_htmlChar {c : Char} (h1 : c ≠ '"') (h2 : c ≠ '\\') (h3 : 0x20 ≤ c.toNat) :
    validRaw (htmlChar c) := by
  rcases htmlChar_cases c with h | ⟨h, hlt⟩ | ⟨-, h⟩ <;> rw [h]
  · unfold validRaw
    simp [h1, h2, h3, validRaw]
  · exact validRaw_escapeU00 hlt
  · exact validRaw_escape2028 c

/-- Re-escaping keeps a body well formed. -/
theorem validRaw_htmlEscape {raw : List Char} (h : validRaw raw) : validRaw (htmlEscape raw) := by
  have hb : htmlChar '\\' = ['\\'] := rfl
  have hu : htmlChar 'u' = ['u'] := rfl
  induction raw using validRaw.induct with
  | case1 => rfl
  | case2 a b c d r ih =>
      unfold validRaw at h
      simp only [↓reduceIte, Bool.and_eq_true] at h
      obtain ⟨⟨⟨⟨ha, hb'⟩, hc⟩, hd⟩, hr⟩ := h
      simp only [htmlEscape, List.flatMap_cons, hb, hu, htmlChar_of_isHexDigit ha,
        htmlChar_of_isHexDigit hb', htmlChar_of_isHexDigit hc, htmlChar_of_isHexDigit hd,
        List.singleton_append] at ih ⊢
      unfold validRaw
      simp [ha, hb', hc, hd, ih hr]
  | case3 r hshort =>
      rcases r with _ | ⟨x, _ | ⟨y, _ | ⟨z, _ | ⟨e, r⟩⟩⟩⟩
      all_goals simp [validRaw] at h
      exact (hshort x y z e r rfl).elim
  | case4 e r he ih =>
      unfold validRaw at h
      simp only [he, ↓reduceIte, Bool.and_eq_true] at h
      simp only [htmlEscape, List.flatMap_cons, hb, htmlChar_of_isSimpleEscape h.1,
        List.singleton_append] at ih ⊢
      unfold validRaw
      simp [he, h.1, ih h.2]
  | case5 => simp [validRaw] at h
  | case6 c r hc ih =>
      unfold validRaw at h
      simp only [hc, ↓reduceIte, Bool.and_eq_true, decide_eq_true_eq] at h
      simp only [htmlEscape, List.flatMap_cons] at ih ⊢
      rw [validRaw_append (validRaw_htmlChar h.1.1 hc h.1.2)]
      exact ih h.2

namespace Unquote

theorem boundary_go_u4 {st : Unquote} (hst : st.Boundary) {a b c d : Char}
    (ha : isHexDigit a) (hb : isHexDigit b) (hc : isHexDigit c) (hd : isHexDigit d) :
    (go st ['\\', 'u', a, b, c, d]).1.Boundary := by
  rcases hst with rfl | ⟨h, rfl⟩
  · simpa [go, step] using unit_boundary _
  · simp [go, step, ha, hb, hc, hd]
    split
    · exact .inl rfl
    · exact unit_boundary _

theorem boundary_go_esc {st : Unquote} (hst : st.Boundary) {e : Char} (he : e ≠ 'u') :
    (go st ['\\', e]).1.Boundary := by
  rcases hst with rfl | ⟨h, rfl⟩ <;> simp [go, step, he, Boundary]

theorem boundary_go_plain {st : Unquote} (hst : st.Boundary) {c : Char} (hc : c ≠ '\\') :
    (go st [c]).1.Boundary := by
  rcases hst with rfl | ⟨h, rfl⟩ <;> simp [go, step, hc, Boundary]

end Unquote

/-- Re-escaping a well-formed body for HTML does not change the string it
denotes: `compact` keeps every string of a raw message. -/
theorem unquote_htmlEscape {raw : List Char} (h : validRaw raw) :
    unquote (htmlEscape raw) = unquote raw := by
  have hb : htmlChar '\\' = ['\\'] := rfl
  have hu : htmlChar 'u' = ['u'] := rfl
  suffices ∀ st : Unquote, st.Boundary → Unquote.run st (htmlEscape raw) = Unquote.run st raw from
    this _ (.inl rfl)
  induction raw using validRaw.induct with
  | case1 => intros; rfl
  | case2 a b c d r ih =>
      unfold validRaw at h
      simp only [↓reduceIte, Bool.and_eq_true] at h
      obtain ⟨⟨⟨⟨ha, hb'⟩, hc⟩, hd⟩, hr⟩ := h
      intro st hst
      have hh : htmlEscape ('\\' :: 'u' :: a :: b :: c :: d :: r) =
          ['\\', 'u', a, b, c, d] ++ htmlEscape r := by
        simp [htmlEscape, hb, hu, htmlChar_of_isHexDigit ha, htmlChar_of_isHexDigit hb',
          htmlChar_of_isHexDigit hc, htmlChar_of_isHexDigit hd]
      rw [hh, show '\\' :: 'u' :: a :: b :: c :: d :: r = ['\\', 'u', a, b, c, d] ++ r from rfl,
        Unquote.run_append, Unquote.run_append,
        ih hr _ (Unquote.boundary_go_u4 hst ha hb' hc hd)]
  | case3 r hshort =>
      rcases r with _ | ⟨x, _ | ⟨y, _ | ⟨z, _ | ⟨e, r⟩⟩⟩⟩
      all_goals simp [validRaw] at h
      exact (hshort x y z e r rfl).elim
  | case4 e r he ih =>
      unfold validRaw at h
      simp only [he, ↓reduceIte, Bool.and_eq_true] at h
      intro st hst
      have hh : htmlEscape ('\\' :: e :: r) = ['\\', e] ++ htmlEscape r := by
        simp [htmlEscape, hb, htmlChar_of_isSimpleEscape h.1]
      rw [hh, show '\\' :: e :: r = ['\\', e] ++ r from rfl, Unquote.run_append,
        Unquote.run_append, ih h.2 _ (Unquote.boundary_go_esc hst he)]
  | case5 => simp [validRaw] at h
  | case6 c r hc ih =>
      unfold validRaw at h
      simp only [hc, ↓reduceIte, Bool.and_eq_true, decide_eq_true_eq] at h
      intro st hst
      rw [show htmlEscape (c :: r) = htmlChar c ++ htmlEscape r from rfl, Unquote.run_append,
        Unquote.go_htmlChar hst hc, ih h.2 _ (Unquote.boundary_go_plain hst hc),
        show c :: r = [c] ++ r from rfl, Unquote.run_append]

/-- Re-escaping twice is re-escaping once. -/
theorem htmlEscape_htmlEscape (raw : List Char) : htmlEscape (htmlEscape raw) = htmlEscape raw := by
  have h0 : htmlChar '0' = ['0'] := rfl
  have h2 : htmlChar '2' = ['2'] := rfl
  have hb : htmlChar '\\' = ['\\'] := rfl
  have hu : htmlChar 'u' = ['u'] := rfl
  have hx : ∀ n < 16, htmlChar (hexDigit n) = [hexDigit n] := htmlChar_hexDigit
  have hc : ∀ c, htmlEscape (htmlChar c) = htmlChar c := by
    intro c
    rcases htmlChar_cases c with h | ⟨h, hlt⟩ | ⟨-, h⟩ <;> rw [h]
    · simp [htmlEscape, h]
    · simp [htmlEscape, escapeU00, h0, hb, hu, hx _ (Nat.mod_lt _ (by decide : 16 > 0)),
        hx (c.toNat / 16) (by omega)]
    · simp [htmlEscape, h0, h2, hb, hu, hx _ (Nat.mod_lt _ (by decide : 16 > 0))]
  induction raw with
  | nil => rfl
  | cons c r ih =>
      rw [show htmlEscape (c :: r) = htmlChar c ++ htmlEscape r from rfl]
      rw [show ∀ x y, htmlEscape (x ++ y) = htmlEscape x ++ htmlEscape y from
        fun x y => List.flatMap_append _ _ _, hc, ih]

end Json
end Viracochan
