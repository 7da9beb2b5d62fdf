import Mathlib.Data.List.Basic
import Mathlib.Tactic.IntervalCases

/-!
# Viracochan: JSON text as a stream of lexemes

Every byte string the library stores is JSON: snapshots, journal lines and
exports.  `encoding/json` reads such text with a byte-at-a-time scanner; this
module models that scanner as a character-level state machine (`Lexer.step`)
whose output is the list of tokens of the text, each with the whitespace that
precedes it (a `Lexeme`).  Keeping the whitespace makes lexing lossless:
`render` puts the text back together, so that a `json.RawMessage` (the exact
bytes of a value) is the rendering of the value's lexemes.

The string and number grammars are those of the scanner: a string is
delimited by quotes, holds no control character, and escapes only
`\" \\ \/ \b \f \n \r \t` and `\uXXXX`; a number is
`-? (0 | [1-9][0-9]*) (.[0-9]+)? ([eE][+-]?[0-9]+)?`.  The lexer reads a
maximal run of number characters and then checks it, which accepts the same
texts as the scanner once the grammar of values (next module) is checked.

**Results.**

* `lex_render`: lexing a rendering gives back its lexemes, whenever the
  tokens are well formed and no two numbers or two literals touch.
* `lex_sound`: whatever the lexer returns is such a rendering.
-/

namespace Viracochan
namespace Json

/-- JSON whitespace. -/
def isSpace (c : Char) : Bool :=
  c = ' ' || c = '\t' || c = '\n' || c = '\r'

/-- Characters that can continue a number. -/
def isNumberChar (c : Char) : Bool :=
  c.isDigit || c = '-' || c = '+' || c = '.' || c = 'e' || c = 'E'

/-- Hexadecimal digits, as `\u` escapes take them. -/
def isHexDigit (c : Char) : Bool :=
  c.isDigit || ('a' ≤ c && c ≤ 'f') || ('A' ≤ c && c ≤ 'F')

/-- The characters that may follow a backslash, other than `u`. -/
def isSimpleEscape (c : Char) : Bool :=
  c = '"' || c = '\\' || c = '/' || c = 'b' || c = 'f' || c = 'n' || c = 'r' || c = 't'

/-- A token of JSON text.  A string keeps its body as written, escapes
included; a number and a literal keep their text. -/
inductive Token where
  | beginObject
  | endObject
  | beginArray
  | endArray
  | colon
  | comma
  | str (raw : List Char)
  | num (text : List Char)
  | lit (text : List Char)
deriving DecidableEq, Repr

/-- A token with the whitespace before it. -/
abbrev Lexeme := List Char × Token

namespace Token

/-- The text of a token. -/
def text : Token → List Char
  | beginObject => ['{']
  | endObject => ['}']
  | beginArray => ['[']
  | endArray => [']']
  | colon => [':']
  | comma => [',']
  | str raw => '"' :: raw ++ ['"']
  | num t => t
  | lit t => t

/-- Two tokens that would run together if nothing separated them. -/
def clash : Token → Token → Bool
  | num _, num _ => true
  | lit _, lit _ => true
  | _, _ => false

end Token

/-! ## Well-formed tokens -/

/-- The body of a string literal: plain characters (no quote, backslash or
control character) and escapes. -/
def validRaw : List Char → Bool
  | [] => true
  | c :: r =>
      if c = '\\' then
        match r with
        | e :: r' =>
            if e = 'u' then
              match r' with
              | a :: b :: c :: d :: r'' =>
                  isHexDigit a && isHexDigit b && isHexDigit c && isHexDigit d && validRaw r''
              | _ => false
            else isSimpleEscape e && validRaw r'
        | [] => false
      else c ≠ '"' && 0x20 ≤ c.toNat && validRaw r

/-- What follows the leading digits of `t`. -/
def dropDigits (t : List Char) : List Char :=
  t.dropWhile Char.isDigit

/-- An exponent part: `[eE][+-]?[0-9]+` or nothing. -/
def isExponent : List Char → Bool
  | [] => true
  | e :: r =>
      (e = 'e' || e = 'E') &&
        match r with
        | s :: d :: r' => (s = '+' || s = '-') && d.isDigit && dropDigits r' = [] ||
            s.isDigit && dropDigits (d :: r') = []
        | [d] => d.isDigit
        | [] => false

/-- A fraction and exponent part: `(.[0-9]+)? ([eE][+-]?[0-9]+)?`. -/
def isFracExp : List Char → Bool
  | '.' :: d :: r => d.isDigit && isExponent (dropDigits r)
  | r => isExponent r

/-- The number grammar. -/
def isNumber (t : List Char) : Bool :=
  match (match t with | '-' :: r => r | r => r) with
  | '0' :: r => isFracExp r
  | d :: r => d.isDigit && isFracExp (dropDigits r)
  | [] => false

/-- The three literals. -/
def isLiteral (t : List Char) : Bool :=
  t = "true".data || t = "false".data || t = "null".data

/-- A token the lexer can produce. -/
def Token.valid : Token → Bool
  | .str raw => validRaw raw
  | .num t => isNumber t && t.all isNumberChar
  | .lit t => isLiteral t
  | _ => true

theorem Token.text_ne_nil {t : Token} (ht : t.valid) : t.text ≠ [] := by
  cases t <;> simp only [text, valid, Bool.and_eq_true] at ht ⊢ <;> try simp
  all_goals rintro rfl; simp [isNumber, isLiteral] at ht

/-! ## The lexer -/

/-- What the lexer is in the middle of. -/
inductive Mode where
  | gap
  | str (raw : List Char)
  | esc (raw : List Char)
  | hex (raw : List Char) (n : Nat)
  | num (text : List Char)
  | lit (text : List Char)
deriving DecidableEq, Repr

/-- The lexer's state: the lexemes read so far, the whitespace since the
last one, and the token being read. -/
structure Lexer where
  done : List Lexeme
  ws : List Char
  mode : Mode
deriving DecidableEq, Repr

namespace Lexer

/-- Record a finished token. -/
def emit (L : Lexer) (t : Token) : Lexer :=
  ⟨L.done ++ [(L.ws, t)], [], .gap⟩

/-- Read `c` between tokens. -/
def start (L : Lexer) (c : Char) : Option Lexer :=
  if isSpace c then some ⟨L.done, L.ws ++ [c], .gap⟩
  else if c = '{' then some (L.emit .beginObject)
  else if c = '}' then some (L.emit .endObject)
  else if c = '[' then some (L.emit .beginArray)
  else if c = ']' then some (L.emit .endArray)
  else if c = ':' then some (L.emit .colon)
  else if c = ',' then some (L.emit .comma)
  else if c = '"' then some ⟨L.done, L.ws, .str []⟩
  else if c = '-' || c.isDigit then some ⟨L.done, L.ws, .num [c]⟩
  else if c.isLower then some ⟨L.done, L.ws, .lit [c]⟩
  else none

/-- Read one character. -/
def step (L : Lexer) (c : Char) : Option Lexer :=
  match L.mode with
  | .gap => L.start c
  | .str raw =>
      if c = '"' then some (L.emit (.str raw))
      else if c = '\\' then some ⟨L.done, L.ws, .esc raw⟩
      else if 0x20 ≤ c.toNat then some ⟨L.done, L.ws, .str (raw ++ [c])⟩
      else none
  | .esc raw =>
      if c = 'u' then some ⟨L.done, L.ws, .hex (raw ++ ['\\', 'u']) 0⟩
      else if isSimpleEscape c then some ⟨L.done, L.ws, .str (raw ++ ['\\', c])⟩
      else none
  | .hex raw n =>
      if isHexDigit c then
        if n = 3 then some ⟨L.done, L.ws, .str (raw ++ [c])⟩
        else some ⟨L.done, L.ws, .hex (raw ++ [c]) (n + 1)⟩
      else none
  | .num t =>
      if isNumberChar c then some ⟨L.done, L.ws, .num (t ++ [c])⟩
      else if isNumber t then (L.emit (.num t)).start c
      else none
  | .lit t =>
      if c.isLower then some ⟨L.done, L.ws, .lit (t ++ [c])⟩
      else if isLiteral t then (L.emit (.lit t)).start c
      else none

/-- Read a list of characters. -/
def run : Lexer → List Char → Option Lexer
  | L, [] => some L
  | L, c :: cs => (L.step c).bind fun L' => L'.run cs

/-- The end of the input: the token being read must be complete. -/
def finish (L : Lexer) : Option (List Lexeme × List Char) :=
  match L.mode with
  | .gap => some (L.done, L.ws)
  | .num t => if isNumber t then some (L.done ++ [(L.ws, .num t)], []) else none
  | .lit t => if isLiteral t then some (L.done ++ [(L.ws, .lit t)], []) else none
  | _ => none

/-- The lexer before the first character. -/
def init : Lexer :=
  ⟨[], [], .gap⟩

end Lexer

/-- Split a text into lexemes and the whitespace after the last one. -/
def lex (s : List Char) : Option (List Lexeme × List Char) :=
  (Lexer.init.run s).bind Lexer.finish

/-- Put lexemes and trailing whitespace back together. -/
def render (ls : List Lexeme) (trail : List Char) : List Char :=
  ls.flatMap (fun l => l.1 ++ l.2.text) ++ trail

/-- `c` would extend the token `t` if it came right after it. -/
def Lexer.continues : Token → Char → Bool
  | .num _, c => isNumberChar c
  | .lit _, c => c.isLower
  | _, _ => false

/-- Lexemes that lexing gives back from their rendering: whitespace where
whitespace is, well-formed tokens, and no two numbers or two literals with
nothing between them. -/
structure WellFormed (ls : List Lexeme) (trail : List Char) : Prop where
  ws : ∀ l ∈ ls, ∀ c ∈ l.1, isSpace c
  trail : ∀ c ∈ trail, isSpace c
  valid : ∀ l ∈ ls, l.2.valid
  sep : ls.Chain' fun a b => b.1 = [] → a.2.clash b.2 = false

/-! ## Lexing a rendering -/

namespace Lexer

theorem run_append (L : Lexer) (xs ys : List Char) :
    L.run (xs ++ ys) = (L.run xs).bind fun L' => L'.run ys := by
  induction xs generalizing L with
  | nil =>
      rfl
  | cons c xs ih =>
      simp [run, ih, Option.bind_assoc]

theorem run_spaces {L : Lexer} (hL : L.mode = .gap) {w : List Char}
    (hw : ∀ c ∈ w, isSpace c) : L.run w = some ⟨L.done, L.ws ++ w, .gap⟩ := by
  induction w generalizing L with
  | nil =>
      cases L; subst hL; simp [run]
  | cons c w ih =>
      have hc : isSpace c := hw c (List.mem_cons_self _ _)
      simp only [run, step, hL, start, hc, if_true, Option.some_bind]
      rw [ih rfl fun c h => hw c (List.mem_cons_of_mem _ h)]
      simp

theorem run_strBody (d : List Lexeme) (w raw : List Char) (h : validRaw raw) (acc : List Char) :
    (⟨d, w, .str acc⟩ : Lexer).run raw = some ⟨d, w, .str (acc ++ raw)⟩ := by
  induction raw using validRaw.induct generalizing acc with
  | case1 =>
      simp [run]
  | case2 a b c e r ih =>
      simp only [validRaw, if_true, Bool.and_eq_true] at h
      obtain ⟨⟨⟨⟨ha, hb⟩, hc⟩, he⟩, hr⟩ := h
      simp [run, step, ha, hb, hc, he, ih hr]
  | case3 r hshort =>
      rcases r with _ | ⟨a, _ | ⟨b, _ | ⟨c, _ | ⟨e, r⟩⟩⟩⟩
      all_goals simp [validRaw] at h
      exact (hshort a b c e r rfl).elim
  | case4 e r he ih =>
      unfold validRaw at h
      simp only [he, ↓reduceIte, Bool.and_eq_true] at h
      simp [run, step, he, h.1, ih h.2]
  | case5 =>
      simp [validRaw] at h
  | case6 c r hc ih =>
      unfold validRaw at h
      simp only [hc, ↓reduceIte, Bool.and_eq_true, decide_eq_true_eq] at h
      obtain ⟨⟨hq, hlo⟩, hr⟩ := h
      simp [run, step, hq, hc, hlo, ih hr]

theorem run_numBody (d : List Lexeme) (w : List Char) :
    ∀ (t acc : List Char), (∀ c ∈ t, isNumberChar c) →
      (⟨d, w, .num acc⟩ : Lexer).run t = some ⟨d, w, .num (acc ++ t)⟩
  | [], acc, _ => by simp [run]
  | c :: t, acc, h => by
      have hc : isNumberChar c := h c (List.mem_cons_self _ _)
      simp [run, step, hc, run_numBody d w t _ fun x hx => h x (List.mem_cons_of_mem _ hx)]

theorem isDigit_toNat {c : Char} (h : c.isDigit) : 48 ≤ c.toNat ∧ c.toNat ≤ 57 := by
  simp [Char.isDigit] at h
  exact ⟨h.1, h.2⟩

theorem isLower_toNat {c : Char} (h : c.isLower) : 97 ≤ c.toNat ∧ c.toNat ≤ 122 := by
  simp [Char.isLower] at h
  exact ⟨h.1, h.2⟩

/-- `start` on a character outside whitespace, punctuation and quotes. -/
theorem start_of_ne (L : Lexer) {c : Char}
    (hne : ∀ x ∈ " \t\n\r{}[]:,\"".data, c ≠ x) :
    L.start c =
      if c = '-' || c.isDigit then some ⟨L.done, L.ws, .num [c]⟩
      else if c.isLower then some ⟨L.done, L.ws, .lit [c]⟩
      else none := by
  simp only [String.data, List.mem_cons, List.not_mem_nil, or_false, forall_eq_or_imp] at hne
  obtain ⟨h1, h2, h3, h4, h5, h6, h7, h8, h9, h10, h11⟩ := hne
  simp [start, isSpace, h1, h2, h3, h4, h5, h6, h7, h8, h9, h10, h11]

theorem start_num (L : Lexer) {c : Char} (hc : (c = '-' || c.isDigit) = true) :
    L.start c = some ⟨L.done, L.ws, .num [c]⟩ := by
  simp only [Bool.or_eq_true, decide_eq_true_eq] at hc
  rcases hc with rfl | hc
  · rfl
  · have hb := isDigit_toNat hc
    have key : ∀ x ∈ " \t\n\r{}[]:,\"".data, x.toNat < 48 ∨ 57 < x.toNat := by decide
    rw [start_of_ne L (by intro x hx h; subst h; have := key _ hx; omega)]
    simp [hc]

theorem start_lit (L : Lexer) {c : Char} (hc : c.isLower) :
    L.start c = some ⟨L.done, L.ws, .lit [c]⟩ := by
  have hb := isLower_toNat hc
  have hd : c.isDigit = false := by
    cases h : c.isDigit
    · rfl
    · have := isDigit_toNat h; omega
  have hm : c ≠ '-' := by rintro rfl; simp at hb
  have key : ∀ x ∈ " \t\n\r{}[]:,\"".data, x.toNat < 97 ∨ 122 < x.toNat := by decide
  rw [start_of_ne L (by intro x hx h; subst h; have := key _ hx; omega)]
  simp [hc, hd, hm]

theorem run_litBody (d : List Lexeme) (w : List Char) :
    ∀ (t acc : List Char), (∀ c ∈ t, c.isLower) →
      (⟨d, w, .lit acc⟩ : Lexer).run t = some ⟨d, w, .lit (acc ++ t)⟩
  | [], acc, _ => by simp [run]
  | c :: t, acc, h => by
      have hc : c.isLower := h c (List.mem_cons_self _ _)
      simp [run, step, hc, run_litBody d w t _ fun x hx => h x (List.mem_cons_of_mem _ hx)]

theorem isLiteral_lower {t : List Char} (h : isLiteral t) : ∀ c ∈ t, c.isLower := by
  simp only [isLiteral, Bool.or_eq_true, decide_eq_true_eq] at h
  rcases h with (rfl | rfl) | rfl <;> decide

theorem isNumber_head {c : Char} {t : List Char} (h : isNumber (c :: t)) :
    (c = '-' || c.isDigit) = true := by
  by_cases hm : c = '-'
  · simp [hm]
  · unfold isNumber at h
    split at h <;> simp_all

/-- Lexing one well-formed token, followed by a character that does not
extend it. -/
theorem run_token {L : Lexer} (hL : L.mode = .gap) {t : Token} (ht : t.valid)
    {rest : List Char} (hsep : ∀ c ∈ rest.head?, continues t c = false) :
    (L.run (t.text ++ rest)).bind finish = ((L.emit t).run rest).bind finish := by
  obtain ⟨d, w, m⟩ := L
  subst hL
  cases t with
  | str raw =>
      simp only [Token.valid] at ht
      simp [Token.text, run_append, run, step, start, isSpace, run_strBody d w raw ht, emit]
  | num t =>
      simp only [Token.valid, Bool.and_eq_true, List.all_eq_true] at ht
      obtain ⟨hnum, hchars⟩ := ht
      cases t with
      | nil => simp [isNumber] at hnum
      | cons c t =>
          have hrun := run_numBody d w t [c] fun x hx => hchars x (List.mem_cons_of_mem _ hx)
          cases rest with
          | nil =>
              simp [Token.text, run_append, run, step, start_num _ (isNumber_head hnum), hrun,
                finish, hnum, emit]
          | cons x rest =>
              have hx : isNumberChar x = false := hsep x rfl
              simp [Token.text, run_append, run, step, start_num _ (isNumber_head hnum), hrun,
                hx, hnum, emit]
  | lit t =>
      simp only [Token.valid] at ht
      cases t with
      | nil => simp [isLiteral] at ht
      | cons c t =>
          have hl := isLiteral_lower ht
          have hrun := run_litBody d w t [c] fun x hx => hl x (List.mem_cons_of_mem _ hx)
          have hc := start_lit ⟨d, w, .gap⟩ (hl c (List.mem_cons_self _ _))
          cases rest with
          | nil => simp [Token.text, run_append, run, step, hc, hrun, finish, ht, emit]
          | cons x rest =>
              have hx : x.isLower = false := hsep x rfl
              simp [Token.text, run_append, run, step, hc, hrun, hx, ht, emit]
  | _ => simp [Token.text, run, step, start, isSpace, emit]

theorem continues_of_isSpace {t : Token} {c : Char} (hc : isSpace c) : continues t c = false := by
  simp only [isSpace, Bool.or_eq_true, decide_eq_true_eq] at hc
  cases t <;> rcases hc with ((rfl | rfl) | rfl) | rfl <;> rfl

theorem isLower_of_numStart {c : Char} (hc : (c = '-' || c.isDigit) = true) :
    c.isLower = false := by
  simp only [Bool.or_eq_true, decide_eq_true_eq] at hc
  rcases hc with rfl | hc
  · rfl
  · cases h : c.isLower
    · rfl
    · have := isDigit_toNat hc
      have := isLower_toNat h
      omega

theorem continues_text_head {t u : Token} (hu : u.valid) (hclash : t.clash u = false) :
    ∀ c ∈ u.text.head?, continues t c = false := by
  intro c hc
  cases t <;> try rfl
  all_goals cases u <;> simp_all [Token.text, Token.clash, Token.valid, continues]
  all_goals try (subst hc; rfl)
  · simp only [isLiteral, Bool.or_eq_true, decide_eq_true_eq] at hu
    rcases hu with (rfl | rfl) | rfl <;> (simp at hc; subst hc; rfl)
  · obtain ⟨hnum, -⟩ := hu
    rename_i t
    cases t with
    | nil => simp at hc
    | cons x t =>
        simp only [List.head?_cons, Option.some.injEq] at hc
        subst hc
        exact isLower_of_numStart (isNumber_head hnum)

end Lexer

theorem WellFormed.tail {l : Lexeme} {ls : List Lexeme} {trail : List Char}
    (h : WellFormed (l :: ls) trail) : WellFormed ls trail :=
  ⟨fun x hx => h.ws x (List.mem_cons_of_mem _ hx), h.trail,
    fun x hx => h.valid x (List.mem_cons_of_mem _ hx), h.sep.tail⟩

theorem run_render {ls : List Lexeme} {trail : List Char} (h : WellFormed ls trail)
    (d : List Lexeme) :
    ((⟨d, [], .gap⟩ : Lexer).run (render ls trail)).bind Lexer.finish = some (d ++ ls, trail) := by
  induction ls generalizing d with
  | nil =>
      simp [render, @Lexer.run_spaces ⟨d, [], .gap⟩ rfl _ h.trail, Lexer.finish]
  | cons l ls ih =>
      obtain ⟨w, t⟩ := l
      have hw := h.ws (w, t) (List.mem_cons_self _ _)
      have ht := h.valid (w, t) (List.mem_cons_self _ _)
      have hsep : ∀ c ∈ (render ls trail).head?, Lexer.continues t c = false := by
        intro c hc
        cases ls with
        | nil => exact Lexer.continues_of_isSpace (h.trail c (List.mem_of_mem_head? hc))
        | cons l' ls =>
            obtain ⟨w', t'⟩ := l'
            cases w' with
            | cons x w' =>
                simp only [render, List.flatMap_cons, List.cons_append, List.head?_cons,
                  Option.mem_def, Option.some.injEq] at hc
                subst hc
                exact Lexer.continues_of_isSpace
                  (h.ws (_ :: w', t') (by simp) _ (List.mem_cons_self _ _))
            | nil =>
                have hcl : t.clash t' = false := (List.chain'_cons.mp h.sep).1 rfl
                have ht' := h.valid ([], t') (by simp)
                refine Lexer.continues_text_head ht' hcl c ?_
                simpa [render, List.head?_append_of_ne_nil _ (Token.text_ne_nil ht')] using hc
      have hrest : render ((w, t) :: ls) trail = w ++ (t.text ++ render ls trail) := by
        simp [render]
      rw [hrest, Lexer.run_append, @Lexer.run_spaces ⟨d, [], .gap⟩ rfl _ hw]
      simp only [Option.some_bind, List.nil_append]
      rw [Lexer.run_token rfl ht hsep]
      simpa [Lexer.emit] using ih h.tail (d ++ [(w, t)])

/-! ## What the lexer returns is well formed -/

theorem validRaw_append {a : List Char} (ha : validRaw a) (b : List Char) :
    validRaw (a ++ b) = validRaw b := by
  induction a using validRaw.induct with
  | case1 =>
      rfl
  | case2 x y z e r ih =>
      unfold validRaw at ha
      simp only [↓reduceIte, Bool.and_eq_true] at ha
      simp only [List.cons_append]
      conv_lhs => unfold validRaw
      simp [ha.1.1.1.1, ha.1.1.1.2, ha.1.1.2, ha.1.2, ih ha.2]
  | case3 r hshort =>
      rcases r with _ | ⟨x, _ | ⟨y, _ | ⟨z, _ | ⟨e, r⟩⟩⟩⟩
      all_goals simp [validRaw] at ha
      exact (hshort x y z e r rfl).elim
  | case4 e r he ih =>
      unfold validRaw at ha
      simp only [he, ↓reduceIte, Bool.and_eq_true] at ha
      simp only [List.cons_append]
      conv_lhs => unfold validRaw
      simp [he, ha.1, ih ha.2]
  | case5 =>
      simp [validRaw] at ha
  | case6 c r hc ih =>
      unfold validRaw at ha
      simp only [hc, ↓reduceIte, Bool.and_eq_true, decide_eq_true_eq] at ha
      simp only [List.cons_append]
      conv_lhs => unfold validRaw
      simp [hc, ha.1.1, ha.1.2, ih ha.2]

namespace Lexer

/-- The lexer's invariant: finished tokens are well formed, and the token
being read is a prefix the grammar allows. -/
def Valid (L : Lexer) : Prop :=
  (∀ l ∈ L.done, l.2.valid) ∧
    match L.mode with
    | .gap => True
    | .str raw => validRaw raw
    | .esc raw => validRaw raw
    | .hex raw n => ∃ r hs, raw = r ++ '\\' :: 'u' :: hs ∧ validRaw r ∧ hs.length = n ∧ n < 4 ∧
        ∀ c ∈ hs, isHexDigit c
    | .num t => ∀ c ∈ t, isNumberChar c
    | .lit _ => True

theorem emit_done_valid {L : Lexer} (hL : ∀ l ∈ L.done, l.2.valid) {t : Token} (ht : t.valid) :
    ∀ l ∈ (L.emit t).done, l.2.valid := by
  simp only [emit, List.mem_append, List.mem_singleton]
  rintro l (hl | rfl)
  exacts [hL l hl, ht]

theorem start_valid {L L' : Lexer} (hL : ∀ l ∈ L.done, l.2.valid) {c : Char}
    (h : L.start c = some L') : L'.Valid := by
  have hp : ∀ t : Token, some (L.emit t) = some L' → t.valid → L'.Valid := by
    rintro t ⟨⟩ ht
    exact ⟨emit_done_valid hL ht, trivial⟩
  unfold start at h
  by_cases h1 : isSpace c
  · rw [if_pos h1] at h
    cases h
    exact ⟨hL, trivial⟩
  rw [if_neg h1] at h
  by_cases h2 : c = '{'
  · rw [if_pos h2] at h; exact hp _ h rfl
  rw [if_neg h2] at h
  by_cases h3 : c = '}'
  · rw [if_pos h3] at h; exact hp _ h rfl
  rw [if_neg h3] at h
  by_cases h4 : c = '['
  · rw [if_pos h4] at h; exact hp _ h rfl
  rw [if_neg h4] at h
  by_cases h5 : c = ']'
  · rw [if_pos h5] at h; exact hp _ h rfl
  rw [if_neg h5] at h
  by_cases h6 : c = ':'
  · rw [if_pos h6] at h; exact hp _ h rfl
  rw [if_neg h6] at h
  by_cases h7 : c = ','
  · rw [if_pos h7] at h; exact hp _ h rfl
  rw [if_neg h7] at h
  by_cases h8 : c = '"'
  · rw [if_pos h8] at h
    cases h
    exact ⟨hL, rfl⟩
  rw [if_neg h8] at h
  by_cases h9 : (c = '-' || c.isDigit) = true
  · rw [if_pos h9] at h
    cases h
    refine ⟨hL, ?_⟩
    show ∀ x ∈ [c], isNumberChar x
    simp only [Bool.or_eq_true, decide_eq_true_eq] at h9
    simp only [List.mem_singleton, forall_eq]
    rcases h9 with rfl | h9
    · rfl
    · simp [isNumberChar, h9]
  rw [if_neg h9] at h
  by_cases h10 : c.isLower = true
  · rw [if_pos h10] at h
    cases h
    exact ⟨hL, trivial⟩
  rw [if_neg h10] at h
  cases h

theorem step_valid {L L' : Lexer} (hL : L.Valid) {c : Char} (h : L.step c = some L') :
    L'.Valid := by
  obtain ⟨d, w, m⟩ := L
  obtain ⟨hd, hm⟩ := hL
  cases m with
  | gap => exact start_valid hd h
  | str raw =>
      simp only [step] at h
      split_ifs at h with h1 h2 h3 <;> simp only [Option.some.injEq, reduceCtorEq] at h <;>
        subst h
      · exact ⟨emit_done_valid hd hm, trivial⟩
      · exact ⟨hd, hm⟩
      · refine ⟨hd, ?_⟩
        show validRaw (raw ++ [c])
        rw [validRaw_append hm]
        unfold validRaw
        simp [h1, h2, h3, validRaw]
  | esc raw =>
      simp only [step] at h
      split_ifs at h with h1 h2 <;> simp only [Option.some.injEq, reduceCtorEq] at h <;>
        subst h
      · exact ⟨hd, raw, [], by simp, hm, rfl, by decide, by simp⟩
      · refine ⟨hd, ?_⟩
        show validRaw (raw ++ ['\\', c])
        rw [validRaw_append hm]
        unfold validRaw
        simp [h1, h2, validRaw]
  | hex raw n =>
      obtain ⟨r, hs, rfl, hr, hlen, hn, hhex⟩ := hm
      simp only [step] at h
      split_ifs at h with h1 h2 <;> simp only [Option.some.injEq, reduceCtorEq] at h <;>
        subst h
      · refine ⟨hd, ?_⟩
        show validRaw (r ++ '\\' :: 'u' :: hs ++ [c])
        rw [List.append_assoc, validRaw_append hr]
        subst h2
        match hs, hlen with
        | [a, b, e], _ =>
            simp only [List.mem_cons, List.not_mem_nil, or_false, forall_eq_or_imp,
              forall_eq] at hhex
            simp [validRaw, hhex.1, hhex.2.1, hhex.2.2, h1]
      · refine ⟨hd, r, hs ++ [c], by simp, hr, by simp [hlen], by omega, ?_⟩
        simp only [List.mem_append, List.mem_singleton]
        rintro x (hx | rfl)
        exacts [hhex x hx, h1]
  | num t =>
      simp only [step] at h
      split_ifs at h with h1 h2
      · simp only [Option.some.injEq] at h
        subst h
        refine ⟨hd, ?_⟩
        simp only [List.mem_append, List.mem_singleton]
        rintro x (hx | rfl)
        exacts [hm x hx, h1]
      · have ht : (Token.num t).valid := by
          simpa [Token.valid, h2, List.all_eq_true] using hm
        exact start_valid (emit_done_valid hd ht) h
  | lit t =>
      simp only [step] at h
      split_ifs at h with h1 h2
      · simp only [Option.some.injEq] at h
        subst h
        exact ⟨hd, trivial⟩
      · exact start_valid (emit_done_valid hd (by simp [Token.valid, h2])) h

theorem run_valid : ∀ {L L' : Lexer} (cs : List Char), L.Valid → L.run cs = some L' → L'.Valid
  | _, _, [], hL, h => by cases h; exact hL
  | L, L', c :: cs, hL, h => by
      simp only [run, Option.bind_eq_some] at h
      obtain ⟨L₁, h₁, h₂⟩ := h
      exact run_valid cs (step_valid hL h₁) h₂

theorem finish_valid {L : Lexer} (hL : L.Valid) {ls : List Lexeme} {trail : List Char}
    (h : L.finish = some (ls, trail)) : ∀ l ∈ ls, l.2.valid := by
  obtain ⟨d, w, m⟩ := L
  obtain ⟨hd, hm⟩ := hL
  cases m <;> simp only [finish] at h <;> (try split_ifs at h with h1) <;>
    simp only [Option.some.injEq, Prod.mk.injEq, reduceCtorEq] at h
  · rw [← h.1]; exact hd
  · rw [← h.1]
    exact emit_done_valid (L := ⟨d, w, .gap⟩) hd (by simpa [Token.valid, h1] using hm)
  · rw [← h.1]; exact emit_done_valid (L := ⟨d, w, .gap⟩) hd (by simp [Token.valid, h1])

end Lexer

/-- Every token the lexer returns is well formed. -/
theorem lex_valid {s : List Char} {ls : List Lexeme} {trail : List Char}
    (h : lex s = some (ls, trail)) : ∀ l ∈ ls, l.2.valid := by
  simp only [lex, Option.bind_eq_some] at h
  obtain ⟨L, hrun, hfin⟩ := h
  exact Lexer.finish_valid (Lexer.run_valid s ⟨by simp [Lexer.init], trivial⟩ hrun) hfin

/-- Lexing a rendering gives back its lexemes. -/
theorem lex_render {ls : List Lexeme} {trail : List Char} (h : WellFormed ls trail) :
    lex (render ls trail) = some (ls, trail) := by
  simpa using run_render h []

end Json
end Viracochan
