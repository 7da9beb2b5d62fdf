import Viracochan.Json.Lexer

/-!
# Viracochan: JSON values

The grammar of values over lexemes.  `parseValue` is the recursive descent
that `encoding/json` performs after its scanner has checked the text: a value
is a string, a number, a literal, an array of values or an object of
string-keyed members.  A `Value` keeps its scalar tokens as written (string
bodies with their escapes, numbers as text), so that reading a value and
writing it back loses nothing but whitespace.

The parser takes a fuel argument that bounds its depth of calls; the length
of the input is always enough (`parse`), since every call consumes a token.

**Results.**

* `parseValue_tokens`: a value written as tokens, with any whitespace, is
  read back whole (completeness).
* `parseValue_sound`: what `parseValue` consumes is the token sequence of
  the value it returns (soundness).
* `Value.wellFormed`: the token sequence of a value, with any whitespace, is
  a rendering the lexer reads back.
-/

namespace Viracochan
namespace Json

/-- A JSON value, with its scalars kept as their tokens' text: a string's
body with its escapes, a number's digits, a literal's word. -/
inductive Value where
  | str (raw : List Char)
  | num (text : List Char)
  | lit (text : List Char)
  | array (items : List Value)
  | object (members : List (List Char × Value))
deriving Repr

/-- The tokens of a value, without whitespace. -/
def Value.tokens : Value → List Token
  | .str raw => [.str raw]
  | .num text => [.num text]
  | .lit text => [.lit text]
  | .array [] => [.beginArray, .endArray]
  | .array (v :: vs) => .beginArray :: v.tokens ++ elemsTail vs
  | .object [] => [.beginObject, .endObject]
  | .object ((k, v) :: ms) => .beginObject :: .str k :: .colon :: v.tokens ++ membersTail ms
where
  /-- The elements after the first, each after a comma, and the closing bracket. -/
  elemsTail : List Value → List Token
    | [] => [.endArray]
    | v :: vs => .comma :: v.tokens ++ elemsTail vs
  /-- The members after the first, each after a comma, and the closing brace. -/
  membersTail : List (List Char × Value) → List Token
    | [] => [.endObject]
    | (k, v) :: ms => .comma :: .str k :: .colon :: v.tokens ++ membersTail ms

mutual

/-- Read one value. -/
def parseValue : Nat → List Lexeme → Option (Value × List Lexeme)
  | 0, _ => none
  | _ + 1, [] => none
  | n + 1, (_, t) :: rest =>
      match t, rest with
      | .beginArray, (_, .endArray) :: rest => some (.array [], rest)
      | .beginArray, rest => parseElems n [] rest
      | .beginObject, (_, .endObject) :: rest => some (.object [], rest)
      | .beginObject, rest => parseMembers n [] rest
      | .str raw, rest => some (.str raw, rest)
      | .num x, rest => some (.num x, rest)
      | .lit x, rest => some (.lit x, rest)
      | _, _ => none

/-- Read the elements of an array after `[` or a comma: a value, then a comma
or the closing bracket. -/
def parseElems : Nat → List Value → List Lexeme → Option (Value × List Lexeme)
  | 0, _, _ => none
  | n + 1, acc, ls =>
      match parseValue n ls with
      | some (v, (_, .comma) :: rest) => parseElems n (acc ++ [v]) rest
      | some (v, (_, .endArray) :: rest) => some (.array (acc ++ [v]), rest)
      | _ => none

/-- Read the members of an object after `{` or a comma: a key, a colon, a
value, then a comma or the closing brace. -/
def parseMembers : Nat → List (List Char × Value) → List Lexeme → Option (Value × List Lexeme)
  | 0, _, _ => none
  | n + 1, acc, (_, .str k) :: (_, .colon) :: ls =>
      match parseValue n ls with
      | some (v, (_, .comma) :: rest) => parseMembers n (acc ++ [(k, v)]) rest
      | some (v, (_, .endObject) :: rest) => some (.object (acc ++ [(k, v)]), rest)
      | _ => none
  | _ + 1, _, _ => none

end

/-- A whole lexeme stream that is exactly one value. -/
def parse (ls : List Lexeme) : Option Value :=
  match parseValue ls.length ls with
  | some (v, []) => some v
  | _ => none

/-! ## Reading a value written as tokens -/

theorem Value.tokens_head (v : Value) :
    ∃ t ts, v.tokens = t :: ts ∧ t ≠ .endArray ∧ t ≠ .endObject := by
  cases v with
  | array items => cases items <;> simp [tokens]
  | object ms => rcases ms with _ | ⟨⟨k, v⟩, ms⟩ <;> simp [tokens]
  | _ => simp [tokens]

theorem Value.tokens_length_pos (v : Value) : 0 < v.tokens.length := by
  obtain ⟨t, ts, h, -⟩ := v.tokens_head
  simp [h]

theorem elemsTail_length_pos (vs : List Value) : 0 < (Value.tokens.elemsTail vs).length := by
  cases vs <;> simp [Value.tokens.elemsTail]

theorem membersTail_length_pos (ms : List (List Char × Value)) :
    0 < (Value.tokens.membersTail ms).length := by
  rcases ms with _ | ⟨⟨k, v⟩, ms⟩ <;> simp [Value.tokens.membersTail]

theorem parseValue_beginArray (n : Nat) (w : List Char) {ls : List Lexeme}
    (h : ∀ t ∈ (ls.map Prod.snd).head?, t ≠ .endArray) :
    parseValue (n + 1) ((w, .beginArray) :: ls) = parseElems n [] ls := by
  rcases ls with _ | ⟨⟨w', t⟩, ls⟩
  · simp [parseValue]
  · cases t <;> simp_all [parseValue]

theorem parseValue_beginObject (n : Nat) (w : List Char) {ls : List Lexeme}
    (h : ∀ t ∈ (ls.map Prod.snd).head?, t ≠ .endObject) :
    parseValue (n + 1) ((w, .beginObject) :: ls) = parseMembers n [] ls := by
  rcases ls with _ | ⟨⟨w', t⟩, ls⟩
  · simp [parseValue]
  · cases t <;> simp_all [parseValue]

theorem map_snd_eq_cons {ls : List Lexeme} {t : Token} {ts : List Token}
    (h : ls.map Prod.snd = t :: ts) : ∃ w ls', ls = (w, t) :: ls' ∧ ls'.map Prod.snd = ts := by
  rcases ls with _ | ⟨⟨w, t'⟩, ls'⟩
  · simp at h
  · simp only [List.map_cons, List.cons.injEq] at h
    obtain ⟨rfl, h⟩ := h
    exact ⟨w, ls', rfl, h⟩

/-- Completeness of the three readers, by induction on the fuel. -/
theorem parse_complete (n : Nat) :
    (∀ (v : Value) (ls rest : List Lexeme), ls.map Prod.snd = v.tokens →
        v.tokens.length ≤ n → parseValue n (ls ++ rest) = some (v, rest)) ∧
    (∀ (v : Value) (vs acc : List Value) (ls rest : List Lexeme),
        ls.map Prod.snd = v.tokens ++ Value.tokens.elemsTail vs →
        (v.tokens ++ Value.tokens.elemsTail vs).length ≤ n →
        parseElems n acc (ls ++ rest) = some (.array (acc ++ v :: vs), rest)) ∧
    (∀ (k : List Char) (v : Value) (ms acc : List (List Char × Value)) (ls rest : List Lexeme),
        ls.map Prod.snd = .str k :: .colon :: v.tokens ++ Value.tokens.membersTail ms →
        (v.tokens ++ Value.tokens.membersTail ms).length + 2 ≤ n →
        parseMembers n acc (ls ++ rest) = some (.object (acc ++ (k, v) :: ms), rest)) := by
  induction n with
  | zero =>
      refine ⟨fun v _ _ _ h => ?_, fun v _ _ _ _ _ h => ?_, fun _ v _ _ _ _ _ h => ?_⟩ <;>
        have := v.tokens_length_pos <;> simp only [List.length_append] at h <;> omega
  | succ n ih =>
      obtain ⟨ihv, ihe, ihm⟩ := ih
      refine ⟨fun v ls rest hls hn => ?_, fun v vs acc ls rest hls hn => ?_,
        fun k v ms acc ls rest hls hn => ?_⟩
      · cases v with
        | array items =>
            rcases items with _ | ⟨v, vs⟩ <;> simp only [Value.tokens] at hls hn
            · obtain ⟨w, ls, rfl, h1⟩ := map_snd_eq_cons hls
              obtain ⟨w', ls, rfl, h2⟩ := map_snd_eq_cons h1
              obtain rfl := List.map_eq_nil_iff.mp h2
              simp [parseValue]
            · obtain ⟨w, ls, rfl, h⟩ := map_snd_eq_cons hls
              obtain ⟨t, ts, ht, hne, -⟩ := v.tokens_head
              rw [List.cons_append, parseValue_beginArray]
              · exact ihe v vs [] ls rest h (by simp at hn ⊢; omega)
              · simp [h, ht, hne]
        | object ms =>
            rcases ms with _ | ⟨⟨k, v⟩, ms⟩ <;> simp only [Value.tokens] at hls hn
            · obtain ⟨w, ls, rfl, h1⟩ := map_snd_eq_cons hls
              obtain ⟨w', ls, rfl, h2⟩ := map_snd_eq_cons h1
              obtain rfl := List.map_eq_nil_iff.mp h2
              simp [parseValue]
            · obtain ⟨w, ls, rfl, h⟩ := map_snd_eq_cons hls
              rw [List.cons_append, parseValue_beginObject]
              · exact ihm k v ms [] ls rest h (by simp at hn ⊢; omega)
              · simp [h]
        | _ =>
            simp only [Value.tokens] at hls
            obtain ⟨w, ls, rfl, h⟩ := map_snd_eq_cons hls
            obtain rfl := List.map_eq_nil_iff.mp h
            simp [parseValue]
      · obtain ⟨lv, lt, rfl, hv, ht⟩ := List.map_eq_append_iff.mp hls
        have hlen := elemsTail_length_pos vs
        simp only [List.length_append] at hn
        have hpv := ihv v lv (lt ++ rest) hv (by omega)
        rw [List.append_assoc, parseElems, hpv]
        cases vs with
        | nil =>
            obtain ⟨w, lt, rfl, h⟩ := map_snd_eq_cons ht
            obtain rfl := List.map_eq_nil_iff.mp h
            simp
        | cons v' vs =>
            obtain ⟨w, lt, rfl, h⟩ := map_snd_eq_cons ht
            simp only [Value.tokens.elemsTail, List.length_cons, List.length_append] at hn
            have := v.tokens_length_pos
            simp [ihe v' vs (acc ++ [v]) lt rest h (by simp; omega)]
      · obtain ⟨w, ls, rfl, h1⟩ := map_snd_eq_cons hls
        obtain ⟨w', ls, rfl, h2⟩ := map_snd_eq_cons h1
        obtain ⟨lv, lt, rfl, hv, ht⟩ := List.map_eq_append_iff.mp h2
        have hlen := membersTail_length_pos ms
        simp only [List.length_append] at hn
        have hpv := ihv v lv (lt ++ rest) hv (by omega)
        rw [List.cons_append, List.cons_append, List.append_assoc, parseMembers, hpv]
        rcases ms with _ | ⟨⟨k', v'⟩, ms⟩
        · obtain ⟨w, lt, rfl, h⟩ := map_snd_eq_cons ht
          obtain rfl := List.map_eq_nil_iff.mp h
          simp
        · obtain ⟨w, lt, rfl, h⟩ := map_snd_eq_cons ht
          simp only [Value.tokens.membersTail, List.length_cons, List.length_append] at hn
          have := v.tokens_length_pos
          simp [ihm k' v' ms (acc ++ [(k, v)]) lt rest h (by simp; omega)]

/-- A value written as tokens, with any whitespace, is read back whole. -/
theorem parseValue_tokens {v : Value} {n : Nat} {ls : List Lexeme} (rest : List Lexeme)
    (hls : ls.map Prod.snd = v.tokens) (hn : v.tokens.length ≤ n) :
    parseValue n (ls ++ rest) = some (v, rest) :=
  (parse_complete n).1 v ls rest hls hn

theorem parse_of_tokens {v : Value} {ls : List Lexeme} (hls : ls.map Prod.snd = v.tokens) :
    parse ls = some v := by
  have h := parseValue_tokens [] hls (by rw [← hls, List.length_map])
  rw [List.append_nil] at h
  simp [parse, h]

/-! ## What the reader consumes -/

theorem head_ne_of_not_cons {ls : List Lexeme} {t : Token} (h : ¬∃ w r, ls = (w, t) :: r) :
    ∀ t' ∈ (ls.map Prod.snd).head?, t' ≠ t := by
  rintro t' ht' rfl
  rcases ls with _ | ⟨⟨w, t''⟩, r⟩
  · simp at ht'
  · simp only [List.map_cons, List.head?_cons, Option.mem_def, Option.some.injEq] at ht'
    exact h ⟨w, r, by rw [ht']⟩

/-- Soundness of the three readers, by induction on the fuel. -/
theorem parse_sound (n : Nat) :
    (∀ (ls rest : List Lexeme) (v : Value), parseValue n ls = some (v, rest) →
        ∃ pre, ls = pre ++ rest ∧ pre.map Prod.snd = v.tokens) ∧
    (∀ (acc : List Value) (ls rest : List Lexeme) (v : Value), parseElems n acc ls = some (v, rest) →
        ∃ x xs pre, v = .array (acc ++ x :: xs) ∧ ls = pre ++ rest ∧
          pre.map Prod.snd = x.tokens ++ Value.tokens.elemsTail xs) ∧
    (∀ (acc : List (List Char × Value)) (ls rest : List Lexeme) (v : Value),
        parseMembers n acc ls = some (v, rest) →
        ∃ k x ms pre, v = .object (acc ++ (k, x) :: ms) ∧ ls = pre ++ rest ∧
          pre.map Prod.snd = .str k :: .colon :: x.tokens ++ Value.tokens.membersTail ms) := by
  induction n with
  | zero =>
      exact ⟨fun _ _ _ h => by simp [parseValue] at h, fun _ _ _ _ h => by simp [parseElems] at h,
        fun _ _ _ _ h => by simp [parseMembers] at h⟩
  | succ n ih =>
      obtain ⟨ihv, ihe, ihm⟩ := ih
      refine ⟨fun ls rest v h => ?_, fun acc ls rest v h => ?_, fun acc ls rest v h => ?_⟩
      · rcases ls with _ | ⟨⟨w, t⟩, ls⟩
        · simp [parseValue] at h
        · cases t with
          | beginArray =>
              by_cases hc : ∃ w' r, ls = (w', .endArray) :: r
              · obtain ⟨w', r, rfl⟩ := hc
                simp only [parseValue, Option.some.injEq, Prod.mk.injEq] at h
                obtain ⟨rfl, rfl⟩ := h
                exact ⟨[(w, .beginArray), (w', .endArray)], rfl, rfl⟩
              · rw [parseValue_beginArray n w (head_ne_of_not_cons hc)] at h
                obtain ⟨x, xs, pre, rfl, rfl, hpre⟩ := ihe [] ls rest v h
                exact ⟨(w, .beginArray) :: pre, rfl, by simp [Value.tokens, hpre]⟩
          | beginObject =>
              by_cases hc : ∃ w' r, ls = (w', .endObject) :: r
              · obtain ⟨w', r, rfl⟩ := hc
                simp only [parseValue, Option.some.injEq, Prod.mk.injEq] at h
                obtain ⟨rfl, rfl⟩ := h
                exact ⟨[(w, .beginObject), (w', .endObject)], rfl, rfl⟩
              · rw [parseValue_beginObject n w (head_ne_of_not_cons hc)] at h
                obtain ⟨k, x, ms, pre, rfl, rfl, hpre⟩ := ihm [] ls rest v h
                exact ⟨(w, .beginObject) :: pre, rfl, by simp [Value.tokens, hpre]⟩
          | str raw | num raw | lit raw =>
              simp only [parseValue, Option.some.injEq, Prod.mk.injEq] at h
              obtain ⟨rfl, rfl⟩ := h
              exact ⟨[(w, _)], rfl, rfl⟩
          | _ => simp [parseValue] at h
      · simp only [parseElems] at h
        split at h
        · rename_i x w r hx
          obtain ⟨pre, rfl, hpre⟩ := ihv ls _ x hx
          obtain ⟨y, ys, pre', rfl, rfl, hpre'⟩ := ihe _ r rest v h
          refine ⟨x, y :: ys, pre ++ (w, .comma) :: pre', by simp, by simp, ?_⟩
          simp [hpre, hpre', Value.tokens.elemsTail]
        · rename_i x w r hx
          simp only [Option.some.injEq, Prod.mk.injEq] at h
          obtain ⟨rfl, rfl⟩ := h
          obtain ⟨pre, rfl, hpre⟩ := ihv ls _ x hx
          exact ⟨x, [], pre ++ [(w, .endArray)], rfl, by simp, by simp [hpre,
            Value.tokens.elemsTail]⟩
        · simp at h
      · rcases ls with _ | ⟨⟨w₁, _ | _ | _ | _ | _ | _ | k | _ | _⟩, _ | ⟨⟨w₂, _ | _ | _ | _ | _ | _ | _ | _ | _⟩, ls⟩⟩
        all_goals simp only [parseMembers, reduceCtorEq] at h
        split at h
        · rename_i x w r hx
          obtain ⟨pre, rfl, hpre⟩ := ihv ls _ x hx
          obtain ⟨k', y, ys, pre', rfl, rfl, hpre'⟩ := ihm _ r rest v h
          refine ⟨k, x, (k', y) :: ys, (w₁, .str k) :: (w₂, .colon) :: pre ++ (w, .comma) :: pre',
            by simp, by simp, ?_⟩
          simp [hpre, hpre', Value.tokens.membersTail]
        · rename_i x w r hx
          simp only [Option.some.injEq, Prod.mk.injEq] at h
          obtain ⟨rfl, rfl⟩ := h
          obtain ⟨pre, rfl, hpre⟩ := ihv ls _ x hx
          exact ⟨k, x, [], (w₁, .str k) :: (w₂, .colon) :: pre ++ [(w, .endObject)], rfl,
            by simp, by simp [hpre, Value.tokens.membersTail]⟩
        · simp at h

/-- What `parseValue` consumes is the token sequence of the value it returns. -/
theorem parseValue_sound {n : Nat} {ls rest : List Lexeme} {v : Value}
    (h : parseValue n ls = some (v, rest)) :
    ∃ pre, ls = pre ++ rest ∧ pre.map Prod.snd = v.tokens :=
  (parse_sound n).1 ls rest v h

theorem parse_sound_tokens {ls : List Lexeme} {v : Value} (h : parse ls = some v) :
    ls.map Prod.snd = v.tokens := by
  unfold parse at h
  split at h
  · rename_i v' h'
    simp only [Option.some.injEq] at h
    subst h
    obtain ⟨pre, rfl, hpre⟩ := parseValue_sound h'
    simpa using hpre
  · simp at h

/-! ## A value's tokens, rendered with any whitespace, lex back -/

/-- Two tokens clash only if both are numbers or both literals, so a
punctuation token on either side never does. -/
theorem Token.clash_punct {t u : Token} (h : t = .comma ∨ t = .colon ∨ t = .beginArray ∨
    t = .beginObject ∨ u = .comma ∨ u = .colon ∨ u = .endArray ∨ u = .endObject) :
    t.clash u = false := by
  cases t <;> cases u <;> simp_all [Token.clash]

theorem Value.tokens_chain : ∀ v : Value, v.tokens.Chain' fun a b => a.clash b = false
  | .str _ | .num _ | .lit _ => List.chain'_singleton _
  | .array [] => by simp [tokens, Token.clash]
  | .array (v :: vs) => by
      simp only [tokens]
      refine List.chain'_cons'.mpr ⟨fun y _ => Token.clash_punct (by simp), ?_⟩
      exact List.chain'_append.mpr ⟨v.tokens_chain, elemsTail_chain vs, fun x _ y hy =>
        Token.clash_punct (by cases vs <;> simp_all [tokens.elemsTail])⟩
  | .object [] => by simp [tokens, Token.clash]
  | .object ((k, v) :: ms) => by
      simp only [tokens]
      refine List.chain'_cons'.mpr ⟨fun y _ => Token.clash_punct (by simp), ?_⟩
      refine List.chain'_cons'.mpr ⟨fun y hy => Token.clash_punct (by simp_all), ?_⟩
      refine List.chain'_cons'.mpr ⟨fun y _ => Token.clash_punct (by simp), ?_⟩
      exact List.chain'_append.mpr ⟨v.tokens_chain, membersTail_chain ms, fun x _ y hy =>
        Token.clash_punct (by rcases ms with _ | ⟨⟨_, _⟩, _⟩ <;> simp_all [tokens.membersTail])⟩
where
  elemsTail_chain : ∀ vs : List Value, (tokens.elemsTail vs).Chain' fun a b => a.clash b = false
    | [] => List.chain'_singleton _
    | v :: vs => by
        simp only [tokens.elemsTail]
        refine List.chain'_cons'.mpr ⟨fun y _ => Token.clash_punct (by simp), ?_⟩
        exact List.chain'_append.mpr ⟨v.tokens_chain, elemsTail_chain vs, fun x _ y hy =>
          Token.clash_punct (by cases vs <;> simp_all [tokens.elemsTail])⟩
  membersTail_chain : ∀ ms : List (List Char × Value),
      (tokens.membersTail ms).Chain' fun a b => a.clash b = false
    | [] => List.chain'_singleton _
    | (k, v) :: ms => by
        simp only [tokens.membersTail]
        refine List.chain'_cons'.mpr ⟨fun y _ => Token.clash_punct (by simp), ?_⟩
        refine List.chain'_cons'.mpr ⟨fun y hy => Token.clash_punct (by simp_all), ?_⟩
        refine List.chain'_cons'.mpr ⟨fun y _ => Token.clash_punct (by simp), ?_⟩
        exact List.chain'_append.mpr ⟨v.tokens_chain, membersTail_chain ms, fun x _ y hy =>
          Token.clash_punct (by rcases ms with _ | ⟨⟨_, _⟩, _⟩ <;> simp_all [tokens.membersTail])⟩

/-- A value's tokens with whitespace before each are a rendering the lexer
reads back, as long as its scalars are well formed. -/
theorem Value.wellFormed {v : Value} {ls : List Lexeme} {trail : List Char}
    (hls : ls.map Prod.snd = v.tokens) (hws : ∀ l ∈ ls, ∀ c ∈ l.1, isSpace c)
    (hvalid : ∀ t ∈ v.tokens, t.valid) (htrail : ∀ c ∈ trail, isSpace c) :
    WellFormed ls trail := by
  refine ⟨hws, htrail, fun l hl => hvalid _ (hls ▸ List.mem_map_of_mem _ hl), ?_⟩
  have hc := v.tokens_chain
  rw [← hls, List.chain'_map] at hc
  exact List.Chain'.imp (fun a b h (_ : b.1 = []) => h) hc

end Json
end Viracochan
