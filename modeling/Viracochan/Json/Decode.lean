import Viracochan.Json.Format
import Viracochan.Text

/-!
# Viracochan: decoding JSON into structures

What `json.Unmarshal` does, once `checkValid` has accepted the text, when the
target is one of the library's structures.

**Input.** The lexemes of one valid value.

**Algorithm.** The decoder walks the value once:

* `span` cuts the lexemes of the value at the front of a stream;
  `spanText` is the slice `d.data[start:d.off]` that an `Unmarshaler`
  (`time.Time`, `json.RawMessage`, `*Config`) is handed.
* `members` lists an object's members as key bodies and value spans.
* `decodeStruct` fills a struct member by member.  A key selects a field by
  its exact name, else by its name folded (`foldName`); unknown keys are
  skipped and a repeated key is decoded again over the first.  A value of the
  wrong kind is an `UnmarshalTypeError` that is saved and reported once the
  whole value is decoded; an error of an `Unmarshaler` stops the decoding.
* Errors carry Go's `errorContext`: the innermost struct and the path of field
  names to the value that failed.

**Results.** `span_append` and `members_bare`: the spans and members of a
value written without whitespace are read back exactly, which is what the
round trips of `Codec` rest on; `decodeStruct_members` unfolds the decoding
of an object member by member.
-/

namespace Viracochan
namespace Json

/-! ## Spans -/

/-- The lexemes of the value at the front of `ls`, and what follows it. -/
def span (ls : List Lexeme) : Option (List Lexeme × List Lexeme) :=
  (parseValue ls.length ls).map fun r => (ls.take (ls.length - r.2.length), r.2)

/-- The bytes `d.data[start:d.off]` of a value: its text without the
whitespace before it. -/
def spanText : List Lexeme → List Char
  | [] => []
  | (_, t) :: ls => t.text ++ render ls []

/-- A value written as tokens, with any whitespace, is cut off whole. -/
theorem span_append {v : Value} {ls : List Lexeme} (rest : List Lexeme)
    (hls : ls.map Prod.snd = v.tokens) : span (ls ++ rest) = some (ls, rest) := by
  have hlen : v.tokens.length ≤ (ls ++ rest).length := by
    rw [← hls, List.length_append, List.length_map]; omega
  unfold span
  rw [parseValue_tokens rest hls hlen]
  simp

@[simp] theorem bare_nil : bare [] = [] := rfl

@[simp] theorem bare_cons (t : Token) (ts : List Token) : bare (t :: ts) = ([], t) :: bare ts := rfl

theorem bare_append (ts us : List Token) : bare (ts ++ us) = bare ts ++ bare us :=
  List.map_append _ _ _

theorem spanText_bare (ts : List Token) : spanText (bare ts) = render (bare ts) [] := by
  cases ts <;> simp [spanText, bare, render]

/-! ## Members of an object -/

/-- The members of an object, each as its key's body and its value's lexemes. -/
def members (ls : List Lexeme) : Option (List (List Char × List Lexeme)) :=
  match ls with
  | [(_, .beginObject), (_, .endObject)] => some []
  | (_, .beginObject) :: rest => go rest.length rest
  | _ => none
where
  /-- The members after `{` or a comma. -/
  go : Nat → List Lexeme → Option (List (List Char × List Lexeme))
    | 0, _ => none
    | n + 1, (_, .str k) :: (_, .colon) :: ls =>
        match span ls with
        | some (vls, (_, .comma) :: rest) => (go n rest).map ((k, vls) :: ·)
        | some (vls, [(_, .endObject)]) => some [(k, vls)]
        | _ => none
    | _ + 1, _ => none

theorem members_cons_str (w w' k : List Char) (ls : List Lexeme) :
    members ((w, .beginObject) :: (w', .str k) :: ls) =
      members.go (ls.length + 1) ((w', .str k) :: ls) := rfl

theorem members_go_bare :
    ∀ (ms : List (List Char × Value)) (n : Nat), (Value.tokens.membersTail ms).length ≤ n + 1 →
      ∀ (k : List Char) (v : Value),
      members.go (n + 1) (bare (.str k :: .colon :: v.tokens ++ Value.tokens.membersTail ms)) =
        some ((k, bare v.tokens) :: ms.map fun m => (m.1, bare m.2.tokens))
  | [], n, _, k, v => by
      simp only [Value.tokens.membersTail, bare_append, bare_cons, bare_nil, List.cons_append]
      rw [members.go, span_append _ (bare_map_snd v.tokens)]
      simp
  | (k', v') :: ms, n, hn, k, v => by
      simp only [Value.tokens.membersTail, List.length_cons, List.length_append] at hn
      have hpos := v'.tokens_length_pos
      obtain ⟨m, rfl⟩ : ∃ m, n = m + 1 := ⟨n - 1, by omega⟩
      have ih := members_go_bare ms m (by omega) k' v'
      simp only [Value.tokens.membersTail, bare_append, bare_cons, List.cons_append] at ih ⊢
      rw [members.go, span_append _ (bare_map_snd v.tokens)]
      simp [ih]

/-- The members of an object written without whitespace are read back. -/
theorem members_bare (ms : List (List Char × Value)) :
    members (bare (Value.object ms).tokens) = some (ms.map fun m => (m.1, bare m.2.tokens)) := by
  match ms with
  | [] => rfl
  | (k, v) :: ms =>
      have h := members_go_bare ms ((v.tokens ++ Value.tokens.membersTail ms).length + 1)
        (by simp; omega) k v
      simp only [Value.tokens, bare_append, bare_cons, List.cons_append] at h ⊢
      rw [members_cons_str]
      simpa [bare] using h

/-- The members of an object written with any whitespace: the same keys, and
values with the same tokens. -/
theorem members_go_lexemes :
    ∀ (ms : List (List Char × Value)) (n : Nat) (k : List Char) (v : Value) (ls : List Lexeme),
      ls.map Prod.snd = .str k :: .colon :: v.tokens ++ Value.tokens.membersTail ms →
      (Value.tokens.membersTail ms).length ≤ n + 1 →
      ∃ spans, members.go (n + 1) ls = some spans ∧
        spans.map (fun sp => (sp.1, bare (sp.2.map Prod.snd))) =
          ((k, v) :: ms).map fun m => (m.1, bare m.2.tokens)
  | ms, n, k, v, ls, hls, hn => by
      obtain ⟨w1, ls1, rfl, h1⟩ := map_snd_eq_cons hls
      obtain ⟨w2, ls2, rfl, h2⟩ := map_snd_eq_cons h1
      obtain ⟨vls, tail, rfl, hv, ht⟩ := List.map_eq_append_iff.mp h2
      rw [members.go, span_append _ hv]
      match ms, tail, ht, hn with
      | [], tail, ht, _ =>
          obtain ⟨w, tail', rfl, ht'⟩ := map_snd_eq_cons ht
          obtain rfl : tail' = [] := List.map_eq_nil_iff.mp ht'
          exact ⟨[(k, vls)], rfl, by simp [hv]⟩
      | (k', v') :: ms', tail, ht, hn =>
          simp only [Value.tokens.membersTail, List.cons_append] at ht hn
          obtain ⟨w, rest, rfl, hrest⟩ := map_snd_eq_cons ht
          have hpos := v'.tokens_length_pos
          simp only [List.length_cons, List.length_append] at hn
          obtain ⟨m, rfl⟩ : ∃ m, n = m + 1 := ⟨n - 1, by omega⟩
          obtain ⟨spans, hs, hmap⟩ := members_go_lexemes ms' m k' v' rest hrest (by omega)
          refine ⟨(k, vls) :: spans, by simp [hs], ?_⟩
          simp only [List.map_cons] at hmap ⊢
          rw [hmap, hv]

/-- `members_go_lexemes` for a whole object. -/
theorem members_lexemes {ms : List (List Char × Value)} {ls : List Lexeme}
    (hls : ls.map Prod.snd = (Value.object ms).tokens) :
    ∃ spans, members ls = some spans ∧
      spans.map (fun sp => (sp.1, bare (sp.2.map Prod.snd))) = ms.map fun m => (m.1, bare m.2.tokens) := by
  match ms, hls with
  | [], hls =>
      obtain ⟨w, ls1, rfl, h1⟩ := map_snd_eq_cons hls
      obtain ⟨w', ls2, rfl, h2⟩ := map_snd_eq_cons h1
      obtain rfl : ls2 = [] := List.map_eq_nil_iff.mp h2
      exact ⟨[], rfl, rfl⟩
  | (k, v) :: ms, hls =>
      simp only [Value.tokens, List.cons_append] at hls
      obtain ⟨w, ls1, rfl, h1⟩ := map_snd_eq_cons hls
      obtain ⟨w', ls2, rfl, h2⟩ := map_snd_eq_cons h1
      rw [members_cons_str]
      exact members_go_lexemes ms ls2.length k v ((w', .str k) :: ls2) (by simp [h2])
        (by rw [← List.length_map ls2 Prod.snd, h2]; simp; omega)

/-- The two members of an object, written with any whitespace. -/
theorem members_pair {k1 k2 : List Char} {v1 v2 : Value} {l1 l2 : List Lexeme}
    (w0 w1 w2 w3 w4 w5 w6 : List Char) (h1 : l1.map Prod.snd = v1.tokens)
    (h2 : l2.map Prod.snd = v2.tokens) :
    members ((w0, .beginObject) :: (w1, .str k1) :: (w2, .colon) :: l1 ++
        (w3, .comma) :: (w4, .str k2) :: (w5, .colon) :: l2 ++ [(w6, .endObject)]) =
      some [(k1, l1), (k2, l2)] := by
  have hl2 : 0 < l2.length := by rw [← List.length_map l2 Prod.snd, h2]; exact v2.tokens_length_pos
  obtain ⟨n, hn⟩ : ∃ n, l2.length = n + 1 := ⟨l2.length - 1, by omega⟩
  simp only [List.cons_append, members_cons_str, List.append_assoc]
  rw [members.go, span_append _ h1]
  simp only [List.length_append, List.length_cons, hn, Nat.add_succ]
  rw [members.go, span_append _ h2]
  rfl

/-! ## Errors -/

/-- Go's `errorContext`: the innermost struct being filled and the names of
the fields on the way to the value being decoded. -/
structure Context where
  struct : String
  fields : List String
deriving DecidableEq, Repr

/-- The errors decoding ends with: the syntax error of `checkValid`, an
`UnmarshalTypeError` (the kind of value met, the Go type it was to be stored
in, and the context it was met in), or the error of an `Unmarshaler`. -/
inductive DecodeError where
  | syntaxErr
  | type (value type : String) (ctx : Option Context)
  | message (text : String)
deriving DecidableEq, Repr

/-- `addErrorContext`: a type error takes the context of the field being
decoded when it surfaces. -/
def DecodeError.addContext : Option Context → DecodeError → DecodeError
  | some c, .type v t _ => .type v t (some c)
  | _, e => e

/-- The text of an error, as its `Error` method writes it. -/
def DecodeError.text : DecodeError → String
  | .syntaxErr => syntaxError
  | .type v t none => "json: cannot unmarshal " ++ v ++ " into Go value of type " ++ t
  | .type v t (some c) => "json: cannot unmarshal " ++ v ++ " into Go struct field " ++ c.struct ++
      "." ++ ".".intercalate c.fields ++ " of type " ++ t
  | .message text => text

/-- The kind of value an `UnmarshalTypeError` names. -/
def kindOf : List Lexeme → String
  | (_, .str _) :: _ => "string"
  | (_, .num _) :: _ => "number"
  | (_, .lit _) :: _ => "bool"
  | (_, .beginArray) :: _ => "array"
  | _ => "object"

/-- The `null` literal. -/
def isNull : List Lexeme → Bool
  | [(_, .lit t)] => t = "null".data
  | _ => false

/-! ## Filling a struct -/

/-- The outcome of decoding into a field or a struct: the value, and the first
type error met so far, or an error that stopped the decoding. -/
abbrev Decoded (α : Type) := Except DecodeError (α × Option DecodeError)

/-- The outcome of a whole `Unmarshal`: the value, or the error that stopped
it, or else the first type error. -/
def Decoded.result {α : Type} : Decoded α → Except DecodeError α
  | .ok (a, none) => .ok a
  | .ok (_, some e) => .error e
  | .error e => .error e

/-- One field of a struct: its JSON name, and how a member's value is stored
into it, given the context of that member. -/
structure StructField (α : Type) where
  name : String
  store : Context → List Lexeme → α → Decoded α

/-- `foldName` on one character, as far as matching the library's field names
goes: ASCII letters to upper case, and the two non-ASCII runes that fold to an
ASCII letter (U+017F to `S`, U+212A to `K`). -/
def foldChar (c : Char) : Char :=
  if 'a'.toNat ≤ c.toNat ∧ c.toNat ≤ 'z'.toNat then Char.ofNat (c.toNat - 32)
  else if c = 'ſ' then 'S'
  else if c = 'K' then 'K'
  else c

/-- The field a key selects: the exact name first, else the folded one. -/
def lookup {α : Type} (fs : List (StructField α)) (key : List Char) : Option (StructField α) :=
  match fs.find? (fun f => f.name.data = key) with
  | some f => some f
  | none => fs.find? fun f => f.name.data.map foldChar = key.map foldChar

theorem lookup_mem {α : Type} {fs : List (StructField α)} {key : List Char} {f : StructField α}
    (h : lookup fs key = some f) : f ∈ fs := by
  unfold lookup at h
  split at h
  · cases h; exact List.mem_of_find?_eq_some ‹_›
  · exact List.mem_of_find?_eq_some h

/-- A field whose value is stored alike whatever whitespace stands before a
one-token value. -/
def StructField.Scalar {α : Type} (f : StructField α) : Prop :=
  ∀ ctx w t a, f.store ctx [(w, t)] a = f.store ctx [([], t)] a

section Struct

variable {α : Type} (type struct : String) (fs : List (StructField α)) (path : List String)

/-- The members of an object stored field by field; the first type error is
kept. -/
def decodeMembers : List (List Char × List Lexeme) → α → Option DecodeError → Decoded α
  | [], a, e => .ok (a, e)
  | (k, vls) :: ms, a, e =>
      match lookup fs (unquote k) with
      | none => decodeMembers ms a e
      | some f =>
          match f.store ⟨struct, path ++ [f.name]⟩ vls a with
          | .ok (a', e') => decodeMembers ms a' (e.orElse fun _ => e')
          | .error err => .error err

/-- `d.object` into a struct of Go type `type`, named `struct`, reached
through the fields `path`: `null` leaves it as it is, another kind of value is
a type error in the context `ctx`. -/
def decodeStruct (ctx : Option Context) (vls : List Lexeme) (a : α) : Decoded α :=
  if isNull vls then .ok (a, none)
  else match vls with
    | (_, .beginObject) :: _ =>
        match members vls with
        | some ms => decodeMembers struct fs path ms a none
        | none => .error .syntaxErr
    | _ => .ok (a, some ((DecodeError.type (kindOf vls) type none).addContext ctx))

theorem isNull_beginObject (w : List Char) (ls : List Lexeme) :
    isNull ((w, .beginObject) :: ls) = false := rfl

theorem decodeStruct_object {ms : List (List Char × Value)} (ctx : Option Context) (a : α) :
    decodeStruct type struct fs path ctx (bare (Value.object ms).tokens) a =
      decodeMembers struct fs path (ms.map fun m => (m.1, bare m.2.tokens)) a none := by
  have h := members_bare ms
  cases ms with
  | nil => rfl
  | cons m ms =>
      simp only [Value.tokens, List.cons_append, bare_cons] at h ⊢
      simp only [decodeStruct, isNull_beginObject, Bool.false_eq_true, if_false, h]

theorem decodeStruct_of_members {w : List Char} {rest : List Lexeme}
    {spans : List (List Char × List Lexeme)} (h : members ((w, .beginObject) :: rest) = some spans)
    (ctx : Option Context) (a : α) :
    decodeStruct type struct fs path ctx ((w, .beginObject) :: rest) a =
      decodeMembers struct fs path spans a none := by
  simp only [decodeStruct, isNull_beginObject, Bool.false_eq_true, if_false, h]

/-- Members whose values are single tokens are stored alike with or without
whitespace, when every field is scalar. -/
theorem decodeMembers_scalars (hfs : ∀ f ∈ fs, f.Scalar) :
    ∀ (spans : List (List Char × List Lexeme)) (a : α) (e : Option DecodeError),
      (∀ sp ∈ spans, sp.2.length = 1) →
      decodeMembers struct fs path spans a e =
        decodeMembers struct fs path (spans.map fun sp => (sp.1, bare (sp.2.map Prod.snd))) a e
  | [], _, _, _ => rfl
  | (k, vls) :: spans, a, e, h => by
      obtain ⟨⟨w, t⟩, hl⟩ := List.length_eq_one.mp (h (k, vls) (List.mem_cons_self _ _))
      subst hl
      have ih := decodeMembers_scalars hfs spans
      simp only [List.map_cons, decodeMembers, List.map, bare_cons, bare_nil]
      cases hf : lookup fs (unquote k) with
      | none => exact ih a e fun sp hsp => h sp (List.mem_cons_of_mem _ hsp)
      | some f =>
          simp only
          rw [hfs f (lookup_mem hf)]
          cases f.store ⟨struct, path ++ [f.name]⟩ [([], t)] a with
          | ok r => exact ih _ _ fun sp hsp => h sp (List.mem_cons_of_mem _ hsp)
          | error err => rfl

/-- **Whitespace does not matter to a struct of scalars.**  An object whose
member values are single tokens, written with any whitespace, is decoded as
the same object written without whitespace, when every field is scalar. -/
theorem decodeStruct_scalars {ms : List (List Char × Value)} {ls : List Lexeme}
    (hls : ls.map Prod.snd = (Value.object ms).tokens) (hfs : ∀ f ∈ fs, f.Scalar)
    (hms : ∀ m ∈ ms, m.2.tokens.length = 1) (ctx : Option Context) (a : α) :
    decodeStruct type struct fs path ctx ls a =
      decodeStruct type struct fs path ctx (bare (Value.object ms).tokens) a := by
  obtain ⟨spans, hs, hmap⟩ := members_lexemes hls
  obtain ⟨t, ts, hv, -⟩ := (Value.object ms).tokens_head
  have ht : t = .beginObject := by cases ms <;> simp [Value.tokens] at hv <;> exact hv.1.symm
  subst ht
  obtain ⟨w, ls', rfl, -⟩ := map_snd_eq_cons (hls.trans hv)
  have hlen : ∀ sp ∈ spans, sp.2.length = 1 := by
    intro sp hsp
    obtain ⟨m, hm, hme⟩ := List.mem_map.mp (hmap ▸ List.mem_map_of_mem _ hsp)
    have := congrArg (fun p => p.2.length) hme
    simp only [bare, List.length_map] at this
    rw [← this, hms m hm]
  rw [decodeStruct_object]
  simp only [decodeStruct, isNull_beginObject, Bool.false_eq_true, if_false, hs]
  rw [decodeMembers_scalars struct fs path hfs spans a none hlen, hmap]

end Struct

/-! ## Scalar fields -/

/-- `strconv.ParseUint(s, 10, 64)`. -/
def parseUint (s : List Char) : Option UInt64 :=
  if s ≠ [] ∧ s.all Char.isDigit ∧ ofDigits s < 2 ^ 64 then some (UInt64.ofNat (ofDigits s))
  else none

/-- A `uint64` field: a number that `ParseUint` accepts; `null` is skipped. -/
def storeUint64 {α : Type} (set : UInt64 → α → α) (ctx : Context) (vls : List Lexeme)
    (a : α) : Decoded α :=
  if isNull vls then .ok (a, none)
  else match vls with
    | [(_, .num t)] =>
        match parseUint t with
        | some n => .ok (set n a, none)
        | none => .ok (a, some (.type ("number " ++ String.mk t) "uint64" (some ctx)))
    | _ => .ok (a, some (.type (kindOf vls) "uint64" (some ctx)))

/-- A `string` field: a string literal, unquoted; `null` is skipped. -/
def storeString {α : Type} (set : String → α → α) (ctx : Context) (vls : List Lexeme)
    (a : α) : Decoded α :=
  if isNull vls then .ok (a, none)
  else match vls with
    | [(_, .str raw)] => .ok (set (String.mk (unquote raw)) a, none)
    | _ => .ok (a, some (.type (kindOf vls) "string" (some ctx)))

theorem parseUint_decimal (n : UInt64) : parseUint (decimal n.toNat) = some n := by
  have hlt : n.toNat < 2 ^ 64 := n.val.isLt
  simp only [parseUint, ofDigits_decimal, decimal_ne_nil, ne_eq, not_false_eq_true,
    List.all_eq_true, true_and]
  rw [if_pos ⟨decimal_isDigit _, hlt⟩]
  exact congrArg some (UInt64.eq_of_val_eq (by simp [UInt64.ofNat, UInt64.toNat]))

theorem storeUint64_decimal {α : Type} (set : UInt64 → α → α) (ctx : Context) (n : UInt64)
    (a : α) : storeUint64 set ctx (bare [.num (decimal n.toNat)]) a = .ok (set n a, none) := by
  simp [storeUint64, bare, isNull, parseUint_decimal]

theorem storeString_escape {α : Type} (set : String → α → α) (ctx : Context) (s : String)
    (a : α) : storeString set ctx (bare [.str (escape s.data)]) a = .ok (set s a, none) := by
  simp [storeString, bare, isNull, unquote_escape]

end Json
end Viracochan
