import Mathlib.Data.List.Basic
import Mathlib.Data.Nat.Digits
import Mathlib.Tactic.IntervalCases
import Mathlib.Tactic.Ring

/-!
# Viracochan: decimal and hexadecimal text

The number formats the library writes: `%d` and `strconv` decimals, the
zero-padded fields of `time.Format` (`appendInt`), and `hex.EncodeToString`.

Each format comes with the reading that undoes it, so that later modules can
argue that a printed number is read back (`ofDigits_decimal`) and that two
different numbers or byte strings never print alike (`decimal_injective`,
`appendInt_injective`, `hexEncode_injective`).  Texts made of such fields and
separators are split back into their fields with `append_cons_cancel_of_count`.
-/

namespace Viracochan

/-- The value of a decimal digit character. -/
def digitValue (c : Char) : Nat :=
  c.toNat - '0'.toNat

/-- The number denoted by a string of decimal digits, most significant first. -/
def ofDigits (l : List Char) : Nat :=
  l.foldl (fun acc c => 10 * acc + digitValue c) 0

/-- The decimal digits of `n` (`strconv.FormatUint(n, 10)`, `%d`). -/
def decimal (n : Nat) : List Char :=
  Nat.toDigits 10 n

/-- `appendInt(b, x, width)` of the `time` package: the decimal digits of `|x|`,
zero-padded to `width`, after a minus sign when `x` is negative. -/
def appendInt (x : Int) (width : Nat) : List Char :=
  (if x < 0 then ['-'] else []) ++
    List.replicate (width - (decimal x.natAbs).length) '0' ++ decimal x.natAbs

/-- `hex.EncodeToString`: two lowercase digits per byte. -/
def hexEncode (bytes : List UInt8) : String :=
  ⟨bytes.flatMap fun b => [Nat.digitChar (b.toNat / 16), Nat.digitChar (b.toNat % 16)]⟩

/-! ## Reading decimals back -/

theorem digitChar_digitValue {d : Nat} (hd : d < 10) : digitValue (Nat.digitChar d) = d := by
  interval_cases d <;> rfl

theorem digitChar_isDigit {d : Nat} (hd : d < 10) : (Nat.digitChar d).isDigit = true := by
  interval_cases d <;> rfl

theorem foldl_digits (l : List Char) (a : Nat) :
    l.foldl (fun acc c => 10 * acc + digitValue c) a = a * 10 ^ l.length + ofDigits l := by
  induction l generalizing a with
  | nil =>
      simp [ofDigits]
  | cons c l ih =>
      simp only [ofDigits, List.foldl_cons] at ih ⊢
      rw [ih, ih (10 * 0 + digitValue c), List.length_cons, pow_succ]
      ring

theorem ofDigits_append (l₁ l₂ : List Char) :
    ofDigits (l₁ ++ l₂) = ofDigits l₁ * 10 ^ l₂.length + ofDigits l₂ := by
  rw [ofDigits, List.foldl_append, foldl_digits]
  rfl

theorem ofDigits_toDigitsCore :
    ∀ (fuel n : Nat) (ds : List Char), n < 10 ^ fuel →
      ofDigits (Nat.toDigitsCore 10 fuel n ds) = n * 10 ^ ds.length + ofDigits ds
  | 0, n, ds, h => by simp at h; simp [Nat.toDigitsCore, h]
  | fuel + 1, n, ds, h => by
      have hd := digitChar_digitValue (Nat.mod_lt n (by decide : 10 > 0))
      simp only [Nat.toDigitsCore]
      split
      · rename_i h0
        rw [show Nat.digitChar (n % 10) :: ds = [Nat.digitChar (n % 10)] ++ ds from rfl,
          ofDigits_append]
        simp [ofDigits, hd]
        omega
      · rw [ofDigits_toDigitsCore fuel _ _ (by rw [pow_succ] at h; omega),
          show Nat.digitChar (n % 10) :: ds = [Nat.digitChar (n % 10)] ++ ds from rfl,
          ofDigits_append]
        simp only [ofDigits, List.foldl_cons, List.foldl_nil, hd, List.length_append,
          List.length_singleton]
        have h10 : n = 10 * (n / 10) + n % 10 := (Nat.div_add_mod n 10).symm
        generalize n / 10 = q at h10 ⊢
        generalize n % 10 = r at h10 ⊢
        subst h10
        ring

theorem ofDigits_decimal (n : Nat) : ofDigits (decimal n) = n := by
  have h := ofDigits_toDigitsCore (n + 1) n [] (Nat.lt_pow_self (by decide) _ |>.trans_le
    (Nat.pow_le_pow_right (by decide) (Nat.le_succ n)))
  simpa [decimal, Nat.toDigits, ofDigits] using h

theorem decimal_injective : Function.Injective decimal := fun a b h => by
  rw [← ofDigits_decimal a, h, ofDigits_decimal]

theorem toDigitsCore_isDigit :
    ∀ (fuel n : Nat) (ds : List Char), (∀ c ∈ ds, c.isDigit = true) →
      ∀ c ∈ Nat.toDigitsCore 10 fuel n ds, c.isDigit = true
  | 0, _, _, h => h
  | fuel + 1, n, ds, h => by
      have hd := digitChar_isDigit (Nat.mod_lt n (by decide : 10 > 0))
      simp only [Nat.toDigitsCore]
      split
      · simpa [hd] using h
      · exact toDigitsCore_isDigit fuel _ _ (by simpa [hd] using h)

theorem decimal_isDigit (n : Nat) : ∀ c ∈ decimal n, c.isDigit = true :=
  toDigitsCore_isDigit _ _ _ (by simp)

theorem toDigitsCore_ne_nil :
    ∀ (fuel n : Nat) (ds : List Char), 0 < fuel → Nat.toDigitsCore 10 fuel n ds ≠ []
  | 0, _, _, h => absurd h (by decide)
  | fuel + 1, n, ds, _ => by
      simp only [Nat.toDigitsCore]
      split
      · simp
      · cases fuel with
        | zero => simp [Nat.toDigitsCore]
        | succ f => exact toDigitsCore_ne_nil _ _ _ (Nat.succ_pos _)

theorem decimal_ne_nil (n : Nat) : decimal n ≠ [] :=
  toDigitsCore_ne_nil _ _ _ (Nat.succ_pos _)

theorem digitValue_lt {c : Char} (h : c.isDigit = true) : digitValue c < 10 := by
  simp only [Char.isDigit, Bool.and_eq_true, decide_eq_true_eq] at h
  have h2 : c.toNat ≤ 57 := h.2
  have h0 : '0'.toNat = 48 := rfl
  simp only [digitValue, h0]
  omega

theorem decimal_length_le {n w : Nat} (hw : 0 < w) (hn : n < 10 ^ w) : (decimal n).length ≤ w :=
  Nat.toDigitsCore_length 10 (by decide) (n + 1) n w hn hw

theorem ofDigits_zeros (k : Nat) (l : List Char) :
    ofDigits (List.replicate k '0' ++ l) = ofDigits l := by
  induction k with
  | zero => rfl
  | succ k ih =>
      rw [List.replicate_succ, List.cons_append, show '0' :: (List.replicate k '0' ++ l) =
        ['0'] ++ (List.replicate k '0' ++ l) from rfl, ofDigits_append, ih]
      simp [ofDigits, digitValue]

/-- A number below `10 ^ w` is written by `appendInt` in exactly `w` digits,
which read back as the number. -/
theorem appendInt_spec {x : Int} {w : Nat} (h0 : 0 ≤ x) (hw : 0 < w) (hx : x < 10 ^ w) :
    (appendInt x w).length = w ∧ (∀ c ∈ appendInt x w, c.isDigit = true) ∧
      (ofDigits (appendInt x w) : Int) = x := by
  have hn : x.natAbs < 10 ^ w := by
    have : ((x.natAbs : Nat) : Int) < ((10 ^ w : Nat) : Int) := by
      rw [Int.natAbs_of_nonneg h0]; exact_mod_cast hx
    exact_mod_cast this
  have hlen := decimal_length_le hw hn
  simp only [appendInt, if_neg (not_lt.mpr h0), List.nil_append]
  refine ⟨by simp; omega, fun c hc => ?_, by rw [ofDigits_zeros, ofDigits_decimal]; omega⟩
  rcases List.mem_append.mp hc with hc | hc
  · rw [List.eq_of_mem_replicate hc]; rfl
  · exact decimal_isDigit _ c hc

theorem appendInt_chars (x : Int) (w : Nat) :
    ∀ c ∈ appendInt x w, c = '-' ∨ c.isDigit = true := by
  intro c hc
  simp only [appendInt, List.mem_append] at hc
  rcases hc with (hc | hc) | hc
  · split at hc <;> simp_all
  · exact .inr (by rw [List.eq_of_mem_replicate hc]; rfl)
  · exact .inr (decimal_isDigit _ c hc)

theorem not_mem_appendInt {c : Char} (h1 : c ≠ '-') (h2 : c.isDigit = false) (x : Int) (w : Nat) :
    c ∉ appendInt x w := fun hc => by
  rcases appendInt_chars x w c hc with rfl | h
  · exact h1 rfl
  · rw [h2] at h; cases h

/-- `appendInt` at any width writes different numbers differently. -/
theorem appendInt_injective {a b : Int} {w : Nat} (h : appendInt a w = appendInt b w) : a = b := by
  have hz : ∀ x : Int, ofDigits (List.replicate (w - (decimal x.natAbs).length) '0' ++
      decimal x.natAbs) = x.natAbs := fun x => by rw [ofDigits_zeros, ofDigits_decimal]
  have hd : ∀ x : Int, '-' ∉ List.replicate (w - (decimal x.natAbs).length) '0' ++
      decimal x.natAbs := fun x hm => by
    rcases List.mem_append.mp hm with hm | hm
    · exact absurd (List.eq_of_mem_replicate hm) (by decide)
    · exact absurd (decimal_isDigit _ _ hm) (by decide)
  simp only [appendInt] at h
  by_cases ha : a < 0 <;> by_cases hb : b < 0 <;>
    simp only [ha, hb, if_true, if_false, List.singleton_append, List.nil_append, List.cons_append,
      List.cons.injEq, true_and] at h
  · have := congrArg ofDigits h
    rw [hz, hz] at this
    omega
  · exact (hd b (h ▸ List.mem_cons_self _ _)).elim
  · exact (hd a (h.symm ▸ List.mem_cons_self _ _)).elim
  · have := congrArg ofDigits h
    rw [hz, hz] at this
    omega

theorem ofDigits_lt {l : List Char} (hl : ∀ c ∈ l, c.isDigit = true) :
    ofDigits l < 10 ^ l.length := by
  induction l with
  | nil => simp [ofDigits]
  | cons c l ih =>
      have hc := digitValue_lt (hl c (List.mem_cons_self _ _))
      have ih := ih fun d hd => hl d (List.mem_cons_of_mem _ hd)
      have h1 : ofDigits [c] = digitValue c := by simp [ofDigits]
      rw [show c :: l = [c] ++ l from rfl, ofDigits_append, h1, List.length_append,
        List.length_singleton, show 1 + l.length = l.length + 1 by omega, pow_succ]
      nlinarith

/-- The decimal digits of a positive number do not start with `0`. -/
theorem decimal_head_ne_zero {n : Nat} (hn : 0 < n) (r : List Char) : decimal n ≠ '0' :: r := by
  intro h
  have h2 : ofDigits r = n := by
    rw [← ofDigits_decimal n, h]; exact (ofDigits_zeros 1 r).symm
  have hr : r ≠ [] := by rintro rfl; simp [ofDigits] at h2; omega
  have hd : ∀ c ∈ r, c.isDigit = true := fun c hc =>
    decimal_isDigit n c (h ▸ List.mem_cons_of_mem _ hc)
  have := decimal_length_le (List.length_pos.mpr hr) (h2 ▸ ofDigits_lt hd)
  rw [h] at this
  simp at this

/-! ## Hexadecimal -/

theorem hexPair_injective {a b : UInt8}
    (h : [Nat.digitChar (a.toNat / 16), Nat.digitChar (a.toNat % 16)] =
      [Nat.digitChar (b.toNat / 16), Nat.digitChar (b.toNat % 16)]) : a = b := by
  have ha : a.toNat < 256 := a.toNat_lt_size
  have hb : b.toNat < 256 := b.toNat_lt_size
  have key : ∀ x < 16, ∀ y < 16, Nat.digitChar x = Nat.digitChar y → x = y := by
    decide
  simp only [List.cons.injEq, and_true] at h
  have h1 := key _ (by omega) _ (by omega) h.1
  have h2 := key _ (by omega) _ (by omega) h.2
  exact UInt8.toNat.inj (by omega)

theorem hexEncode_injective : Function.Injective hexEncode := by
  intro a b h
  have h' : (a.flatMap fun x => [Nat.digitChar (x.toNat / 16), Nat.digitChar (x.toNat % 16)]) =
      b.flatMap fun x => [Nat.digitChar (x.toNat / 16), Nat.digitChar (x.toNat % 16)] :=
    congrArg String.data h
  induction a generalizing b with
  | nil =>
      cases b with
      | nil => rfl
      | cons y ys => simp at h'
  | cons x xs ih =>
      cases b with
      | nil => simp at h'
      | cons y ys =>
          simp only [List.flatMap_cons, List.cons_append, List.nil_append, List.cons.injEq] at h'
          obtain ⟨h1, h2, h3⟩ := h'
          obtain rfl : x = y := hexPair_injective (by rw [h1, h2])
          rw [ih (congrArg String.mk h3) h3]

/-- Hex digits are the digit characters of `0`–`15`. -/
theorem hexEncode_digitChar (bytes : List UInt8) :
    ∀ c ∈ (hexEncode bytes).data, ∃ d < 16, Nat.digitChar d = c := by
  intro c hc
  simp only [hexEncode, List.mem_flatMap, List.mem_cons, List.mem_singleton,
    List.not_mem_nil, or_false] at hc
  obtain ⟨b, -, rfl | rfl⟩ := hc
  · exact ⟨_, by have : b.toNat < 256 := b.toNat_lt_size; omega, rfl⟩
  · exact ⟨_, Nat.mod_lt _ (by decide), rfl⟩

/-! ## Splitting at a separator -/

/-- Two lists that agree around a separator `c`, with as many `c` after it on
both sides, agree on the parts before and after it. -/
theorem append_cons_cancel_of_count {α : Type} [DecidableEq α] {c : α} {l l' r r' : List α}
    (h : l ++ c :: r = l' ++ c :: r') (hc : r.count c = r'.count c) : l = l' ∧ r = r' := by
  rcases List.append_eq_append_iff.mp h with ⟨a, rfl, ha⟩ | ⟨a, rfl, ha⟩
  · cases a with
    | nil => simpa using ha
    | cons d a =>
        obtain ⟨rfl, rfl⟩ := List.cons.inj ha
        simp [List.count_append] at hc
        omega
  · cases a with
    | nil => simpa using ha.symm
    | cons d a =>
        obtain ⟨rfl, rfl⟩ := List.cons.inj ha
        simp [List.count_append] at hc
        omega

/-- Two lists that agree around the first occurrence of a separator agree on
the parts before and after it. -/
theorem append_cons_cancel_of_not_mem {α : Type} [DecidableEq α] {c : α} {l l' r r' : List α}
    (hl : c ∉ l) (hl' : c ∉ l') (h : l ++ c :: r = l' ++ c :: r') : l = l' ∧ r = r' := by
  refine append_cons_cancel_of_count h ?_
  have := congrArg (List.count c) h
  simp only [List.count_append, List.count_cons_self, List.count_eq_zero_of_not_mem hl,
    List.count_eq_zero_of_not_mem hl'] at this
  omega

end Viracochan
