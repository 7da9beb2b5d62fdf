import Viracochan.Time

/-!
# Viracochan: reading timestamps back

`time.Time.UnmarshalJSON` takes the body of a JSON string literal, unescaped
or not, and parses it with `parseStrictRFC3339`, whose first attempt is the
fast `parseRFC3339`: nineteen characters of date and time at fixed positions,
each numeric field range-checked (the day against the length of its month),
an optional fraction of which the first nine digits count, and a zone that is
`Z` or `±hh:mm`.

**Results.** `parseRFC3339_format`: whatever `MarshalJSON` writes for a time
whose zone offset is a whole number of minutes is read back as the same time
(`unmarshalJSON_marshalJSON`).  An offset with seconds is not: the layout
drops them (`appendZone`).  At offset zero, as in checksums and signing
messages, the text determines the instant whatever the year
(`formatRFC3339Nano_injective`), and holds exactly two colons.
-/

namespace Viracochan
namespace GoTime

/-! ## The parser -/

/-- `parseUint` of `parseRFC3339`: the digits of `s` as a number in `[lo, hi]`. -/
def parseNum (s : List Char) (lo hi : Int) : Option Int :=
  if s.all Char.isDigit ∧ lo ≤ (ofDigits s : Int) ∧ (ofDigits s : Int) ≤ hi then
    some (ofDigits s)
  else none

/-- `parseNanoseconds`: the first nine digits of a fraction, scaled to
nanoseconds; later digits are dropped. -/
def fracNanos (ds : List Char) : Int :=
  ofDigits (ds.take 9) * 10 ^ (9 - (ds.take 9).length)

/-- The optional fraction after the seconds: a dot and at least one digit. -/
def fraction : List Char → Int × List Char
  | '.' :: d :: r =>
      if d.isDigit then (fracNanos ((d :: r).takeWhile Char.isDigit), (d :: r).dropWhile Char.isDigit)
      else (0, '.' :: d :: r)
  | r => (0, r)

/-- The zone: `Z`, or a sign, hours and minutes; the offset in seconds. -/
def parseZone : List Char → Option Int
  | ['Z'] => some 0
  | [sg, h1, h2, ':', m1, m2] => do
      let hr ← parseNum [h1, h2] 0 23
      let mm ← parseNum [m1, m2] 0 59
      if sg = '+' then some ((hr * 60 + mm) * 60)
      else if sg = '-' then some (-((hr * 60 + mm) * 60))
      else none
  | _ => none

/-- `parseRFC3339(s, Local)`: `time.Date` of the fields read, moved back by the
zone offset. -/
def parseRFC3339 (s : List Char) : Option GoTime :=
  if s.length < 19 then none
  else match s with
    | y1 :: y2 :: y3 :: y4 :: c4 :: m1 :: m2 :: c7 :: d1 :: d2 :: c10 :: h1 :: h2 :: c13 ::
        i1 :: i2 :: c16 :: s1 :: s2 :: rest => do
      let year ← parseNum [y1, y2, y3, y4] 0 9999
      let month ← parseNum [m1, m2] 1 12
      let day ← parseNum [d1, d2] 1 (daysIn month.toNat year)
      let hour ← parseNum [h1, h2] 0 23
      let min ← parseNum [i1, i2] 0 59
      let sec ← parseNum [s1, s2] 0 59
      if c4 = '-' ∧ c7 = '-' ∧ c10 = 'T' ∧ c13 = ':' ∧ c16 = ':' then
        let (nsec, zone) := fraction rest
        let offset ← parseZone zone
        some ⟨(daysFromCivil year month.toNat day * 86400 + hour * 3600 + min * 60 + sec -
          offset) * 1000000000 + nsec, offset⟩
      else none
    | _ => none

/-- `t.UnmarshalJSON(data)`: `null` leaves the time as it is (`none`);
otherwise the text between the quotes must parse.  The general parser that
`parseStrictRFC3339` falls back on is not modelled: what the fast parser
rejects is rejected. -/
def unmarshalJSON (data : List Char) : Except String (Option GoTime) :=
  if data = "null".data then .ok none
  else if data.length < 2 ∨ data.head? ≠ some '"' ∨ data.getLast? ≠ some '"' then
    .error "Time.UnmarshalJSON: input is not a JSON string"
  else match parseRFC3339 (data.drop 1).dropLast with
    | some t => .ok (some t)
    | none => .error ("parsing time " ++ String.mk data ++
        " as \"2006-01-02T15:04:05Z07:00\": cannot parse")

/-! ## Fields written by `appendInt` -/

theorem parseNum_appendInt {x lo hi : Int} {w : Nat} (h0 : 0 ≤ x) (hw : 0 < w)
    (hx : x < 10 ^ w) (hlo : lo ≤ x) (hhi : x ≤ hi) : parseNum (appendInt x w) lo hi = some x := by
  obtain ⟨-, hd, hv⟩ := appendInt_spec h0 hw hx
  simp only [parseNum, List.all_eq_true, hv]
  rw [if_pos ⟨hd, hlo, hhi⟩]

theorem exists_two {l : List Char} (h : l.length = 2) : ∃ a b, l = [a, b] := by
  match l, h with
  | [a, b], _ => exact ⟨a, b, rfl⟩

theorem exists_four {l : List Char} (h : l.length = 4) : ∃ a b c d, l = [a, b, c, d] := by
  match l, h with
  | [a, b, c, d], _ => exact ⟨a, b, c, d, rfl⟩

theorem appendInt_two {x : Int} (h0 : 0 ≤ x) (h1 : x < 100) :
    ∃ a b, appendInt x 2 = [a, b] ∧ ∀ lo hi, lo ≤ x → x ≤ hi → parseNum [a, b] lo hi = some x := by
  obtain ⟨a, b, h⟩ := exists_two (appendInt_spec h0 (by decide) (by norm_num; omega)).1
  exact ⟨a, b, h, fun lo hi hlo hhi => h ▸ parseNum_appendInt h0 (by decide) (by norm_num; omega)
    hlo hhi⟩

theorem appendInt_four {x : Int} (h0 : 0 ≤ x) (h1 : x < 10000) :
    ∃ a b c d, appendInt x 4 = [a, b, c, d] ∧
      ∀ lo hi, lo ≤ x → x ≤ hi → parseNum [a, b, c, d] lo hi = some x := by
  obtain ⟨a, b, c, d, h⟩ := exists_four (appendInt_spec h0 (by decide) (by norm_num; omega)).1
  exact ⟨a, b, c, d, h, fun lo hi hlo hhi => h ▸ parseNum_appendInt h0 (by decide)
    (by norm_num; omega) hlo hhi⟩

theorem appendInt_length_two {x : Int} (h0 : 0 ≤ x) (h1 : x < 100) :
    (appendInt x 2).length = 2 :=
  (appendInt_spec h0 (by decide) (by norm_num; omega)).1

/-! ## The fraction -/

theorem dropWhile_append_of_head {p : Char → Bool} {l r : List Char} (hl : ∀ c ∈ l, p c = true)
    (hr : ∀ c ∈ r.head?, p c = false) : (l ++ r).dropWhile p = r := by
  induction l with
  | nil => cases r with
    | nil => rfl
    | cons c r => simp [List.dropWhile, hr c rfl]
  | cons c l ih =>
      simp [List.dropWhile, hl c (List.mem_cons_self _ _), ih fun d hd => hl d (List.mem_cons_of_mem _ hd)]

theorem takeWhile_append_of_head {p : Char → Bool} {l r : List Char} (hl : ∀ c ∈ l, p c = true)
    (hr : ∀ c ∈ r.head?, p c = false) : (l ++ r).takeWhile p = l := by
  induction l with
  | nil => cases r with
    | nil => rfl
    | cons c r => simp [List.takeWhile, hr c rfl]
  | cons c l ih =>
      simp [List.takeWhile, hl c (List.mem_cons_self _ _), ih fun d hd => hl d (List.mem_cons_of_mem _ hd)]

/-- The digits `appendNano` keeps: those of the nanoseconds, trailing zeros
dropped. -/
theorem appendNano_digits {nsec : Int} (h0 : 0 < nsec) (h1 : nsec < 1000000000) :
    ∃ ds, appendNano nsec = '.' :: ds ∧ ds ≠ [] ∧ (∀ c ∈ ds, c.isDigit = true) ∧
      ds.length ≤ 9 ∧ fracNanos ds = nsec := by
  obtain ⟨hlen, hd, hv⟩ := appendInt_spec h0.le (by decide : 0 < 9) (by norm_num; omega)
  set D := appendInt nsec 9
  set ds := (D.reverse.dropWhile (· = '0')).reverse
  have hsplit : D = ds ++ List.replicate (9 - ds.length) '0' := by
    have h := List.takeWhile_append_dropWhile (· = '0') D.reverse
    have hz : D.reverse.takeWhile (· = '0') = List.replicate (D.reverse.takeWhile (· = '0')).length '0' :=
      List.eq_replicate_iff.mpr ⟨rfl, fun c hc => by simpa using List.mem_takeWhile_imp hc⟩
    have hl : (D.reverse.takeWhile (· = '0')).length = 9 - ds.length := by
      have := congrArg List.length h
      simp only [List.length_append, List.length_reverse, hlen] at this
      simp only [ds, List.length_reverse]
      omega
    conv_lhs => rw [← List.reverse_reverse D, ← h, hz, hl]
    simp [ds]
  have hds : ∀ c ∈ ds, c.isDigit = true := fun c hc =>
    hd c (by rw [hsplit]; exact List.mem_append_left _ hc)
  have hval : (ofDigits ds : Int) * 10 ^ (9 - ds.length) = nsec := by
    rw [← hv, hsplit, ofDigits_append]
    have : ofDigits (List.replicate (9 - ds.length) '0') = 0 := by
      simpa using ofDigits_zeros (9 - ds.length) []
    simp [this]
  have hle : ds.length ≤ 9 := by
    have := congrArg List.length hsplit
    simp only [List.length_append, List.length_replicate, hlen] at this
    omega
  refine ⟨ds, by simp [appendNano, h0.ne', ds, D], fun he => ?_, hds, hle, ?_⟩
  · rw [he] at hval; simp [ofDigits] at hval; omega
  · rw [fracNanos, List.take_of_length_le hle, hval]

/-- The fraction of a nanosecond count is read back, up to the zone after it. -/
theorem fraction_appendNano {nsec : Int} (h0 : 0 ≤ nsec) (h1 : nsec < 1000000000)
    {zone : List Char} (hz : ∀ c ∈ zone.head?, c.isDigit = false ∧ c ≠ '.') :
    fraction (appendNano nsec ++ zone) = (nsec, zone) := by
  rcases h0.lt_or_eq with h0 | rfl
  · obtain ⟨ds, hn, hne, hd, -, hv⟩ := appendNano_digits h0 h1
    obtain ⟨d, r, rfl⟩ := List.exists_cons_of_ne_nil hne
    have hr : ∀ c ∈ zone.head?, c.isDigit = false := fun c hc => (hz c hc).1
    rw [hn, List.cons_append, List.cons_append, fraction, if_pos (hd d (List.mem_cons_self _ _)),
      ← List.cons_append, takeWhile_append_of_head hd hr, dropWhile_append_of_head hd hr, hv]
  · match zone, hz with
    | [], _ => rfl
    | c :: r, hz =>
        have hc := (hz c rfl).2
        simp only [appendNano, if_pos rfl, List.nil_append]
        cases r <;> simp [fraction, hc]

/-! ## The zone -/

theorem parseZone_appendZone {offset : Int} (hz : offset % 60 = 0) (hd : offset.natAbs < 86400) :
    parseZone (appendZone offset) = some offset := by
  unfold appendZone
  split
  · rename_i h; rw [h]; rfl
  · rename_i h0
    have hq : offset.tdiv 60 * 60 = offset := by
      rw [Int.tdiv_eq_ediv_of_dvd (Int.dvd_of_emod_eq_zero hz)]; omega
    dsimp only
    generalize offset.tdiv 60 = z at hq
    obtain ⟨n, hn⟩ : ∃ n, z.natAbs = n := ⟨_, rfl⟩
    rw [hn]
    have hn' : (n : Int) = if 0 ≤ z then z else -z := by rw [← hn]; split <;> omega
    obtain ⟨hl1, -, -⟩ := appendInt_spec (x := (n / 60 : Nat)) (w := 2) (by omega) (by decide)
      (by omega)
    obtain ⟨hl2, -, -⟩ := appendInt_spec (x := (n % 60 : Nat)) (w := 2) (by omega) (by decide)
      (by omega)
    have ph := @parseNum_appendInt (n / 60 : Nat) 0 23 2 (by omega)
      (by decide) (by omega) (by omega) (by split at hn' <;> omega)
    have pm := @parseNum_appendInt (n % 60 : Nat) 0 59 2 (by omega)
      (by decide) (by omega) (by omega) (by omega)
    obtain ⟨h1, h2, hh⟩ := exists_two hl1
    obtain ⟨m1, m2, hm⟩ := exists_two hl2
    rw [hh] at ph ⊢
    rw [hm] at pm ⊢
    split <;> simp only [List.cons_append, List.singleton_append, List.nil_append, parseZone, ph,
      pm, Option.bind_eq_bind, Option.some_bind] <;> simp <;> split at hn' <;> omega

theorem appendZone_head (offset : Int) :
    ∀ c ∈ (appendZone offset).head?, c.isDigit = false ∧ c ≠ '.' := by
  unfold appendZone
  split
  · simp
  · dsimp only
    split <;> simp

/-! ## The year and the zone `MarshalJSON` accepts -/

/-- Where a year that is not four digits wide puts a digit: at index 4. -/
theorem appendInt_year {y : Int} (r : List Char) (h : (appendInt y 4 ++ r).get? 4 = some '-') :
    0 ≤ y ∧ y < 10000 := by
  by_contra hy
  have hlen : 4 < (appendInt y 4).length ∧ ∀ c ∈ (appendInt y 4).get? 4, c.isDigit = true := by
    have hD := decimal_isDigit y.natAbs
    rcases not_and_or.mp hy with hy | hy
    · have hA : appendInt y 4 = '-' :: (List.replicate (4 - (decimal y.natAbs).length) '0' ++
          decimal y.natAbs) := by simp [appendInt, show y < 0 by omega]
      rw [hA]
      refine ⟨by simp; omega, fun c hc => ?_⟩
      have hm := List.get?_mem hc
      simp only [List.get?_cons_succ] at hc
      rcases List.mem_append.mp (List.get?_mem hc) with hc' | hc'
      · rw [List.eq_of_mem_replicate hc']; rfl
      · exact hD c hc'
    · have hlt : 10000 ≤ y.natAbs := by omega
      have h5 : 4 < (decimal y.natAbs).length := by
        by_contra h5
        have := ofDigits_lt hD
        rw [ofDigits_decimal] at this
        have : 10 ^ (decimal y.natAbs).length ≤ 10 ^ 4 := Nat.pow_le_pow_right (by decide) (by omega)
        omega
      have hA : appendInt y 4 = decimal y.natAbs := by
        simp [appendInt, show ¬ y < 0 by omega, show 4 - (decimal y.natAbs).length = 0 by omega]
      rw [hA]
      exact ⟨h5, fun c hc => hD c (List.get?_mem hc)⟩
  rw [List.get?_eq_getElem?, List.getElem?_append_left hlen.1, ← List.get?_eq_getElem?] at h
  exact absurd (hlen.2 '-' h) (by decide)

theorem formatRFC3339Nano_year (t : GoTime) :
    ∃ r, formatRFC3339Nano t = appendInt (civilFromDays (t.localSec / 86400)).1 4 ++ r :=
  ⟨_, by simp only [formatRFC3339Nano, List.append_assoc]; rfl⟩

/-- `MarshalJSON` succeeds only on a year in `[0, 9999]` and a zone within a
day, and then writes the quoted layout. -/
theorem marshalJSON_ok {t : GoTime} {b : List Char} (h : t.marshalJSON = .ok b) :
    0 ≤ (civilFromDays (t.localSec / 86400)).1 ∧ (civilFromDays (t.localSec / 86400)).1 < 10000 ∧
      (t.offset = 0 ∨ (t.offset.tdiv 60).natAbs / 60 < 24) ∧
      b = '"' :: formatRFC3339Nano t ++ ['"'] := by
  unfold marshalJSON at h
  dsimp only at h
  split at h
  · cases h
  · rename_i hy
    split at h
    · cases h
    · rename_i hz
      simp only [Except.ok.injEq] at h
      obtain ⟨r, hr⟩ := formatRFC3339Nano_year t
      rw [hr] at hy
      have := appendInt_year r (not_not.mp hy)
      exact ⟨this.1, this.2, by omega, h.symm⟩

theorem daysIn_le (m : Nat) (y : Int) : daysIn m y ≤ 31 := by
  unfold daysIn
  split
  · split <;> omega
  all_goals omega

/-! ## Reading a formatted time back -/

/-- What `MarshalJSON` writes for a time whose zone offset is a whole number
of minutes parses back as that time. -/
theorem parseRFC3339_format {t : GoTime} {b : List Char} (hb : t.marshalJSON = .ok b)
    (hz : t.offset % 60 = 0) : parseRFC3339 (formatRFC3339Nano t) = some t := by
  obtain ⟨hy0, hy1, hzone, -⟩ := marshalJSON_ok hb
  have hd : t.offset.natAbs < 86400 := by
    rcases hzone with h | h
    · simp [h]
    · rw [Int.tdiv_eq_ediv_of_dvd (Int.dvd_of_emod_eq_zero hz)] at h; omega
  obtain ⟨hcal, hm1, hm2, hd1, hd2⟩ := civilFromDays_spec (t.localSec / 86400)
  have hdays := daysIn_le (civilFromDays (t.localSec / 86400)).2.1
    (civilFromDays (t.localSec / 86400)).1
  have hL := Int.ediv_add_emod t.localSec 86400
  have hs0 : 0 ≤ t.localSec % 86400 := Int.emod_nonneg _ (by decide)
  have hs1 : t.localSec % 86400 < 86400 := Int.emod_lt_of_pos _ (by decide)
  have hn0 : 0 ≤ t.nanosecond := Int.emod_nonneg _ (by decide)
  have hn1 : t.nanosecond < 1000000000 := Int.emod_lt_of_pos _ (by decide)
  simp only [formatRFC3339Nano, List.append_assoc]
  generalize civilFromDays (t.localSec / 86400) = date at *
  obtain ⟨y, m, d⟩ := date
  dsimp only at *
  generalize t.localSec % 86400 = sec at *
  obtain ⟨y1, y2, y3, y4, hY, pY⟩ := appendInt_four hy0 hy1
  obtain ⟨m1, m2, hM, pM⟩ := appendInt_two (x := (m : Int)) (by omega) (by omega)
  obtain ⟨d1, d2, hD, pD⟩ := appendInt_two (x := d) (by omega) (by omega)
  obtain ⟨h1, h2, hH, pH⟩ := appendInt_two (x := sec / 3600) (by omega) (by omega)
  obtain ⟨i1, i2, hI, pI⟩ := appendInt_two (x := sec % 3600 / 60) (by omega) (by omega)
  obtain ⟨s1, s2, hS, pS⟩ := appendInt_two (x := sec % 60) (by omega) (by omega)
  rw [hY, hM, hD, hH, hI, hS]
  simp only [List.cons_append, List.nil_append]
  rw [parseRFC3339, if_neg (by simp)]
  simp only [pY 0 9999 hy0 (by omega), pM 1 12 (by omega) (by omega), Int.toNat_ofNat,
    pD 1 (daysIn m y) hd1 hd2, pH 0 23 (by omega) (by omega), pI 0 59 (by omega) (by omega),
    pS 0 59 (by omega) (by omega), Option.bind_eq_bind, Option.some_bind, and_self, if_true,
    fraction_appendNano hn0 hn1 (appendZone_head _), parseZone_appendZone hz hd]
  cases t
  simp only [localSec, nanosecond] at *
  simp only [Option.some.injEq, GoTime.mk.injEq, and_true]
  omega

/-- `UnmarshalJSON` reads back what `MarshalJSON` wrote, when the zone offset
is a whole number of minutes. -/
theorem unmarshalJSON_marshalJSON {t : GoTime} {b : List Char} (hb : t.marshalJSON = .ok b)
    (hz : t.offset % 60 = 0) : unmarshalJSON b = .ok (some t) := by
  obtain ⟨-, -, -, rfl⟩ := marshalJSON_ok hb
  have hp := parseRFC3339_format hb hz
  have hne : formatRFC3339Nano t ≠ [] := by
    obtain ⟨r, hr⟩ := formatRFC3339Nano_year t
    rw [hr]
    simp [appendInt, decimal_ne_nil]
  unfold unmarshalJSON
  have hlast : ('"' :: formatRFC3339Nano t ++ ['"']).getLast? = some '"' := List.getLast?_concat _
  rw [if_neg (show '"' :: formatRFC3339Nano t ++ ['"'] ≠ ['n', 'u', 'l', 'l'] by simp),
    if_neg (by simp only [hlast]; simp)]
  simp [hp]

/-! ## Two instants are never written alike -/

/-- At offset zero, the text of `RFC3339Nano` determines the date, the second of
the day and the nanoseconds, whatever the year. -/
theorem formatRFC3339Nano_fields {t u : GoTime} (ht : t.offset = 0) (hu : u.offset = 0)
    (h : formatRFC3339Nano t = formatRFC3339Nano u) :
    civilFromDays (t.localSec / 86400) = civilFromDays (u.localSec / 86400) ∧
      t.localSec % 86400 = u.localSec % 86400 ∧ t.nanosecond = u.nanosecond := by
  obtain ⟨-, htm1, htm2, htd1, htd2⟩ := civilFromDays_spec (t.localSec / 86400)
  obtain ⟨-, hum1, hum2, hud1, hud2⟩ := civilFromDays_spec (u.localSec / 86400)
  have htd := daysIn_le (civilFromDays (t.localSec / 86400)).2.1 (civilFromDays (t.localSec / 86400)).1
  have hud := daysIn_le (civilFromDays (u.localSec / 86400)).2.1 (civilFromDays (u.localSec / 86400)).1
  have hts0 : 0 ≤ t.localSec % 86400 := Int.emod_nonneg _ (by decide)
  have hts1 : t.localSec % 86400 < 86400 := Int.emod_lt_of_pos _ (by decide)
  have hus0 : 0 ≤ u.localSec % 86400 := Int.emod_nonneg _ (by decide)
  have hus1 : u.localSec % 86400 < 86400 := Int.emod_lt_of_pos _ (by decide)
  have htn0 : 0 ≤ t.nanosecond := Int.emod_nonneg _ (by decide)
  have htn1 : t.nanosecond < 1000000000 := Int.emod_lt_of_pos _ (by decide)
  have hun0 : 0 ≤ u.nanosecond := Int.emod_nonneg _ (by decide)
  have hun1 : u.nanosecond < 1000000000 := Int.emod_lt_of_pos _ (by decide)
  simp only [formatRFC3339Nano, ht, hu, List.append_assoc, List.cons_append] at h
  generalize civilFromDays (t.localSec / 86400) = dt at *
  generalize civilFromDays (u.localSec / 86400) = du at *
  generalize t.localSec % 86400 = st at *
  generalize u.localSec % 86400 = su at *
  generalize t.nanosecond = nt at *
  generalize u.nanosecond = nu at *
  obtain ⟨yt, mt, dt⟩ := dt
  obtain ⟨yu, mu, du⟩ := du
  dsimp only at *
  have hT : ∀ (y : Int) (m : Nat) (d : Int),
      'T' ∉ appendInt y 4 ++ '-' :: (appendInt m 2 ++ '-' :: appendInt d 2) := by
    intro y m d
    simp [not_mem_appendInt]
  have hsplit : ∀ (Y M D R : List Char),
      Y ++ '-' :: (M ++ '-' :: (D ++ 'T' :: R)) = (Y ++ '-' :: (M ++ '-' :: D)) ++ 'T' :: R := by
    simp
  rw [hsplit, hsplit] at h
  obtain ⟨hdate, hclock⟩ := append_cons_cancel_of_not_mem (hT _ _ _) (hT _ _ _) h
  obtain ⟨hy, hmd⟩ := List.append_inj' hdate (by
    simp [appendInt_length_two (x := (mt : Int)) (by omega) (by omega),
      appendInt_length_two (x := (mu : Int)) (by omega) (by omega),
      appendInt_length_two (x := dt) (by omega) (by omega),
      appendInt_length_two (x := du) (by omega) (by omega)])
  simp only [List.cons.injEq, true_and] at hmd
  obtain ⟨hm, hd⟩ := List.append_inj hmd (by
    rw [appendInt_length_two (by omega) (by omega), appendInt_length_two (by omega) (by omega)])
  simp only [List.cons.injEq, true_and] at hd
  obtain ⟨hH, hclock⟩ := List.append_inj hclock (by
    rw [appendInt_length_two (by omega) (by omega), appendInt_length_two (by omega) (by omega)])
  simp only [List.cons.injEq, true_and] at hclock
  obtain ⟨hI, hclock⟩ := List.append_inj hclock (by
    rw [appendInt_length_two (by omega) (by omega), appendInt_length_two (by omega) (by omega)])
  simp only [List.cons.injEq, true_and] at hclock
  obtain ⟨hS, hnano⟩ := List.append_inj hclock (by
    rw [appendInt_length_two (by omega) (by omega), appendInt_length_two (by omega) (by omega)])
  have hn := congrArg fraction hnano
  rw [fraction_appendNano htn0 htn1 (appendZone_head 0),
    fraction_appendNano hun0 hun1 (appendZone_head 0)] at hn
  have hm' := appendInt_injective hm
  have hH' := appendInt_injective hH
  have hI' := appendInt_injective hI
  have hS' := appendInt_injective hS
  refine ⟨by rw [appendInt_injective hy, appendInt_injective hd, show mt = mu by omega], by omega,
    (Prod.mk.inj hn).1⟩

/-- At offset zero, two different instants are never written alike, whatever
their years. -/
theorem formatRFC3339Nano_injective {t u : GoTime} (ht : t.offset = 0) (hu : u.offset = 0)
    (h : formatRFC3339Nano t = formatRFC3339Nano u) : t.unixNano = u.unixNano := by
  obtain ⟨hd, hs, hn⟩ := formatRFC3339Nano_fields ht hu h
  have hz := congrArg (fun d => daysFromCivil d.1 d.2.1 d.2.2) hd
  simp only [(civilFromDays_spec _).1] at hz
  simp only [localSec, nanosecond, ht, hu, add_zero] at hz hs hn
  omega

theorem not_mem_appendNano {c : Char} (h0 : c ≠ '.') (h1 : c ≠ '-') (h2 : c.isDigit = false)
    (n : Int) : c ∉ appendNano n := by
  unfold appendNano
  split
  · simp
  · simp only [List.mem_cons, List.mem_reverse, not_or]
    exact ⟨h0, fun hc => not_mem_appendInt h1 h2 n 9
      (List.mem_reverse.mp ((List.dropWhile_sublist _).subset hc))⟩

/-- The text of a time at offset zero has exactly two colons, those of the clock. -/
theorem count_colon_formatRFC3339Nano_utc (t : GoTime) :
    (formatRFC3339Nano t.utc).count ':' = 2 := by
  have hi : ∀ x w, (appendInt x w).count ':' = 0 := fun x w =>
    List.count_eq_zero_of_not_mem (not_mem_appendInt (by decide) (by decide) x w)
  have hn : ∀ n, (appendNano n).count ':' = 0 := fun n =>
    List.count_eq_zero_of_not_mem (not_mem_appendNano (by decide) (by decide) (by decide) n)
  simp [formatRFC3339Nano, appendZone, List.count_append, hi, hn]

end GoTime
end Viracochan
