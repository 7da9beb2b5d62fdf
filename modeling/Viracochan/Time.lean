import Viracochan.Text

/-!
# Viracochan: timestamps

A `time.Time` as the library uses it.  Only the instant and the offset of the
location matter to the code: `Before` compares instants, `UTC` moves to offset
zero, and `Truncate(time.Microsecond)` rounds the instant down.  The monotonic
clock reading is dropped by both `UTC` and `Truncate` before any timestamp is
stored, so it is not modelled.

Timestamps are written in the layout `time.RFC3339Nano`, both in checksums and
signing messages (`Format`) and in JSON (`MarshalJSON`, which also rejects years
outside `[0, 9999]` and zone offsets of a day or more).  The calendar is the
proleptic Gregorian one: `civilFromDays` splits a day count into 400-year cycles
and then walks the years of the cycle and the months of the year;
`daysFromCivil` is the closed form that `time.Date` computes back, and
`daysFromCivil_civilFromDays` shows that the two agree.
-/

namespace Viracochan

/-- A `time.Time`: the instant, in nanoseconds since 1970-01-01T00:00:00Z, and the
offset of its location east of UTC, in seconds. -/
structure GoTime where
  unixNano : Int
  offset : Int
deriving DecidableEq, Repr

namespace GoTime

/-- `t.Before(u)`: the instant of `t` is strictly earlier than that of `u`. -/
def before (t u : GoTime) : Bool :=
  decide (t.unixNano < u.unixNano)

/-- `t.UTC()`. -/
def utc (t : GoTime) : GoTime :=
  { t with offset := 0 }

/-- `t.Truncate(time.Microsecond)`: rounds the instant down to a whole microsecond
(the zero time lies a whole number of microseconds before the Unix epoch). -/
def truncateMicro (t : GoTime) : GoTime :=
  { t with unixNano := t.unixNano - t.unixNano % 1000 }

@[simp] theorem before_iff (t u : GoTime) :
    t.before u = true ↔ t.unixNano < u.unixNano := by
  simp [before]

@[simp] theorem utc_unixNano (t : GoTime) : t.utc.unixNano = t.unixNano := rfl

@[simp] theorem utc_offset (t : GoTime) : t.utc.offset = 0 := rfl

@[simp] theorem truncateMicro_offset (t : GoTime) :
    t.truncateMicro.offset = t.offset := rfl

/-- Truncation is monotone: a clock that never goes backwards stays so after
truncation. -/
theorem truncateMicro_mono {t u : GoTime} (h : t.unixNano ≤ u.unixNano) :
    t.truncateMicro.unixNano ≤ u.truncateMicro.unixNano := by
  simp only [truncateMicro]
  omega

end GoTime

/-! ## The calendar -/

/-- `isLeap(year)`. -/
def isLeap (y : Int) : Bool :=
  y % 4 = 0 && (y % 100 ≠ 0 || y % 400 = 0)

/-- The number of days of `year`. -/
def yearLength (y : Int) : Int :=
  if isLeap y then 366 else 365

/-- `daysIn(month, year)`. -/
def daysIn (m : Nat) (y : Int) : Int :=
  match m with
  | 2 => if isLeap y then 29 else 28
  | 4 | 6 | 9 | 11 => 30
  | _ => 31

/-- Days from 1970-01-01 to January 1 of `y`. -/
def daysBeforeYear (y : Int) : Int :=
  (365 * y + (y - 1) / 4 - (y - 1) / 100 + (y - 1) / 400) -
    (365 * 1970 + 1969 / 4 - 1969 / 100 + 1969 / 400)

/-- Days of `y` before the first of month `m`. -/
def daysBeforeMonth (y : Int) : Nat → Int
  | 0 => 0
  | m + 1 => daysBeforeMonth y m + if m = 0 then 0 else daysIn m y

/-- The year containing day `d` of the cycle walked from January 1 of `y`, and the
day within that year. -/
def yearOf : Nat → Int → Int → Int × Int
  | 0, y, d => (y, d)
  | fuel + 1, y, d =>
      if d < yearLength y then (y, d) else yearOf fuel (y + 1) (d - yearLength y)

/-- The month containing day `d` of year `y`, walked from month `m`, and the day
within that month (0-based). -/
def monthOf (y : Int) : Nat → Nat → Int → Nat × Int
  | 0, m, d => (m, d)
  | fuel + 1, m, d =>
      if d < daysIn m y then (m, d) else monthOf y fuel (m + 1) (d - daysIn m y)

/-- The date (year, month, day) of the day `z` counted from 1970-01-01. -/
def civilFromDays (z : Int) : Int × Nat × Int :=
  let yd := yearOf 400 (1970 + 400 * (z / 146097)) (z % 146097)
  let md := monthOf yd.1 12 1 yd.2
  (yd.1, md.1, md.2 + 1)

/-- The day count of a date, as `time.Date` computes it for a valid date. -/
def daysFromCivil (y : Int) (m : Nat) (d : Int) : Int :=
  daysBeforeYear y + daysBeforeMonth y m + d - 1

theorem daysBeforeYear_succ (y : Int) :
    daysBeforeYear (y + 1) = daysBeforeYear y + yearLength y := by
  unfold daysBeforeYear yearLength isLeap
  split <;> simp_all <;> omega

theorem daysBeforeYear_cycle (k : Int) :
    daysBeforeYear (1970 + 400 * k) = 146097 * k := by
  unfold daysBeforeYear
  omega

theorem yearOf_spec :
    ∀ (fuel : Nat) (y d : Int), 0 ≤ d → d < daysBeforeYear (y + fuel) - daysBeforeYear y →
      daysBeforeYear (yearOf fuel y d).1 + (yearOf fuel y d).2 = daysBeforeYear y + d ∧
        0 ≤ (yearOf fuel y d).2 ∧ (yearOf fuel y d).2 < yearLength (yearOf fuel y d).1
  | 0, y, d, _, h => by simp at h; omega
  | fuel + 1, y, d, h0, h => by
      simp only [yearOf]
      split
      · exact ⟨rfl, h0, ‹_›⟩
      · have hs := daysBeforeYear_succ y
        have ih := yearOf_spec fuel (y + 1) (d - yearLength y) (by omega)
          (by rw [hs, show y + 1 + (fuel : Int) = y + ((fuel + 1 : Nat) : Int) by push_cast; ring]
              omega)
        exact ⟨by rw [ih.1, hs]; ring, ih.2⟩

theorem daysBeforeMonth_thirteen (y : Int) : daysBeforeMonth y 13 = yearLength y := by
  unfold yearLength
  cases h : isLeap y <;> simp [daysBeforeMonth, daysIn, h]

theorem monthOf_spec (y : Int) :
    ∀ (fuel m : Nat) (d : Int), 1 ≤ m → 0 ≤ d → m + fuel = 13 →
      d < daysBeforeMonth y 13 - daysBeforeMonth y m →
      daysBeforeMonth y (monthOf y fuel m d).1 + (monthOf y fuel m d).2 =
          daysBeforeMonth y m + d ∧
        1 ≤ (monthOf y fuel m d).1 ∧ (monthOf y fuel m d).1 ≤ 12 ∧
        0 ≤ (monthOf y fuel m d).2 ∧ (monthOf y fuel m d).2 < daysIn (monthOf y fuel m d).1 y
  | 0, m, d, _, _, hm, h => by subst hm; simp at h; omega
  | fuel + 1, m, d, h1, h0, hm, h => by
      simp only [monthOf]
      split
      · exact ⟨rfl, h1, by omega, h0, ‹_›⟩
      · have hs : daysBeforeMonth y (m + 1) = daysBeforeMonth y m + daysIn m y := by
          simp [daysBeforeMonth, show m ≠ 0 by omega]
        have ih := monthOf_spec y fuel (m + 1) (d - daysIn m y) (by omega) (by omega)
          (by omega) (by rw [hs]; omega)
        exact ⟨by rw [ih.1, hs]; ring, ih.2⟩

/-- `civilFromDays` returns a valid date, and `time.Date` maps it back to the same
day. -/
theorem civilFromDays_spec (z : Int) :
    daysFromCivil (civilFromDays z).1 (civilFromDays z).2.1 (civilFromDays z).2.2 = z ∧
      1 ≤ (civilFromDays z).2.1 ∧ (civilFromDays z).2.1 ≤ 12 ∧
      1 ≤ (civilFromDays z).2.2 ∧
      (civilFromDays z).2.2 ≤ daysIn (civilFromDays z).2.1 (civilFromDays z).1 := by
  have hz := Int.emod_add_ediv z 146097
  have hr0 := Int.emod_nonneg z (by decide : (146097 : Int) ≠ 0)
  have hr1 := Int.emod_lt_of_pos z (by decide : (0 : Int) < 146097)
  have hy := yearOf_spec 400 (1970 + 400 * (z / 146097)) (z % 146097) hr0 (by
      rw [show 1970 + 400 * (z / 146097) + ((400 : Nat) : Int) =
          1970 + 400 * (z / 146097 + 1) by push_cast; ring,
        daysBeforeYear_cycle, daysBeforeYear_cycle]
      omega)
  simp only [civilFromDays, daysFromCivil]
  generalize yearOf 400 (1970 + 400 * (z / 146097)) (z % 146097) = yd at hy ⊢
  have hm := monthOf_spec yd.1 12 1 yd.2 le_rfl hy.2.1 rfl (by
    rw [daysBeforeMonth_thirteen]
    simp [daysBeforeMonth]
    omega)
  rw [daysBeforeYear_cycle] at hy
  refine ⟨?_, hm.2.1, hm.2.2.1, by omega, by omega⟩
  have h1 : daysBeforeMonth yd.1 1 = 0 := by simp [daysBeforeMonth]
  omega

/-! ## `RFC3339Nano` text -/

namespace GoTime

/-- Seconds since the Unix epoch on the wall clock of the location of `t`. -/
def localSec (t : GoTime) : Int :=
  t.unixNano / 1000000000 + t.offset

/-- `t.Nanosecond()`. -/
def nanosecond (t : GoTime) : Int :=
  t.unixNano % 1000000000

/-- `appendNano` for `.999999999`: nothing on a whole second, otherwise a dot and
the nine digits of the nanoseconds without their trailing zeros. -/
def appendNano (nsec : Int) : List Char :=
  if nsec = 0 then []
  else '.' :: ((appendInt nsec 9).reverse.dropWhile (· = '0')).reverse

/-- The zone of `Z07:00`: `Z` at offset zero, otherwise the sign and the offset in
hours and minutes (seconds of the offset are dropped). -/
def appendZone (offset : Int) : List Char :=
  if offset = 0 then ['Z']
  else
    let zone := offset.tdiv 60
    (if zone < 0 then ['-'] else ['+']) ++ appendInt (zone.natAbs / 60 : Nat) 2 ++
      ':' :: appendInt (zone.natAbs % 60 : Nat) 2

/-- `t.Format(time.RFC3339Nano)`. -/
def formatRFC3339Nano (t : GoTime) : List Char :=
  let secs := t.localSec % 86400
  let date := civilFromDays (t.localSec / 86400)
  appendInt date.1 4 ++ '-' :: appendInt date.2.1 2 ++ '-' :: appendInt date.2.2 2 ++
    'T' :: appendInt (secs / 3600) 2 ++ ':' :: appendInt (secs % 3600 / 60) 2 ++
    ':' :: appendInt (secs % 60) 2 ++ appendNano t.nanosecond ++ appendZone t.offset

/-- `t.MarshalJSON()`: the quoted `RFC3339Nano` text, rejected when the year is not
four digits wide or the zone has 24 hours or more, as `appendStrictRFC3339`
checks on the text. -/
def marshalJSON (t : GoTime) : Except String (List Char) :=
  let b := formatRFC3339Nano t
  if b.get? 4 ≠ some '-' then .error "Time.MarshalJSON: year outside of range [0,9999]"
  else if t.offset ≠ 0 ∧ 24 ≤ (t.offset.tdiv 60).natAbs / 60 then
    .error "Time.MarshalJSON: timezone hour outside of range [0,23]"
  else .ok ('"' :: b ++ ['"'])

end GoTime

end Viracochan
