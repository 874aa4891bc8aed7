/-
Writing times: the text of an instant, and that it reads back.

# The parts of a day

`split` takes a count of days apart into eras of 400 years, centuries,
spans of four years, years and days, all counted from a first of March,
so that a leap day is the last of its year. A century may have one day
more than 25 spans of four years less a day, and a span one more than
four years: the last of them is cut off at 3, which is what the `min`s
are for. `Split.Of` is what the parts satisfy, the length of each
included; everything about the calendar is linear arithmetic on it.

# The date

`civil` gives the date of the parts, and `daysFromCivil`, by which a
written date is read, takes it back to the days (`daysFromCivil_civil`).
January and February belong to the year after that of their March, so
the proof has the two cases of `civil`, and each first rewrites
`daysFromCivil` in years counted from March (`daysFromCivil_march`,
`daysFromCivil_january`).

# The text

`render` writes a whole millisecond as `YYYY-MM-DDThh:mm:ss.fffZ`. For
the years a text of this form has, 1 to 9999, the reader of `Rfc3339`
gives the instant back (`timestamp_render`): the fields are two digits
each, which `two_pad2` reads, and the date is valid because it is one of
the calendar (`civil_valid`). A time column that holds such a text is
`Text.Written`.
-/
import MarketPlatform.Lib.Rfc3339

namespace MarketPlatform.Lib.Rfc3339

open Numeral

-- ================================================================ the parts

/-- A day, from the first of March of the year 0, as the position of
each part in the one around it. -/
structure Split where
  era : Int
  century : Int
  quad : Int
  year : Int
  day : Int

/-- The parts of a count of days from the epoch. -/
def split (days : Int) : Split :=
  let z := days + 719468
  let century := min (z % 146097 / 36524) 3
  let r := z % 146097 - 36524 * century
  let year := min (r % 1461 / 365) 3
  { era := z / 146097
    century
    quad := r / 1461
    year
    day := r % 1461 - 365 * year }

/-- What the parts of a day satisfy. -/
structure Split.Of (s : Split) (days : Int) : Prop where
  days : days + 719468 = 146097 * s.era + 36524 * s.century
    + 1461 * s.quad + 365 * s.year + s.day
  century : 0 ≤ s.century ∧ s.century ≤ 3
  quad : 0 ≤ s.quad ∧ s.quad ≤ 24
  year : 0 ≤ s.year ∧ s.year ≤ 3
  day : 0 ≤ s.day ∧ s.day ≤ 365
  /-- The day after the 365th is there in a leap year only. -/
  leap : s.day = 365 → s.year = 3 ∧ (s.quad = 24 → s.century = 3)

/-- The parts that are computed are parts of the day: by the bounds of
each quotient and remainder. -/
theorem split_of (days : Int) : (split days).Of days := by
  constructor <;> simp only [split] <;> omega

-- ================================================================= the date

/-- A date: year, month and day of the month, both counted from 1. -/
structure Civil where
  year : Int
  month : Int
  day : Int
  deriving DecidableEq

namespace Split

/-- The month, counted from March. -/
def month (s : Split) : Int := (5 * s.day + 2) / 153

/-- The date; January and February are of the next year. -/
def civil (s : Split) : Civil :=
  let year := 400 * s.era + 100 * s.century + 4 * s.quad + s.year
  let day := s.day - (153 * s.month + 2) / 5 + 1
  if s.month < 10 then ⟨year, s.month + 3, day⟩
  else ⟨year + 1, s.month - 9, day⟩

/-- The month of a day of the year is one of twelve. -/
theorem Of.month {s : Split} {days : Int} (h : s.Of days) :
    0 ≤ s.month ∧ s.month ≤ 11 := by
  have hday := h.day
  unfold Split.month
  omega

end Split

/-- From March to December, counted from March. -/
theorem daysFromCivil_march {y mp d : Int} (hmp : 0 ≤ mp) (hlt : mp < 10) :
    daysFromCivil y (mp + 3) d
      = y / 400 * 146097 + ((y - y / 400 * 400) * 365
        + (y - y / 400 * 400) / 4 - (y - y / 400 * 400) / 100
        + ((153 * mp + 2) / 5 + d - 1)) - 719468 := by
  have hle : ¬ (mp + 3 ≤ 2) := by omega
  have hgt : mp + 3 > 2 := by omega
  simp only [daysFromCivil, if_neg hle, if_pos hgt, Int.add_sub_cancel]

/-- January and February, counted from March. -/
theorem daysFromCivil_january {y mp d : Int} (hle : 10 ≤ mp)
    (hlt : mp < 12) :
    daysFromCivil (y + 1) (mp - 9) d
      = y / 400 * 146097 + ((y - y / 400 * 400) * 365
        + (y - y / 400 * 400) / 4 - (y - y / 400 * 400) / 100
        + ((153 * mp + 2) / 5 + d - 1)) - 719468 := by
  have hle : mp - 9 ≤ 2 := by omega
  have hgt : ¬ (mp - 9 > 2) := by omega
  simp only [daysFromCivil, if_pos hle, if_neg hgt, Int.add_sub_cancel,
    Int.sub_add_cancel]

/-- The date of the parts of a day is that day. In either half of the
year the days before the month are the same on both sides, so that what
is left is the arithmetic of the parts. -/
theorem daysFromCivil_civil {s : Split} {days : Int} (h : s.Of days) :
    daysFromCivil s.civil.year s.civil.month s.civil.day = days := by
  have hmonth := h.month
  obtain ⟨hdays, hcentury, hquad, hyear, hday, -⟩ := h
  by_cases hlt : s.month < 10
  · simp only [Split.civil, if_pos hlt]
    rw [daysFromCivil_march hmonth.1 hlt]
    omega
  · simp only [Split.civil, if_neg hlt]
    rw [daysFromCivil_january (by omega) (by omega)]
    omega

/-- The date is one of the calendar, leap days included: the last day of
February is the 365th only of a year that the parts allow it in. -/
theorem civil_valid {s : Split} {days : Int} (h : s.Of days)
    (hyear : 1 ≤ s.civil.year) :
    1 ≤ s.civil.month ∧ s.civil.month ≤ 12 ∧ 1 ≤ s.civil.day
      ∧ s.civil.day
        ≤ daysInMonth s.civil.year.toNat s.civil.month.toNat := by
  have hmonth := h.month
  obtain ⟨hdays, hcentury, hquad, hyear', hday, hleap⟩ := h
  have hmp : s.month = (5 * s.day + 2) / 153 := rfl
  unfold daysInMonth isLeap
  by_cases hlt : s.month < 10
  · simp only [Split.civil, if_pos hlt] at hyear ⊢
    refine ⟨by omega, by omega, by omega, ?_⟩
    split
    · omega
    · split <;> omega
  · simp only [Split.civil, if_neg hlt] at hyear ⊢
    refine ⟨by omega, by omega, by omega, ?_⟩
    split
    · -- February: its 29th is the 365th day after a first of March
      split
      · omega
      · next hcommon =>
          simp only [Bool.and_eq_true, decide_eq_true_eq, Bool.or_eq_true,
            ne_eq, decide_not, Bool.not_eq_true',
            decide_eq_false_iff_not] at hcommon
          omega
    · split <;> omega

-- ================================================================ the text

/-- The character of a digit. -/
def digit (n : Nat) : Char := Char.ofNat (48 + n)

/-- A digit is read back. -/
theorem digit?_digit : ∀ n < 10, digit? (digit n) = some n := by decide

/-- Two digits, with leading zeros. -/
def pad2 (n : Nat) : List Char := [digit (n / 10 % 10), digit (n % 10)]

/-- Three digits. -/
def pad3 (n : Nat) : List Char := digit (n / 100 % 10) :: pad2 n

/-- Four digits. -/
def pad4 (n : Nat) : List Char := pad2 (n / 100) ++ pad2 n

/-- Two digits write a number up to its hundreds. -/
theorem two_pad2 (n : Nat) :
    two (digit (n / 10 % 10)) (digit (n % 10)) = some (n % 100) := by
  simp only [two, digit?_digit (n / 10 % 10) (by omega),
    digit?_digit (n % 10) (by omega)]
  congr 1
  omega

/-- No month has more than 31 days, so two digits write any of them. -/
theorem daysInMonth_le (y m : Nat) : daysInMonth y m ≤ 31 := by
  unfold daysInMonth
  split
  · split <;> omega
  · split <;> omega

/-- The date and time of a count of seconds, and what follows it. -/
def renderSeconds (seconds : Int) (rest : List Char) : List Char :=
  let date := (split (seconds / 86400)).civil
  let clock := (seconds % 86400).toNat
  pad4 date.year.toNat ++ '-' :: pad2 date.month.toNat ++ '-'
    :: pad2 date.day.toNat ++ 'T' :: pad2 (clock / 3600) ++ ':'
    :: pad2 (clock / 60 % 60) ++ ':' :: pad2 (clock % 60) ++ rest

/-- A whole millisecond, in UTC, with three digits of fraction. -/
def render (millis : Int) : List Char :=
  renderSeconds (millis / 1000)
    ('.' :: pad3 (millis % 1000).toNat ++ ['Z'])

/-- The milliseconds of the years 1 to 9999, whose texts have four digits
for the year. -/
def InYears (millis : Int) : Prop :=
  -62135596800000 ≤ millis ∧ millis < 253402300800000

instance (millis : Int) : Decidable (InYears millis) :=
  inferInstanceAs (Decidable (_ ∧ _))

/-- The year of a day of these years. -/
theorem civil_year (days : Int) (hlow : -719162 ≤ days)
    (hhigh : days ≤ 2932896) :
    1 ≤ (split days).civil.year ∧ (split days).civil.year ≤ 9999 := by
  have hof := split_of days
  have hmonth := hof.month
  obtain ⟨hdays, hcentury, hquad, hyear, hday, -⟩ := hof
  generalize split days = s at *
  have hmp : s.month = (5 * s.day + 2) / 153 := rfl
  by_cases hlt : s.month < 10
  · simp only [Split.civil, if_pos hlt]
    omega
  · simp only [Split.civil, if_neg hlt]
    omega

/-- The text of a count of seconds scans to it, whatever follows, as
long as it does not open a fraction without digits. Each field is read
by `two_pad2`; the conditions of the reader are those of
`civil_valid`. -/
theorem scan_renderSeconds (seconds : Int) (rest : List Char)
    (hyear : 1 ≤ (split (seconds / 86400)).civil.year)
    (hyear' : (split (seconds / 86400)).civil.year ≤ 9999)
    (hrest : rest.head? ≠ some '.' ∨ (spanFraction rest).1 ≠ []) :
    scan (renderSeconds seconds rest)
      = some ⟨seconds, (spanFraction rest).1, (spanFraction rest).2⟩ := by
  have hof := split_of (seconds / 86400)
  have hdays := daysFromCivil_civil hof
  obtain ⟨hm, hm', hd, hd'⟩ := civil_valid hof hyear
  unfold renderSeconds
  generalize (split (seconds / 86400)).civil = date at *
  obtain ⟨y, m, d⟩ := date
  simp only at *
  obtain ⟨y, rfl⟩ := Int.eq_ofNat_of_zero_le (by omega : 0 ≤ y)
  obtain ⟨m, rfl⟩ := Int.eq_ofNat_of_zero_le (by omega : 0 ≤ m)
  obtain ⟨d, rfl⟩ := Int.eq_ofNat_of_zero_le (by omega : 0 ≤ d)
  generalize hclock : (seconds % 86400).toNat = clock
  have hlt : clock < 86400 := by omega
  simp only [Int.toNat_natCast] at *
  have hd'' : d ≤ 31 := by
    have hle := daysInMonth_le y m
    omega
  have hy : 100 * (y / 100 % 100) + y % 100 = y := by omega
  simp only [pad4, pad2, List.cons_append, List.nil_append, scan, two_pad2,
    hy, Nat.mod_eq_of_lt (by omega : m < 100),
    Nat.mod_eq_of_lt (by omega : d < 100),
    Nat.mod_eq_of_lt (by omega : clock / 3600 < 100),
    Nat.mod_eq_of_lt (by omega : clock / 60 % 60 < 100),
    Nat.mod_eq_of_lt (by omega : clock % 60 < 100)]
  rw [if_pos ⟨by simp, by omega, by omega, by omega, by omega, by omega,
    by omega, by omega, by omega, hrest⟩, hdays]
  congr 2
  omega

/-- Three digits, and what follows them. -/
theorem spanDigits_pad3 (n : Nat) (cs : List Char)
    (hcs : spanDigits cs = ([], cs)) :
    spanDigits (pad3 n ++ cs)
      = ([n / 100 % 10, n / 10 % 10, n % 10], cs) := by
  simp [pad3, pad2, spanDigits, digit?_digit, Nat.mod_lt, hcs]

/-- The text of a whole millisecond reads back, in any year that has
four digits. -/
theorem timestamp_render {millis : Int} (h : InYears millis) :
    timestamp (String.ofList (render millis))
      = some (millis * millisecond) := by
  have hspan : spanFraction ('.' :: pad3 (millis % 1000).toNat ++ ['Z'])
      = ([(millis % 1000).toNat / 100 % 10, (millis % 1000).toNat / 10 % 10,
        (millis % 1000).toNat % 10], ['Z']) :=
    spanDigits_pad3 _ ['Z'] (by decide)
  obtain ⟨hlow, hhigh⟩ := h
  obtain ⟨hyear, hyear'⟩ := civil_year (millis / 1000 / 86400)
    (by omega) (by omega)
  have hscan := scan_renderSeconds (millis / 1000)
    ('.' :: pad3 (millis % 1000).toNat ++ ['Z']) hyear hyear'
    (Or.inr (by rw [hspan]; simp))
  rw [hspan] at hscan
  unfold timestamp
  rw [String.toList_ofList, render, hscan]
  simp only [List.length_cons, List.length_nil]
  rw [if_neg (by omega), if_neg (by simp)]
  simp only [offset, Option.map_some, micros, List.cons_append,
    List.nil_append, List.take, ofDigits, List.foldl, second, millisecond]
  congr 1
  omega

/-- The text of a time column. -/
def Text.text : Text → String
  | .millis n => String.ofList (render n)
  | .other s => s

/-- A whole millisecond of a time column has a text. -/
def Text.Written : Text → Prop
  | .millis n => InYears n
  | .other _ => True

instance : (t : Text) → Decidable t.Written
  | .millis n => inferInstanceAs (Decidable (InYears n))
  | .other _ => isTrue trivial

/-- The text of a time column denotes what the column denotes. -/
theorem timestamp_text {t : Text} (h : t.Written) :
    timestamp t.text = t.instant := by
  cases t with
  | millis n => exact timestamp_render h
  | other s => rfl

end MarketPlatform.Lib.Rfc3339
