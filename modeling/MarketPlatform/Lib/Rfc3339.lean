/-
RFC 3339 times: from text to instants.

# Instants

An instant is a count of microseconds since the epoch; its date, minute
and hour are floors of that count, before the epoch as after it. Two
instants of one millisecond have one minute and one date
(`truncate_of_millisecond`), which is what is lost, and what is not,
when a time is cut to milliseconds.

# Texts

`scan` splits a text into the civil time it writes (in seconds since the
epoch, by `daysFromCivil`), the digits of its fraction, and the text of
its zone; the readers of a particular system differ only in what they do
with the last two. `timestamp` is the reading of a warehouse: it refuses
digits past the microsecond, and takes a time without a zone as UTC.

`scan_split` says that a text which scans is one part that writes the
civil time and the fraction, followed by the zone, so that replacing the
zone by another leaves the rest to be read as before. No character of
the first part is a `Z` or a plus sign (`Inner`).

# Columns

`Text` is the content of a time column: the rendering of a whole
millisecond is kept as that millisecond, any other text as itself.
-/
import MarketPlatform.Lib.Numeral

namespace MarketPlatform.Lib.Rfc3339

open Numeral

-- ============================================================ durations

/-- Microseconds in a millisecond. -/
def millisecond : Int := 1000
/-- In a second. -/
def second : Int := 1000000
/-- In a minute. -/
def minute : Int := 60 * second
/-- In an hour. -/
def hour : Int := 60 * minute
/-- In a day, which has no leap seconds. -/
def day : Int := 24 * hour

/-- The day an instant falls on, counted from the epoch. -/
def dateOf (t : Int) : Int := t / day

/-- The latest multiple of `unit` not after `t`. -/
def truncate (unit t : Int) : Int := t / unit * unit

/-- Truncation keeps the order of instants. -/
theorem truncate_mono {unit : Int} (hunit : 0 < unit) {t t' : Int}
    (h : t ≤ t') : truncate unit t ≤ truncate unit t' :=
  Int.mul_le_mul_of_nonneg_right (Int.ediv_le_ediv hunit h) hunit.le

/-- Minutes and days hold whole milliseconds. -/
theorem truncate_of_millisecond {t t' : Int}
    (h : t / millisecond = t' / millisecond) :
    truncate minute t = truncate minute t' ∧ dateOf t = dateOf t' := by
  simp only [truncate, dateOf, minute, day, hour, second, millisecond] at *
  omega

-- ============================================================== calendar

/-- Days from the epoch to a civil date (proleptic Gregorian). -/
def daysFromCivil (y m d : Int) : Int :=
  let y' := if m ≤ 2 then y - 1 else y
  let era := y' / 400
  let yoe := y' - era * 400
  let mp := if m > 2 then m - 3 else m + 9
  let doy := (153 * mp + 2) / 5 + d - 1
  let doe := yoe * 365 + yoe / 4 - yoe / 100 + doy
  era * 146097 + doe - 719468

/-- A leap year of the Gregorian calendar. -/
def isLeap (y : Nat) : Bool := y % 4 = 0 && (y % 100 ≠ 0 || y % 400 = 0)

/-- The days of a month. -/
def daysInMonth (y m : Nat) : Nat :=
  if m = 2 then (if isLeap y then 29 else 28)
  else if m = 4 ∨ m = 6 ∨ m = 9 ∨ m = 11 then 30
  else 31

-- =============================================================== reading

/-- Two digits. -/
def two (a b : Char) : Option Nat :=
  match digit? a, digit? b with
  | some a, some b => some (10 * a + b)
  | _, _ => none

/-- A time split into its civil part, its fraction and its zone. -/
structure Scan where
  seconds : Int
  fraction : List Nat
  zone : List Char

/-- `YYYY-MM-DDThh:mm:ss[.fraction]zone`. -/
def scan : List Char → Option Scan
  | y₁ :: y₂ :: y₃ :: y₄ :: '-' :: m₁ :: m₂ :: '-' :: d₁ :: d₂ :: sep
      :: h₁ :: h₂ :: ':' :: n₁ :: n₂ :: ':' :: s₁ :: s₂ :: rest =>
      match two y₁ y₂, two y₃ y₄, two m₁ m₂, two d₁ d₂, two h₁ h₂,
        two n₁ n₂, two s₁ s₂ with
      | some yh, some yl, some m, some d, some h, some n, some s =>
          let y := 100 * yh + yl
          if (sep = 'T' ∨ sep = ' ') ∧ 1 ≤ y ∧ 1 ≤ m ∧ m ≤ 12 ∧ 1 ≤ d
              ∧ d ≤ daysInMonth y m ∧ h < 24 ∧ n < 60 ∧ s < 60
              ∧ (rest.head? ≠ some '.' ∨ (spanFraction rest).1 ≠ []) then
            some {
              seconds := daysFromCivil y m d * 86400
                + (3600 * h + 60 * n + s : Nat)
              fraction := (spanFraction rest).1
              zone := (spanFraction rest).2 }
          else none
      | _, _, _, _, _, _, _ => none
  | _ => none

/-- The offset a zone text writes, in seconds east of UTC. -/
def offset : List Char → Option Int
  | ['Z'] => some 0
  | [sign, h₁, h₂, ':', m₁, m₂] =>
      match two h₁ h₂, two m₁ m₂ with
      | some h, some m =>
          if h < 24 ∧ m < 60 then
            if sign = '+' then some (60 * (60 * h + m) : Nat)
            else if sign = '-' then some (-(60 * (60 * h + m) : Nat))
            else none
          else none
      | _, _ => none
  | _ => none

/-- The microseconds the first six fraction digits write. -/
def micros (fraction : List Nat) : Int :=
  (ofDigits ((fraction ++ [0, 0, 0, 0, 0, 0]).take 6) : Nat)

-- ================================================ what a scanned text is

/-- A character that neither writes the zone `Z` nor opens an offset. -/
def Inner (c : Char) : Prop := c ≠ 'Z' ∧ c ≠ '+'

/-- A digit is no such character. -/
theorem inner_of_digit {c : Char} {n : Nat} (h : digit? c = some n) :
    Inner c := by
  unfold digit? at h
  split at h
  · next hd =>
      constructor
      · rintro rfl
        exact absurd hd (by decide)
      · rintro rfl
        exact absurd hd (by decide)
  · cases h

/-- Nor is either of two digits. -/
theorem inner_of_two {a b : Char} {n : Nat} (h : two a b = some n) :
    Inner a ∧ Inner b := by
  unfold two at h
  split at h
  · next ha hb => exact ⟨inner_of_digit ha, inner_of_digit hb⟩
  · cases h

/-- The digits a text opens with, and what follows them: after the
digits any text that opens with none gives the same reading. -/
theorem spanDigits_split (cs : List Char) :
    ∃ ds, cs = ds ++ (spanDigits cs).2 ∧ (∀ c ∈ ds, Inner c)
      ∧ ∀ rest, spanDigits rest = ([], rest) →
        spanDigits (ds ++ rest) = ((spanDigits cs).1, rest) := by
  induction cs with
  | nil => exact ⟨[], rfl, by simp, fun rest h => h⟩
  | cons c cs ih =>
      cases hd : digit? c with
      | none =>
          refine ⟨[], ?_, by simp, fun rest h => ?_⟩
          · simp [spanDigits, hd]
          · simpa [spanDigits, hd] using h
      | some d =>
          obtain ⟨ds, hcs, hinner, hrest⟩ := ih
          refine ⟨c :: ds, ?_, ?_, fun rest h => ?_⟩
          · simp only [spanDigits, hd, List.cons_append]
            rw [← hcs]
          · exact List.forall_mem_cons.mpr ⟨inner_of_digit hd, hinner⟩
          · simp only [List.cons_append, spanDigits, hd, hrest rest h]

/-- What opens no digits and no fraction. -/
def Opens (zone : List Char) : Prop :=
  spanDigits zone = ([], zone) ∧ zone.head? ≠ some '.'

/-- A zone opens no fraction. -/
theorem spanFraction_of_opens {zone : List Char} (h : Opens zone) :
    spanFraction zone = ([], zone) := by
  cases zone with
  | nil => rfl
  | cons c cs =>
      have hc : c ≠ '.' := fun hc => h.2 (by rw [hc]; rfl)
      unfold spanFraction
      split
      · next heq => exact absurd (List.cons.inj heq).1 hc
      · rfl

/-- A fraction, and the zone that follows it. -/
theorem spanFraction_split (cs : List Char) :
    ∃ fraction, cs = fraction ++ (spanFraction cs).2
      ∧ (∀ c ∈ fraction, Inner c)
      ∧ ∀ zone, Opens zone → spanFraction (fraction ++ zone)
          = ((spanFraction cs).1, zone)
        ∧ ((cs.head? ≠ some '.' ∨ (spanFraction cs).1 ≠ []) →
          ((fraction ++ zone).head? ≠ some '.'
            ∨ (spanFraction cs).1 ≠ [])) := by
  by_cases hdot : ∃ cs', cs = '.' :: cs'
  · obtain ⟨cs', rfl⟩ := hdot
    obtain ⟨ds, hcs, hinner, hrest⟩ := spanDigits_split cs'
    refine ⟨'.' :: ds, ?_, ?_, fun zone hzone => ⟨?_, ?_⟩⟩
    · show '.' :: cs' = '.' :: (ds ++ (spanDigits cs').2)
      rw [← hcs]
    · exact List.forall_mem_cons.mpr ⟨by constructor <;> decide, hinner⟩
    · exact hrest zone hzone.1
    · exact fun h => h.imp_left fun hne => absurd rfl hne
  · have hspan : spanFraction cs = ([], cs) := by
      unfold spanFraction
      split
      · next cs' => exact absurd ⟨cs', rfl⟩ hdot
      · rfl
    rw [hspan]
    refine ⟨[], rfl, by simp, fun zone hzone => ⟨?_, fun _ => ?_⟩⟩
    · exact spanFraction_of_opens hzone
    · exact Or.inl hzone.2

/-- A text that scans keeps its civil time and its fraction when its zone
is replaced. -/
theorem scan_split {cs : List Char} {t : Scan} (h : scan cs = some t) :
    ∃ text, cs = text ++ t.zone ∧ (∀ c ∈ text, Inner c)
      ∧ ∀ zone, Opens zone →
        scan (text ++ zone) = some { t with zone := zone } := by
  unfold scan at h
  split at h
  · next y₁ y₂ y₃ y₄ m₁ m₂ d₁ d₂ sep h₁ h₂ n₁ n₂ s₁ s₂ rest =>
      split at h
      · next yh yl m d hh n s hy hy' hm hd hhh hn hs =>
          dsimp only at h
          split at h
          · next hvalid =>
              obtain ⟨hsep, hy₁, hm₁, hm₂, hd₁, hd₂, hh₁, hn₁, hs₁, hfrac⟩ :=
                hvalid
              obtain rfl := Option.some.inj h
              obtain ⟨fraction, hrest, hinner, hzone⟩ :=
                spanFraction_split rest
              have hsep' : Inner sep := by
                rcases hsep with rfl | rfl
                · constructor <;> decide
                · constructor <;> decide
              have hdash : Inner '-' := by constructor <;> decide
              have hcolon : Inner ':' := by constructor <;> decide
              refine ⟨y₁ :: y₂ :: y₃ :: y₄ :: '-' :: m₁ :: m₂ :: '-' :: d₁
                :: d₂ :: sep :: h₁ :: h₂ :: ':' :: n₁ :: n₂ :: ':' :: s₁
                :: s₂ :: fraction, ?_, ?_, fun zone hz => ?_⟩
              · simpa using hrest
              · simp only [List.forall_mem_cons, inner_of_two hy,
                  inner_of_two hy', inner_of_two hm, inner_of_two hd,
                  inner_of_two hhh, inner_of_two hn, inner_of_two hs, hsep',
                  hdash, hcolon, true_and]
                exact hinner
              · obtain ⟨hspan, hhead⟩ := hzone zone hz
                have hfrac' := hhead hfrac
                simp only [List.cons_append, scan, hy, hy', hm, hd, hhh, hn,
                  hs, hspan]
                rw [if_pos ⟨hsep, hy₁, hm₁, hm₂, hd₁, hd₂, hh₁, hn₁, hs₁,
                  hfrac'⟩]
          · cases h
      · cases h
  · cases h

-- ======================================================== a time column

/-- The text of a time column. -/
inductive Text where
  /-- A whole millisecond since the epoch, rendered. -/
  | millis (n : Int)
  | other (s : String)
  deriving DecidableEq

/-- A warehouse's reading of a time text: at most microseconds, and UTC
when no zone is written. -/
def timestamp (s : String) : Option Int :=
  match scan s.toList with
  | none => none
  | some t =>
      if 6 < t.fraction.length then none
      else
        (if t.zone = [] then some 0 else offset t.zone).map fun o =>
          (t.seconds - o) * second + micros t.fraction

/-- The instant a time text denotes. -/
def Text.instant : Text → Option Int
  | .millis n => some (n * millisecond)
  | .other s => timestamp s

end MarketPlatform.Lib.Rfc3339
