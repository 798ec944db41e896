import Otterio.Lib.Go

/-!
# DATE_DIFF

`dateDiff` mixes calendar dates with an elapsed `time.Duration` (`pkg/s3select/sql/timestampfuncs.go`).
A duration is a 64-bit number of nanoseconds, and `Time.Sub` stops at its bounds after some 292 years.

* `dateDiff_swap`: for two instants the arguments can be swapped, at the price of the sign.
* `Documented`: what the documentation says of one part and two timestamps; `Accurate`: when the
  code computes it.
-/

namespace Otterio.Select

inductive TimePart where
  | year | month | day | hour | minute | second | timezoneHour | timezoneMinute

/-- `time.Time`: an instant, in nanoseconds since 1970-01-01, and the offset of its location from UTC
at that instant, in seconds. -/
structure Timestamp where
  instant : Int
  offset : Int

def errNotImplemented : Error := .other 39

/-- The year, the month and the day of the month of a day, counted from 1970-01-01, in the Gregorian
calendar. Years are counted from March in eras of 400 years. -/
def civil (days : Int) : Int × Int × Int :=
  let z := days + 719468
  let doe := z % 146097
  let yoe := (doe - doe / 1460 + doe / 36524 - doe / 146096) / 365
  let doy := doe - (365 * yoe + yoe / 4 - yoe / 100)
  let mp := (5 * doy + 2) / 153
  let m := if mp < 10 then mp + 3 else mp - 9
  (yoe + z / 146097 * 400 + (if m ≤ 2 then 1 else 0), m, doy - (153 * mp + 2) / 5 + 1)

namespace Timestamp

/-- Nanoseconds since 1970-01-01 on the clock of the location. -/
def wall (t : Timestamp) : Int := t.instant + t.offset * 1000000000

def day (t : Timestamp) : Int := t.wall / 86400000000000

def date (t : Timestamp) : Int × Int × Int := civil t.day

/-- `t.Sub(u)`, which stops at the bounds of a duration. -/
def sub (t u : Timestamp) : Int := max (-2 ^ 63) (min (t.instant - u.instant) maxInt64)

/-- The time of day of the location, less the offset of the location. -/
def clock (t : Timestamp) : Int := t.wall % 86400000000000 - t.offset * 1000000000

end Timestamp

open Timestamp

def dateDiffOrdered (timePart : TimePart) (ts1 ts2 : Timestamp) : Except Error Int :=
  let duration := ts2.sub ts1
  let (y1, m1, d1) := ts1.date
  let (y2, m2, d2) := ts2.date
  match timePart with
  | .year =>
    let dy := y2 - y1
    if m2 > m1 ∨ (m2 = m1 ∧ d2 ≥ d1) then .ok dy else .ok (dy - 1)
  | .month => .ok ((m2 + 12 * y2) - (m1 + 12 * y1))
  | .day => .ok (duration.tdiv 86400000000000)
  | .hour => .ok (duration.tdiv 3600000000000)
  | .minute => .ok (duration.tdiv 60000000000)
  | .second => .ok (duration.tdiv 1000000000)
  | _ => .error errNotImplemented

/-- `dateDiff`, with the recursive call for timestamps out of order written out. -/
def dateDiff (timePart : TimePart) (ts1 ts2 : Timestamp) : Except Error Int :=
  if ts2.instant < ts1.instant then (dateDiffOrdered timePart ts2 ts1).map (-·)
  else dateDiffOrdered timePart ts1 ts2

/-- The difference the documentation gives, for the parts where it is a formula: the calendar dates
for days, the elapsed time for hours, minutes and seconds. -/
def documented : TimePart → Timestamp → Timestamp → Option Int
  | .day, t, u => some (u.day - t.day)
  | .hour, t, u => some ((u.instant - t.instant).tdiv 3600000000000)
  | .minute, t, u => some ((u.instant - t.instant).tdiv 60000000000)
  | .second, t, u => some ((u.instant - t.instant).tdiv 1000000000)
  | _, _, _ => none

/-- The difference is the documented one, and changes its sign when the timestamps are swapped. -/
def Documented (p : TimePart) (t u : Timestamp) : Prop :=
  (∀ v, documented p t u = some v → dateDiff p t u = .ok v) ∧ dateDiff p u t = (dateDiff p t u).map (-·)

/-- The full days between `t` and the later `u`, as far as a duration holds them, are those between
the dates: on clocks set to UTC, the time of day of `u` is past that of `t`, by less than a day, when
the part of the elapsed time that a duration cannot hold is taken off. -/
def DaysElapsed (t u : Timestamp) : Prop :=
  0 ≤ u.clock - t.clock - max 0 (u.instant - t.instant - maxInt64) ∧
    u.clock - t.clock - max 0 (u.instant - t.instant - maxInt64) < 86400000000000

/-- The elapsed time has no more units than a duration can hold. -/
def Held (unit : Int) (t u : Timestamp) : Prop := |u.instant - t.instant| < (maxInt64 / unit + 1) * unit

def Accurate : TimePart → Timestamp → Timestamp → Prop
  | .year, t, u => t.instant = u.instant → t.date.2 = u.date.2
  | .day, t, u => if u.instant < t.instant then DaysElapsed u t else DaysElapsed t u
  | .hour, t, u => Held 3600000000000 t u
  | .minute, t, u => Held 60000000000 t u
  | .second, t, u => Held 1000000000 t u
  | _, _, _ => True

variable {p : TimePart} {t u : Timestamp}

/-- Only timestamps of one instant, in two locations, do not go through the recursive call. -/
theorem dateDiff_swap (h : t.instant ≠ u.instant) : dateDiff p u t = (dateDiff p t u).map (-·) := by
  rcases lt_or_gt_of_ne h with hlt | hlt
  · rw [dateDiff, dateDiff, if_pos hlt, if_neg hlt.not_gt]
  · rw [dateDiff, dateDiff, if_pos hlt, if_neg hlt.not_gt]
    cases dateDiffOrdered p u t with
    | error e => rfl
    | ok v => exact congrArg Except.ok (neg_neg v).symm

theorem dateDiff_of_le (h : t.instant ≤ u.instant) : dateDiff p t u = dateDiffOrdered p t u := if_neg h.not_gt

theorem sub_of_le (h : t.instant ≤ u.instant) : u.sub t = min (u.instant - t.instant) maxInt64 ∧ 0 ≤ u.sub t := by
  unfold sub maxInt64
  omega

theorem days_iff (h : t.instant ≤ u.instant) : (u.sub t).tdiv 86400000000000 = u.day - t.day ↔ DaysElapsed t u := by
  obtain ⟨hsub, hnonneg⟩ := sub_of_le h
  rw [Int.tdiv_eq_ediv_of_nonneg hnonneg, hsub, DaysElapsed]
  unfold clock day wall maxInt64
  omega

theorem units_iff {unit : Int} (hunit : 0 < unit) (h : t.instant ≤ u.instant) :
    (u.sub t).tdiv unit = (u.instant - t.instant).tdiv unit ↔ Held unit t u := by
  obtain ⟨hsub, hnonneg⟩ := sub_of_le h
  have hle : 0 ≤ u.instant - t.instant := by omega
  rw [Int.tdiv_eq_ediv_of_nonneg hnonneg, hsub, Int.tdiv_eq_ediv_of_nonneg hle, Held, abs_of_nonneg hle,
    ← Int.ediv_lt_iff_lt_mul hunit]
  rcases le_total (u.instant - t.instant) maxInt64 with hm | hm
  · have := Int.ediv_le_ediv hunit hm
    rw [min_eq_left hm]
    omega
  · have := Int.ediv_le_ediv hunit hm
    rw [min_eq_right hm]
    omega

theorem dateDiff_eq_of_lt {v : Int} (h : u.instant < t.instant) :
    dateDiff p t u = .ok v ↔ dateDiffOrdered p u t = .ok (-v) := by
  rw [dateDiff, if_pos h]
  cases dateDiffOrdered p u t with
  | error e => simp [Except.map]
  | ok w => simp [Except.map, neg_eq_iff_eq_neg]

theorem dateDiff_units_iff {unit : Int} (hunit : 0 < unit)
    (hp : ∀ t u, dateDiffOrdered p t u = .ok ((u.sub t).tdiv unit)) :
    dateDiff p t u = .ok ((u.instant - t.instant).tdiv unit) ↔ Held unit t u := by
  rcases lt_or_ge u.instant t.instant with h | h
  · rw [dateDiff_eq_of_lt h, hp, ← Int.neg_tdiv, neg_sub, Except.ok.injEq, units_iff hunit h.le, Held, Held,
      abs_sub_comm]
  · rw [dateDiff_of_le h, hp, Except.ok.injEq, units_iff hunit h]

theorem dateDiff_day_iff : dateDiff .day t u = .ok (u.day - t.day) ↔ Accurate .day t u := by
  rcases lt_or_ge u.instant t.instant with h | h
  · rw [dateDiff_eq_of_lt h, neg_sub, Accurate, if_pos h, ← days_iff h.le, dateDiffOrdered, Except.ok.injEq]
  · rw [dateDiff_of_le h, Accurate, if_neg h.not_gt, ← days_iff h, dateDiffOrdered, Except.ok.injEq]

/-- Of one instant in two locations, only the years can come out differently. -/
theorem swap_iff : dateDiff p u t = (dateDiff p t u).map (-·) ↔
    (p = .year → t.instant = u.instant → t.date.2 = u.date.2) := by
  by_cases h : t.instant = u.instant
  · have hzero : t.sub u = 0 ∧ u.sub t = 0 := by
      unfold sub maxInt64
      omega
    rw [dateDiff_of_le h.le, dateDiff_of_le h.ge]
    cases p with
    | year =>
      rcases ht : t.date with ⟨y, m, d⟩
      rcases hu : u.date with ⟨y', m', d'⟩
      simp only [dateDiffOrdered, ht, hu, h, Prod.mk.injEq, forall_const]
      split_ifs <;> simp only [Except.map, Except.ok.injEq] <;> omega
    | month => simp [dateDiffOrdered, Except.map]
    | _ => simp [dateDiffOrdered, Except.map, hzero]
  · exact iff_of_true (dateDiff_swap h) fun _ h' => absurd h' h

/-- `dateDiff` follows its documentation exactly for accurate timestamps. -/
theorem dateDiff_documented_iff (p : TimePart) (t u : Timestamp) : Documented p t u ↔ Accurate p t u := by
  rw [Documented, swap_iff]
  cases p with
  | day => simpa [documented] using dateDiff_day_iff
  | hour => simpa [documented, Accurate] using dateDiff_units_iff (by decide) fun _ _ => rfl
  | minute => simpa [documented, Accurate] using dateDiff_units_iff (by decide) fun _ _ => rfl
  | second => simpa [documented, Accurate] using dateDiff_units_iff (by decide) fun _ _ => rfl
  | _ => simp [documented, Accurate]

/-- Two minutes around midnight are no day, the hours of three centuries are cut off, and an instant
on both sides of the turn of the year is a year before itself, but not a year after itself. -/
theorem dateDiff_undocumented : ¬ Documented .day ⟨-60000000000, 0⟩ ⟨60000000000, 0⟩ ∧
      ¬ Documented .hour ⟨0, 0⟩ ⟨9467107200000000000, 0⟩ ∧
      ¬ Documented .year ⟨0, 0⟩ ⟨0, -3600⟩ := by
  refine ⟨fun h => absurd (h.1 _ rfl) ?_, fun h => absurd (h.1 _ rfl) ?_, fun h => absurd h.2 ?_⟩ <;>
    decide +kernel

end Otterio.Select
