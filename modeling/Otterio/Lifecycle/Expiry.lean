import Mathlib.Order.Bounds.Basic
import Otterio.Lib.Int64
import Otterio.Lifecycle.Select

/-!
# The arithmetic of deadlines

`ExpectedExpiryTime` with its calculations in `int64`. The difference of the seconds overflows for times about
292 billion years ago. From any later time on, nothing overflows and the deadline is the first midnight after the
days, unless the last day of the year 9999 comes before it.
-/

namespace Otterio.BucketLifecycle

/-- `ExpectedExpiryTime`, with the exact results of its operations. -/
def expectedExpiryCalc (lib : LifecycleLib) (modTime : Time) (days : Int) : Calc Time :=
  let t := modTime - modTime % day
  let later : Calc Time :=
    if days ≥ 0 ∧ ¬ t < lastDay then pure t
    else do
      let n ← Calc.add days 1
      pure (lib.addDays t n)
  if days ≥ 0 ∧ t < lastDay then do
    let seconds ← Calc.sub (lastDay / 1000000000) (t / 1000000000)
    if days ≥ seconds.tdiv 86400 then pure lastDay else later
  else later

/-- The seconds from the beginning of the day to the last day fit in `int64`. -/
def InReach (modTime : Time) : Prop := lastDay / 1000000000 - (modTime - modTime % day) / 1000000000 ≤ maxInt64

instance (modTime : Time) : Decidable (InReach modTime) := inferInstanceAs (Decidable (_ ≤ _))

variable {lib : LifecycleLib} {modTime : Time} {days : Int}

theorem expectedExpiryTime_eq (hadd : ∀ t n, t % day = 0 → lib.addDays t n = t + n * day) (hdays : 0 ≤ days) :
    expectedExpiryTime lib modTime days = if modTime - modTime % day < lastDay then
      min (modTime - modTime % day + (days + 1) * day) lastDay else modTime - modTime % day := by
  have hmidnight : (modTime - modTime % day) % day = 0 := by
    unfold Time day
    omega
  unfold expectedExpiryTime
  dsimp only
  rw [hadd _ _ hmidnight]
  unfold Time day lastDay
  split_ifs <;> omega

theorem expectedExpiryCalc_gives (h : InReach modTime) (hdays : 0 ≤ days) (hmax : days ≤ maxInt64) :
    (expectedExpiryCalc lib modTime days).Gives (expectedExpiryTime lib modTime days) := by
  unfold expectedExpiryCalc expectedExpiryTime
  unfold InReach at h
  generalize modTime - modTime % day = t at h
  dsimp only
  by_cases hlast : t < lastDay
  · have hnonneg : 0 ≤ lastDay / 1000000000 - t / 1000000000 := by
      unfold Time lastDay at *
      omega
    rw [if_pos ⟨hdays, hlast⟩]
    refine (Calc.gives_sub ⟨le_trans (by decide) hnonneg, h⟩).bind ?_
    rw [Int.tdiv_eq_ediv_of_nonneg hnonneg]
    by_cases hend : days ≥ (lastDay / 1000000000 - t / 1000000000) / 86400
    · rw [if_pos hend, if_pos ⟨hdays, hlast, hend⟩]
      exact Calc.gives_pure lastDay
    · rw [if_neg hend, if_neg fun hc => hc.2 hlast, if_neg fun hc => hend hc.2.2, if_neg fun hc => hc.2 hlast]
      -- the days are less than the seconds that are left
      have hless : days + 1 ≤ maxInt64 := by
        unfold Time at h
        omega
      exact (Calc.gives_add ⟨by omega, hless⟩).bind (Calc.gives_pure _)
  · rw [if_neg fun hc => hlast hc.2, if_pos ⟨hdays, hlast⟩, if_neg fun hc => hlast hc.2.1, if_pos ⟨hdays, hlast⟩]
    exact Calc.gives_pure t

/-- **Deadlines.** Within reach of the last day nothing overflows. A deadline is the first midnight after the days,
or the last day. It never comes before the day of the modification, and not earlier for a later time or more
days. -/
theorem expectedExpiryCalc_right (lib : LifecycleLib)
    (hadd : ∀ t n, t % day = 0 → lib.addDays t n = t + n * day) (modTime : Time) (days : Int)
    (hreach : InReach modTime) (hdays : 0 ≤ days) (hmax : days ≤ maxInt64) :
    (expectedExpiryCalc lib modTime days).Fits ∧
    (modTime < lastDay → ∃ m, IsLeast {m | m % day = 0 ∧ modTime + days * day < m} m ∧
      (expectedExpiryCalc lib modTime days).val = min m lastDay) ∧
    modTime - modTime % day ≤ (expectedExpiryCalc lib modTime days).val ∧
    ∀ modTime' days', modTime ≤ modTime' → days ≤ days' → days' ≤ maxInt64 →
      (expectedExpiryCalc lib modTime days).val ≤ (expectedExpiryCalc lib modTime' days').val := by
  have hgives : ∀ {modTime : Time} {days : Int}, InReach modTime → 0 ≤ days → days ≤ maxInt64 →
      (expectedExpiryCalc lib modTime days).Gives (if modTime - modTime % day < lastDay then
        min (modTime - modTime % day + (days + 1) * day) lastDay else modTime - modTime % day) := by
    intro modTime days hreach hdays hmax
    rw [← expectedExpiryTime_eq hadd hdays]
    exact expectedExpiryCalc_gives hreach hdays hmax
  obtain ⟨hval, hfits⟩ := hgives hreach hdays hmax
  rw [hval]
  refine ⟨hfits, fun hbefore => ⟨modTime - modTime % day + (days + 1) * day, ⟨⟨?_, ?_⟩, ?_⟩, ?_⟩, ?_, ?_⟩
  · unfold Time day
    omega
  · unfold Time day
    omega
  · rintro m ⟨hm, hlt⟩
    unfold Time day at *
    omega
  · unfold Time day lastDay at *
    split_ifs <;> omega
  · unfold Time day lastDay
    split_ifs <;> omega
  · intro modTime' days' hle hle' hmax'
    have hreach' : InReach modTime' := by
      unfold InReach Time day lastDay at *
      omega
    rw [(hgives hreach' (hdays.trans hle') hmax').1]
    unfold Time day lastDay at *
    split_ifs <;> omega

/-- An object of the year 2000, with the largest number of days. -/
theorem expectedExpiryCalc_max :
    (expectedExpiryCalc untaggedLib (946684800 * 1000000000 + 1) maxInt64).val = lastDay := by
  obtain ⟨-, hval, -⟩ := expectedExpiryCalc_right untaggedLib (fun _ _ _ => rfl) (946684800 * 1000000000 + 1) maxInt64
    (by decide) (by decide) le_rfl
  obtain ⟨m, ⟨⟨-, hlt⟩, -⟩, hm⟩ := hval (by decide)
  exact hm.trans (min_eq_right (le_trans (by decide) hlt.le))

/-- 9223372036854720000 seconds before 1970, a midnight: the difference overflows, and the last day is returned in
the place of the next one. -/
theorem expectedExpiryCalc_overflow : let modTime : Time := -9223372036854720000 * 1000000000
    ¬ (expectedExpiryCalc untaggedLib modTime 0).Fits ∧ modTime % day = 0 ∧ modTime + day < lastDay ∧
      (expectedExpiryCalc untaggedLib modTime 0).val = lastDay := by
  intro modTime
  refine ⟨fun h => ?_, by decide, by decide, by decide⟩
  have hexact : (expectedExpiryCalc untaggedLib modTime 0).exact = [9223372290256934400] := by decide
  exact absurd (h _ (by rw [hexact]; exact List.mem_cons_self)).2 (by decide)

end Otterio.BucketLifecycle
