import Otterio.Lifecycle.Select

/-!
# Active rules

`HasActiveRules` tells in advance whether any rule can act below a prefix (`pkg/bucket/lifecycle/lifecycle.go`).
A rule that is not active at an instant does nothing at an earlier one (`considerRule_of_inactive`).
-/

namespace Otterio.BucketLifecycle

open List

/-- The body of the loop of `HasActiveRules`: whether it returns true at the rule. -/
def Rule.active (rule : Rule) (pre : String) (recursive : Bool) (now : Time) : Bool :=
  if rule.status == "Disabled" then false
  else if pre != "" && rule.getPrefix != "" &&
      (!recursive && !hasPrefix pre rule.getPrefix ||
        recursive && !hasPrefix pre rule.getPrefix && !hasPrefix rule.getPrefix pre) then false
  else if rule.noncurrentVersionExpiration.noncurrentDays > 0 then true
  else if rule.noncurrentVersionTransition.noncurrentDays > 0 then true
  else if rule.expiration.deleteMarker then true
  else if rule.expiration.isDaysNull && rule.expiration.isDateNull && rule.transition.isDaysNull &&
      rule.transition.isDateNull then false
  else if !rule.expiration.isDateNull && rule.expiration.date < now then true
  else if !rule.transition.isDateNull && rule.transition.date < now then true
  else !rule.expiration.isDaysNull || !rule.transition.isDaysNull

def Lifecycle.hasActiveRules (lc : Lifecycle) (pre : String) (recursive : Bool) (now : Time) : Bool :=
  lc.rules.any fun rule => rule.active pre recursive now

def Rule.DaysNonneg (rule : Rule) : Prop :=
  0 ≤ rule.noncurrentVersionExpiration.noncurrentDays ∧ 0 ≤ rule.noncurrentVersionTransition.noncurrentDays

instance (rule : Rule) : Decidable rule.DaysNonneg := inferInstanceAs (Decidable (_ ∧ _))

variable {lib : LifecycleLib} {obj : ObjectOpts} {rule : Rule} {pre : String} {now later : Time}

theorem considerDue_of_lt {selected : Selection} {action : Action} {due : Time} {storageClass : String}
    (h : now < due) : considerDue now selected action due rule storageClass = selected :=
  if_neg fun hdue => hdue.2 h

/-- What a rule of a related prefix lacks if it is not active. -/
structure Rule.Inactive (rule : Rule) (later : Time) : Prop where
  noncurrentExpiration : rule.noncurrentVersionExpiration.noncurrentDays ≤ 0
  noncurrentTransition : rule.noncurrentVersionTransition.noncurrentDays ≤ 0
  deleteMarker : rule.expiration.deleteMarker = false
  expirationDays : rule.expiration.isDaysNull = true
  expirationDate : rule.expiration.isDateNull = true ∨ ¬ rule.expiration.date < later
  transitionDays : rule.transition.isDaysNull = true
  transitionDate : rule.transition.isDateNull = true ∨ ¬ rule.transition.date < later

/-- The prefixes of the rule and of the object are beginnings of its name, so that one is a beginning of the
other. -/
theorem inactive_of_actionable (hact : rule.actionable lib obj = true) (hpre : hasPrefix obj.name pre = true)
    (h : rule.active pre true later = false) : rule.Inactive later := by
  simp only [Rule.actionable, Bool.and_eq_true, bne_iff_ne] at hact
  have hrelated : hasPrefix pre rule.getPrefix = true ∨ hasPrefix rule.getPrefix pre = true := by
    simp only [hasPrefix, isPrefixOf_iff_prefix] at hact hpre ⊢
    exact prefix_or_prefix_of_prefix hact.1.2 hpre
  unfold Rule.active at h
  rw [if_neg (by simpa using hact.1.1), if_neg (by rcases hrelated with hr | hr <;> simp [hr])] at h
  split_ifs at h with hexp htrans hmarker hnull hedate htdate
  · simp only [Bool.and_eq_true] at hnull
    exact ⟨not_lt.mp hexp, not_lt.mp htrans, by simpa using hmarker, hnull.1.1.1, .inl hnull.1.1.2, hnull.1.2,
      .inl hnull.2⟩
  · simp only [Bool.or_eq_false_iff, Bool.not_eq_false', Bool.and_eq_true, Bool.not_eq_true', decide_eq_true_eq,
      not_and_or, Bool.not_eq_false] at h hedate htdate
    exact ⟨not_lt.mp hexp, not_lt.mp htrans, by simpa using hmarker, h.1, hedate, h.2, htdate⟩

theorem considerRule_of_inactive (h : rule.Inactive later) (hdays : rule.DaysNonneg) (hnow : now < later)
    (selected : Selection) : considerRule lib obj now selected rule = selected := by
  have hmarker : considerMarker obj rule selected = selected := by
    simp [considerMarker, h.deleteMarker]
  have hnce : considerNoncurrentExpiration lib obj now rule selected = selected := by
    simp [considerNoncurrentExpiration, NoncurrentVersionExpiration.isDaysNull,
      le_antisymm h.noncurrentExpiration hdays.1]
  have hnct : considerNoncurrentTransition lib obj now rule selected = selected := by
    simp [considerNoncurrentTransition, NoncurrentVersionTransition.isDaysNull,
      le_antisymm h.noncurrentTransition hdays.2]
  have hexpiration : considerExpiration lib obj now rule selected = selected := by
    unfold considerExpiration
    rcases h.expirationDate with hnull | hdate
    · simp [hnull, h.expirationDays]
    · simp [h.expirationDays, considerDue_of_lt (hnow.trans_le (not_lt.mp hdate))]
  have htransition : considerTransition lib obj now rule selected = selected := by
    unfold considerTransition
    rcases h.transitionDate with hnull | hdate
    · simp [hnull, h.transitionDays]
    · simp [h.transitionDays, considerDue_of_lt (hnow.trans_le (not_lt.mp hdate))]
  simp only [considerRule, hmarker, hnce, hnct, hexpiration, htransition, ite_self]

/-- **A configuration without active rules does nothing** to the objects below the prefix, other than to end an
expired restored copy. -/
theorem selectAt_of_not_hasActiveRules (lib : LifecycleLib) (lc : Lifecycle) (pre : String) (obj : ObjectOpts)
    (now later : Time) (hdays : ∀ rule ∈ lc.rules, rule.DaysNonneg) (h : lc.hasActiveRules pre true later = false)
    (hpre : hasPrefix obj.name pre = true) (hnow : now < later)
    (hrestored : ∀ offer ∈ restoredOffer obj, ¬ IsDue now offer) : selectAt lib lc obj now = .zero := by
  have hstart : considerRestored obj now .zero = .zero := by
    rw [considerRestored_eq, filter_eq_nil_iff.mpr (by simpa using hrestored)]
    rfl
  unfold selectAt
  simp only [hstart]
  split_ifs with hname hmod
  · rfl
  · rfl
  · refine foldlRecOn (motive := fun selected => selected = Selection.zero) _ _ rfl fun selected hzero rule hrule => ?_
    rw [Lifecycle.filterActionableRules, if_neg hname] at hrule
    obtain ⟨hmem, hact⟩ := mem_filter.mp hrule
    have hinactive := inactive_of_actionable hact hpre (by simpa using any_eq_false.mp h rule hmem)
    exact (considerRule_of_inactive hinactive (hdays rule hmem) hnow selected).trans hzero

/-- A rule that expires objects at a date, at the instant before it. -/
theorem selectAt_before_date : let lc : Lifecycle :=
      ⟨[{ idleRule "date" with expiration := ⟨0, 5 * day, false, false, true⟩ }]⟩
    lc.hasActiveRules "ph" true (5 * day) = false ∧ selectAt untaggedLib lc plainObject (5 * day - 1) = .zero := by
  intro lc
  have h : lc.hasActiveRules "ph" true (5 * day) = false := by decide +kernel
  exact ⟨h, selectAt_of_not_hasActiveRules _ lc "ph" _ _ _ (by decide +kernel) h (by decide) (by decide) (by decide)⟩

/-- With a negative number of noncurrent days, which `Validate` does not accept, no rule is active. -/
theorem selectAt_negative_days : let lc : Lifecycle :=
      ⟨[{ idleRule "negative" with noncurrentVersionExpiration := ⟨-1, true⟩ }]⟩
    lc.hasActiveRules "" true (3 * day) = false ∧
      selectAt untaggedLib lc { plainObject with versionID := "v", isLatest := false, successorModTime := day }
        (2 * day) = ⟨.deleteVersionAction, "", "negative", day⟩ := by
  decide +kernel

end Otterio.BucketLifecycle
