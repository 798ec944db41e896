import Otterio.Lifecycle.Select

/-!
# Predicting the expiry

`PredictExpiryTime` of `pkg/bucket/lifecycle/lifecycle.go`: the rule and the deadline that a response names
as the expiry of a version.

* `expiries`: the deadlines at which a rule expires a version that is no delete marker, whether they have
  come or not. `SelectAt` expires the version with the first best of them, once it is due
  (`selectAt_expiration`).
* `predictExpiryTime_eq`: the prediction is the first best of them as well, if a rule has one deadline only
  and no deadline is the zero time. Both loops use the zero time for "none", but `PredictExpiryTime` tests
  what it has, and `SelectAt` what it gets.
-/

namespace Otterio.BucketLifecycle

open List

/-! ## `PredictExpiryTime` -/

/-- `finalExpiryRuleID` and `finalExpiryDate`. -/
structure Prediction where
  ruleID : String
  date : Time
deriving DecidableEq, Repr

def Prediction.none : Prediction := ⟨"", Time.zero⟩

def Prediction.consider (final : Prediction) (ruleID : String) (due : Time) : Prediction :=
  if final.date = Time.zero ∨ due < final.date then ⟨ruleID, due⟩ else final

section Model

variable (lib : LifecycleLib) (obj : ObjectOpts)

def predictRule (noncurrent : Bool) (final : Prediction) (rule : Rule) : Prediction :=
  if noncurrent then
    if !rule.noncurrentVersionExpiration.isDaysNull then
      final.consider rule.id
        (expectedExpiryTime lib obj.successorModTime rule.noncurrentVersionExpiration.noncurrentDays)
    else final
  else
    let final :=
      if !rule.expiration.isDateNull then final.consider rule.id rule.expiration.date else final
    if !rule.expiration.isDaysNull then
      final.consider rule.id (expectedExpiryTime lib obj.modTime rule.expiration.days)
    else final

def predictExpiryTime (lc : Lifecycle) : Prediction :=
  if obj.deleteMarker || obj.name == "" || obj.modTime == Time.zero then .none
  else
    let noncurrent := obj.versionID != "" && !obj.isLatest
    if noncurrent && obj.successorModTime == Time.zero then .none
    else (lc.filterActionableRules lib obj).foldl (predictRule lib obj noncurrent) .none

/-- What a rule does to expire the version, now or later. -/
def expiryOffers (rule : Rule) : List Selection := noncurrentExpiration lib obj rule ++ currentExpiration lib obj rule

/-- All deadlines at which a rule expires the version, in the order of the document. -/
def expiries (lc : Lifecycle) : List Selection := (lc.filterActionableRules lib obj).flatMap (expiryOffers lib obj)

end Model

def Action.IsExpiration (a : Action) : Prop := a = .deleteAction ∨ a = .deleteVersionAction

instance (a : Action) : Decidable a.IsExpiration := inferInstanceAs (Decidable (_ ∨ _))

theorem priority_eq_three {a : Action} : priority a = 3 ↔ a.IsExpiration := by
  cases a <;> simp [priority, Action.IsExpiration]

/-- A prediction agrees with what is done at every instant. -/
def Agrees (predicted : Prediction) (selectedAt : Time → Selection) : Prop :=
  (predicted.date ≠ Time.zero → ∀ now, ((selectedAt now).action.IsExpiration ↔ predicted.date ≤ now) ∧
      (predicted.date ≤ now → (selectedAt now).ruleID = predicted.ruleID ∧ (selectedAt now).due = predicted.date)) ∧
  (predicted.date = Time.zero → ∀ now, ¬ (selectedAt now).action.IsExpiration)

/-! ## Expirations among the candidates -/

section Expiries

variable {lib : LifecycleLib} {obj : ObjectOpts} {lc : Lifecycle} {rule : Rule} {c : Selection}

theorem isExpiration_of_mem_expiryOffers (h : c ∈ expiryOffers lib obj rule) :
    c.action.IsExpiration := by
  rcases mem_append.mp h with h | h
  · rcases mem_append.mp h with h | h <;> split_ifs at h <;> simp_all [Action.IsExpiration]
  · unfold currentExpiration at h
    split_ifs at h <;> simp_all [Action.IsExpiration]

theorem isExpiration_of_mem (h : c ∈ expiries lib obj lc) : c.action.IsExpiration := by
  obtain ⟨rule, -, hc⟩ := mem_flatMap.mp h
  exact isExpiration_of_mem_expiryOffers hc

/-- Of what a rule does to a data version, the expirations are `expiryOffers`. -/
theorem filter_ruleOffers (hmarker : obj.deleteMarker = false) (rule : Rule) :
    (ruleOffers lib obj rule).filter (fun c => c.action.IsExpiration) = expiryOffers lib obj rule := by
  have hcleanup : markerCleanup obj rule = [] := by
    unfold markerCleanup ObjectOpts.expiredObjectDeleteMarker
    rw [hmarker, if_neg fun h => by cases h.1]
  have hnoncurrent : (noncurrentTransition lib obj rule).filter (fun c => c.action.IsExpiration) = [] := by
    unfold noncurrentTransition
    dsimp only
    split_ifs <;> rfl
  have hcurrent : (currentTransition lib obj rule).filter (fun c => c.action.IsExpiration) = [] := by
    unfold currentTransition
    dsimp only
    split_ifs <;> rfl
  have hall : ∀ l : List Selection, (∀ c ∈ l, c ∈ expiryOffers lib obj rule) →
      l.filter (fun c => c.action.IsExpiration) = l := by
    intro l hl
    rw [filter_eq_self]
    exact fun c hc => decide_eq_true (isExpiration_of_mem_expiryOffers (hl c hc))
  unfold ruleOffers
  simp only [filter_append, hcleanup, hnoncurrent, hcurrent, nil_append, append_nil]
  rw [hall _ fun c => mem_append_left _, hall _ fun c => mem_append_right _]
  rfl

/-- The candidates that expire a data version are the expiries that are due. -/
theorem filter_candidates (hname : obj.name ≠ "") (hmarker : obj.deleteMarker = false)
    (hmod : obj.modTime ≠ Time.zero) (now : Time) :
    (candidates lib obj lc now).filter (fun c => c.action.IsExpiration) =
      (expiries lib obj lc).filter (IsDue now) := by
  have hrestored : ((restoredOffer obj).filter (IsDue now)).filter (fun c => c.action.IsExpiration) = [] := by
    rw [filter_eq_nil_iff]
    intro c hc
    unfold restoredOffer at hc
    split_ifs at hc <;> simp_all [Action.IsExpiration]
  unfold candidates rulesCandidates expiries
  rw [filter_append, hrestored, nil_append, if_neg hmod, Lifecycle.filterActionableRules,
    if_neg hname, filter_comm, filter_flatMap]
  congr 1
  congr 1
  funext rule
  exact filter_ruleOffers hmarker rule

/-- `SelectAt` expires a data version if an expiry is due, and then with the first best of all. -/
theorem selectAt_expiration (hname : obj.name ≠ "") (hmarker : obj.deleteMarker = false)
    (hmod : obj.modTime ≠ Time.zero) (hdue : ∀ c ∈ expiries lib obj lc, c.due ≠ Time.zero) (now : Time) :
    ((∃ c ∈ expiries lib obj lc, c.due ≤ now) →
      selectAt lib lc obj now = firstBest selectionKey .zero (expiries lib obj lc)) ∧
    ((selectAt lib lc obj now).action.IsExpiration → ∃ c ∈ expiries lib obj lc, c.due ≤ now) := by
  have heq : selectAt lib lc obj now = firstBest selectionKey .zero (candidates lib obj lc now) :=
    selectAt_eq hname (fun h => by rw [hmarker] at h; cases h) lc
  have hfilter := @filter_candidates lib obj lc hname hmarker hmod now
  constructor
  · rintro ⟨c, hc, hle⟩
    have hclass : ∀ c ∈ expiries lib obj lc, priority c.action = 3 := fun c hc =>
      priority_eq_three.mpr (isExpiration_of_mem hc)
    rw [heq, firstBest_filter selectionKey (fun c => c.action.IsExpiration), hfilter]
    · symm
      apply firstBest_filter selectionKey (IsDue now)
      · intro c hc _
        exact selectionKey_lt.mpr (better_zero (by rw [hclass c hc]; decide))
      · intro c hc d hd hcdue hddue
        have hlt : now < d.due := not_le.mp fun h => hddue ⟨hdue d hd, h⟩
        exact selectionKey_lt.mpr (.inr ⟨(hclass c hc).trans (hclass d hd).symm, hcdue.2.trans_lt hlt⟩)
      · exact ⟨c, hc, hdue c hc, hle⟩
    · intro c hc _
      exact selectionKey_lt.mpr (better_zero (priority_pos_of_mem hc))
    · intro c _ d _ hpc hpd
      -- No class is above that of the expirations.
      have hc3 : priority c.action = 3 := priority_eq_three.mpr hpc
      have hd3 : priority d.action < 3 := by
        have hne : priority d.action ≠ 3 := fun h => hpd (priority_eq_three.mp h)
        have hmax : priority d.action ≤ 3 := by cases d.action <;> decide
        omega
      exact selectionKey_lt.mpr (.inl (hc3 ▸ hd3))
    · have hmem : c ∈ (candidates lib obj lc now).filter (fun c => c.action.IsExpiration) := by
        rw [hfilter]
        exact mem_filter.mpr ⟨hc, decide_eq_true ⟨hdue c hc, hle⟩⟩
      exact ⟨c, (mem_filter.mp hmem).1, isExpiration_of_mem hc⟩
  · intro hexp
    rcases firstBest_cases selectionKey .zero (candidates lib obj lc now) with
      ⟨hzero, -⟩ | ⟨pre, x, post, hsplit, hx, -, -, -⟩
    · rw [heq, hzero] at hexp
      cases hexp with
      | inl h => cases h
      | inr h => cases h
    · rw [heq, hx] at hexp
      have hmem : x ∈ (candidates lib obj lc now).filter (fun c => c.action.IsExpiration) := by
        refine mem_filter.mpr ⟨?_, decide_eq_true hexp⟩
        rw [hsplit]
        exact mem_append_right _ (.head _)
      rw [hfilter] at hmem
      have hx := mem_filter.mp hmem
      exact ⟨x, hx.1, (of_decide_eq_true hx.2).2⟩

/-! ## The loop of the prediction -/

def Selection.prediction (s : Selection) : Prediction := ⟨s.ruleID, s.due⟩

/-- Nothing is selected, or an expiration with a deadline. -/
def Expiring (s : Selection) : Prop := s = .zero ∨ s.action.IsExpiration ∧ s.due ≠ Time.zero

variable {s : Selection}

theorem consider_prediction (hs : Expiring s) (hc : c.action.IsExpiration)
    (hdue : c.due ≠ Time.zero) :
    Expiring (firstOf selectionKey s c) ∧
      s.prediction.consider c.ruleID c.due = (firstOf selectionKey s c).prediction := by
  unfold firstOf Prediction.consider Selection.prediction
  rcases hs with rfl | ⟨hexp, hs⟩
  · have hlt : selectionKey c < selectionKey .zero :=
      selectionKey_lt.mpr (better_zero (by rw [priority_eq_three.mpr hc]; decide))
    rw [if_pos hlt, if_pos (.inl rfl)]
    exact ⟨.inr ⟨hc, hdue⟩, rfl⟩
  · have hclass : priority c.action = priority s.action := by
      rw [priority_eq_three.mpr hc, priority_eq_three.mpr hexp]
    have hlt : selectionKey c < selectionKey s ↔ s.due = Time.zero ∨ c.due < s.due := by
      rw [selectionKey_lt, Better]
      simp [hclass, hs]
    by_cases h : selectionKey c < selectionKey s
    · rw [if_pos h, if_pos (hlt.mp h)]
      exact ⟨.inr ⟨hc, hdue⟩, rfl⟩
    · rw [if_neg h, if_neg fun h' => h (hlt.mpr h')]
      exact ⟨.inr ⟨hexp, hs⟩, rfl⟩

theorem foldl_prediction {l : List Selection} (hl : ∀ c ∈ l, c.action.IsExpiration ∧ c.due ≠ Time.zero) (hs : Expiring s) :
    Expiring (firstBest selectionKey s l) ∧ l.foldl (fun final c => final.consider c.ruleID c.due) s.prediction =
        (firstBest selectionKey s l).prediction := by
  induction l generalizing s with
  | nil => exact ⟨hs, rfl⟩
  | cons c l ih =>
    obtain ⟨hc, hdue⟩ := hl c (.head _)
    obtain ⟨hnext, hconsider⟩ := consider_prediction hs hc hdue
    rw [foldl_cons, hconsider]
    exact ih (fun d hd => hl d (.tail _ hd)) hnext

theorem expiryOffers_of_noncurrent (hmarker : obj.deleteMarker = false) (hid : obj.versionID ≠ "")
    (hlatest : obj.isLatest = false) (rule : Rule) :
    expiryOffers lib obj rule =
      if rule.noncurrentVersionExpiration.noncurrentDays ≠ 0 ∧ obj.successorModTime ≠ Time.zero then
        [⟨.deleteVersionAction, "", rule.id, expectedExpiryTime lib obj.successorModTime
          rule.noncurrentVersionExpiration.noncurrentDays⟩]
      else [] := by
  have hcleanup : ¬ obj.expiredObjectDeleteMarker = true := by
    simp [ObjectOpts.expiredObjectDeleteMarker, hmarker]
  have hcurrent : ¬ CurrentData obj := by
    rintro ⟨-, h | h⟩
    · exact hid h
    · rw [hlatest] at h
      cases h
  have hnoncurrent : Noncurrent obj ↔ obj.successorModTime ≠ Time.zero := by simp [Noncurrent, hid, hlatest]
  have hmarkerOffer : ¬ (rule.noncurrentVersionExpiration.noncurrentDays ≠ 0 ∧ obj.versionID ≠ "" ∧
      obj.expiredObjectDeleteMarker = true) := fun h => hcleanup h.2.2
  unfold expiryOffers noncurrentExpiration currentExpiration
  dsimp only
  rw [if_neg hcurrent, append_nil, if_neg hmarkerOffer, append_nil]
  simp only [hnoncurrent]

theorem expiryOffers_of_current (hcurrent : CurrentData obj) (rule : Rule) : expiryOffers lib obj rule =
      if rule.expiration.date ≠ Time.zero then [⟨.deleteAction, "", rule.id, rule.expiration.date⟩]
      else if rule.expiration.days ≠ 0 then
        [⟨.deleteAction, "", rule.id, expectedExpiryTime lib obj.modTime rule.expiration.days⟩]
      else [] := by
  have hcleanup : ¬ obj.expiredObjectDeleteMarker = true := by
    simp [ObjectOpts.expiredObjectDeleteMarker, hcurrent.1]
  have hnoncurrent : ¬ Noncurrent obj := by
    rintro ⟨hid, hlatest, -⟩
    rcases hcurrent.2 with h | h
    · exact hid h
    · rw [hlatest] at h
      cases h
  unfold expiryOffers noncurrentExpiration currentExpiration
  dsimp only
  rw [if_neg (fun h => hnoncurrent h.2), if_neg (fun h => hcleanup h.2.2), if_pos hcurrent]
  rfl

/-- The version is noncurrent for `PredictExpiryTime`, or a current data version. -/
theorem noncurrent_or_current (hmarker : obj.deleteMarker = false) :
    (obj.versionID != "" && !obj.isLatest) = true ∧ obj.versionID ≠ "" ∧ obj.isLatest = false ∨
      (obj.versionID != "" && !obj.isLatest) = false ∧ CurrentData obj := by
  unfold CurrentData
  by_cases hid : obj.versionID = "" <;> cases hlatest : obj.isLatest <;> simp [hid, hmarker]

theorem predictRule_eq (hmarker : obj.deleteMarker = false)
    (hsuccessor : ¬ (obj.versionID != "" && !obj.isLatest && obj.successorModTime == Time.zero) = true)
    (hone : rule.expiration.isDaysNull = true ∨ rule.expiration.isDateNull = true) (final : Prediction) :
    predictRule lib obj (obj.versionID != "" && !obj.isLatest) final rule =
      (expiryOffers lib obj rule).foldl (fun final c => final.consider c.ruleID c.due) final := by
  unfold predictRule
  rcases noncurrent_or_current hmarker with ⟨hnon, hid, hlatest⟩ | ⟨hnon, hcurrent⟩
  · have hzero : obj.successorModTime ≠ Time.zero := by simpa [hnon] using hsuccessor
    rw [hnon, if_pos rfl, expiryOffers_of_noncurrent hmarker hid hlatest]
    simp only [hzero, ne_eq, not_false_eq_true, and_true, NoncurrentVersionExpiration.isDaysNull,
      Bool.not_eq_true', beq_eq_false_iff_ne]
    split_ifs <;> rfl
  · rw [hnon, expiryOffers_of_current hcurrent]
    simp only [Expiration.isDaysNull, Expiration.isDateNull, beq_iff_eq] at hone
    simp only [Expiration.isDaysNull, Expiration.isDateNull, Bool.not_eq_true', beq_eq_false_iff_ne,
      Bool.false_eq_true, if_false]
    by_cases hdate : rule.expiration.date = Time.zero
    · simp only [hdate, ne_eq, not_true_eq_false, if_false]
      split_ifs <;> rfl
    · have hdays : rule.expiration.days = 0 := hone.resolve_right hdate
      simp only [hdate, hdays, ne_eq, not_true_eq_false, not_false_eq_true, if_true, if_false]
      rfl

theorem expiries_eq_nil (hmarker : obj.deleteMarker = false)
    (hsuccessor : (obj.versionID != "" && !obj.isLatest && obj.successorModTime == Time.zero) = true) :
    expiries lib obj lc = [] := by
  have hcond : (obj.versionID ≠ "" ∧ obj.isLatest = false) ∧ obj.successorModTime = Time.zero := by
    simpa using hsuccessor
  unfold expiries
  rw [flatMap_eq_nil_iff]
  intro rule _
  rw [expiryOffers_of_noncurrent hmarker hcond.1.1 hcond.1.2, if_neg fun h => h.2 hcond.2]

theorem predictExpiryTime_eq (hname : obj.name ≠ "") (hmarker : obj.deleteMarker = false)
    (hmod : obj.modTime ≠ Time.zero)
    (hone : ∀ rule ∈ lc.rules, rule.expiration.isDaysNull = true ∨ rule.expiration.isDateNull = true)
    (hdue : ∀ c ∈ expiries lib obj lc, c.due ≠ Time.zero) :
    predictExpiryTime lib obj lc = (firstBest selectionKey .zero (expiries lib obj lc)).prediction := by
  unfold predictExpiryTime
  rw [if_neg (by simp [hmarker, hname, hmod])]
  by_cases hsuccessor : (obj.versionID != "" && !obj.isLatest && obj.successorModTime == Time.zero) = true
  · rw [if_pos hsuccessor, expiries_eq_nil hmarker hsuccessor]
    rfl
  · rw [if_neg hsuccessor]
    have hmem : ∀ rule ∈ lc.filterActionableRules lib obj, rule ∈ lc.rules := by
      intro rule hrule
      rw [Lifecycle.filterActionableRules, if_neg hname] at hrule
      exact (mem_filter.mp hrule).1
    have hloop : ∀ (rules : List Rule) (final : Prediction),
        (∀ rule ∈ rules, rule ∈ lc.filterActionableRules lib obj) →
        rules.foldl (predictRule lib obj (obj.versionID != "" && !obj.isLatest)) final =
          (rules.flatMap (expiryOffers lib obj)).foldl (fun final c => final.consider c.ruleID c.due)
            final := by
      intro rules
      induction rules with
      | nil => exact fun _ _ => rfl
      | cons rule rules ih =>
        intro final hrules
        rw [foldl_cons, flatMap_cons, foldl_append, ih _ fun r hr => hrules r (.tail _ hr),
          predictRule_eq hmarker hsuccessor (hone rule (hmem rule (hrules rule (.head _))))]
    rw [hloop _ _ fun _ h => h]
    exact (foldl_prediction (fun c hc => ⟨isExpiration_of_mem hc, hdue c hc⟩) (.inl rfl)).2

end Expiries

/-! ## Agreement -/

variable {lib : LifecycleLib}

theorem expectedExpiryTime_ne_zero (hadd : ∀ t n, 0 < n → t < lib.addDays t n) {t : Time}
    (ht : Time.zero ≤ t) {days : Int} (hdays : 0 < days) : expectedExpiryTime lib t days ≠ Time.zero := by
  have hmidnight : Time.zero ≤ t - t % day := by
    have hzero : (Time.zero : Int) % day = 0 := by decide
    have hle : (Time.zero : Int) / day ≤ t / day := Int.ediv_le_ediv (by decide) ht
    have hz := Int.emod_add_mul_ediv Time.zero day
    have htd := Int.emod_add_mul_ediv t day
    have hmul : (day : Int) * (Time.zero / day) ≤ day * (t / day) :=
      Int.mul_le_mul_of_nonneg_left hle (by decide)
    linarith
  have hlast : Time.zero < lastDay := by decide
  unfold expectedExpiryTime
  dsimp only
  split_ifs with h1 h2
  · exact hlast.ne'
  · exact (hlast.trans_le (not_lt.mp h2.2)).ne'
  · exact (hmidnight.trans_lt (hadd _ _ (by omega))).ne'

/-- A version that was modified, and replaced, in the year 1 or later has no deadline at the zero time if the
days of the rules are not negative and `AddDate` adds days. -/
theorem due_ne_zero (hadd : ∀ t n, 0 < n → t < lib.addDays t n) {lc : Lifecycle}
    {obj : ObjectOpts} (hmarker : obj.deleteMarker = false) (hmod : Time.zero ≤ obj.modTime)
    (hsuccessor : Time.zero ≤ obj.successorModTime)
    (hdays : ∀ rule ∈ lc.filterActionableRules lib obj, 0 ≤ rule.expiration.days ∧
      0 ≤ rule.noncurrentVersionExpiration.noncurrentDays) :
    ∀ c ∈ expiries lib obj lc, c.due ≠ Time.zero := by
  intro c hc
  obtain ⟨rule, hrule, hc⟩ := mem_flatMap.mp hc
  obtain ⟨hcur, hnon⟩ := hdays rule hrule
  rcases noncurrent_or_current hmarker with ⟨-, hid, hlatest⟩ | ⟨-, hcurrent⟩
  · rw [expiryOffers_of_noncurrent hmarker hid hlatest] at hc
    split_ifs at hc with h
    · obtain rfl := mem_singleton.mp hc
      exact expectedExpiryTime_ne_zero hadd hsuccessor (lt_of_le_of_ne hnon h.1.symm)
    · cases hc
  · rw [expiryOffers_of_current hcurrent] at hc
    split_ifs at hc with hdate hzero
    · obtain rfl := mem_singleton.mp hc
      exact hdate
    · obtain rfl := mem_singleton.mp hc
      exact expectedExpiryTime_ne_zero hadd hmod (lt_of_le_of_ne hcur (Ne.symm hzero))
    · cases hc

/-- Of a configuration that is valid, and whose expiration elements are empty where they are not set, a data
version without a deadline at the zero time expires as predicted. -/
theorem predictExpiryTime_agrees (lib : LifecycleLib) (lc : Lifecycle) (obj : ObjectOpts)
    (hvalid : lc.validate lib = none)
    (hunset : ∀ rule ∈ lc.rules, rule.expiration.set = false →
      rule.expiration.isDaysNull = true ∨ rule.expiration.isDateNull = true)
    (hname : obj.name ≠ "") (hmarker : obj.deleteMarker = false) (hmod : obj.modTime ≠ Time.zero)
    (hdue : ∀ c ∈ expiries lib obj lc, c.due ≠ Time.zero) :
    Agrees (predictExpiryTime lib obj lc) (selectAt lib lc obj) := by
  have hone : ∀ rule ∈ lc.rules, rule.expiration.isDaysNull = true ∨ rule.expiration.isDateNull = true := by
    intro rule hrule
    cases hset : rule.expiration.set with
    | true => exact Lifecycle.validate_expiration hvalid hrule hset
    | false => exact hunset rule hrule hset
  have hselect := fun now => selectAt_expiration hname hmarker hmod hdue now
  rw [predictExpiryTime_eq hname hmarker hmod hone hdue]
  have hclass : ∀ c ∈ expiries lib obj lc, priority c.action = 3 := fun c hc =>
    priority_eq_three.mpr (isExpiration_of_mem hc)
  rcases firstBest_cases selectionKey .zero (expiries lib obj lc) with
    ⟨hzero, hall⟩ | ⟨pre, x, post, hsplit, hx, -, hpre, hpost⟩
  · -- There is no expiry at all.
    have hnil : expiries lib obj lc = [] := by
      rw [eq_nil_iff_forall_not_mem]
      intro c hc
      have hbetter : Better c .zero := better_zero (by rw [hclass c hc]; decide)
      exact absurd (selectionKey_lt.mpr hbetter) (not_lt.mpr (hall c hc))
    rw [hzero]
    refine ⟨fun h => absurd rfl h, fun _ now hexp => ?_⟩
    obtain ⟨c, hc, -⟩ := (hselect now).2 hexp
    rw [hnil] at hc
    cases hc
  · have hmem : x ∈ expiries lib obj lc := by
      rw [hsplit]
      exact mem_append_right _ (.head _)
    have hmin : ∀ c ∈ expiries lib obj lc, x.due ≤ c.due := by
      intro c hc
      have hle : selectionKey x ≤ selectionKey c := by
        rw [hsplit] at hc
        rcases mem_append.mp hc with hc | _ | ⟨_, hc⟩
        · exact (hpre c hc).le
        · exact le_rfl
        · exact hpost c hc
      by_contra hlt
      refine absurd (selectionKey_lt.mpr (.inr ⟨?_, not_le.mp hlt⟩)) (not_lt.mpr hle)
      rw [hclass c hc, hclass x hmem]
    have hat : ∀ now, x.due ≤ now → selectAt lib lc obj now = x := fun now hle =>
      ((hselect now).1 ⟨x, hmem, hle⟩).trans hx
    rw [hx]
    refine ⟨fun _ now => ⟨⟨fun hexp => ?_, fun hle => ?_⟩, fun hle => ?_⟩, fun h => absurd h (hdue x hmem)⟩
    · obtain ⟨c, hc, hle⟩ := (hselect now).2 hexp
      exact (hmin c hc).trans hle
    · rw [hat now hle]
      exact isExpiration_of_mem hmem
    · rw [hat now hle]
      exact ⟨rfl, rfl⟩

/-- A current version that one rule expires after a day and one on a date before that. -/
theorem predictExpiryTime_agrees_two :
    let byDays := { idleRule "days" with expiration := ⟨1, Time.zero, false, false, true⟩ }
    let byDate := { idleRule "date" with expiration := ⟨0, day, false, false, true⟩ }
    predictExpiryTime untaggedLib plainObject ⟨[byDays, byDate]⟩ = ⟨"date", day⟩ ∧
      Agrees (predictExpiryTime untaggedLib plainObject ⟨[byDays, byDate]⟩)
        (selectAt untaggedLib ⟨[byDays, byDate]⟩ plainObject) := by
  intro byDays byDate
  refine ⟨by decide +kernel, predictExpiryTime_agrees untaggedLib _ plainObject (by decide +kernel)
    (by decide +kernel) (by decide) rfl (by decide) (due_ne_zero ?_ rfl (by decide) (by decide) ?_)⟩
  · intro t n hn
    show t < t + n * (86400 * 1000000000)
    linarith
  · decide +kernel

/-- The two corners: a date and days in an element that counts as absent, where only the prediction looks at
both, and a version from before the year 1 for which a rule has the zero time as its deadline, which erases
the prediction of the rule before. -/
theorem predictExpiryTime_corners : let both := { idleRule "both" with
      expiration := ⟨1, 5 * day, false, false, false⟩, transition := ⟨0, 9 * day, "GLACIER", true⟩ }
    let byDate := { idleRule "date" with expiration := ⟨0, day, false, false, true⟩ }
    let byDays := { idleRule "days" with expiration := ⟨1, Time.zero, false, false, true⟩ }
    let old := { plainObject with modTime := Time.zero - 2 * day }
    ((⟨[both]⟩ : Lifecycle).validate untaggedLib = none ∧
      predictExpiryTime untaggedLib plainObject ⟨[both]⟩ = ⟨"both", 2 * day⟩ ∧
      (selectAt untaggedLib ⟨[both]⟩ plainObject (2 * day)).action = .noneAction) ∧
    ((⟨[byDate, byDays]⟩ : Lifecycle).validate untaggedLib = none ∧
      predictExpiryTime untaggedLib old ⟨[byDate, byDays]⟩ = ⟨"days", Time.zero⟩ ∧
      selectAt untaggedLib ⟨[byDate, byDays]⟩ old day = ⟨.deleteAction, "", "date", day⟩) ∧
    ¬ Agrees (predictExpiryTime untaggedLib plainObject ⟨[both]⟩) (selectAt untaggedLib ⟨[both]⟩ plainObject) ∧
    ¬ Agrees (predictExpiryTime untaggedLib old ⟨[byDate, byDays]⟩)
      (selectAt untaggedLib ⟨[byDate, byDays]⟩ old) := by
  intro both byDate byDays old
  have hboth : predictExpiryTime untaggedLib plainObject ⟨[both]⟩ = ⟨"both", 2 * day⟩ := by decide +kernel
  have hnothing : (selectAt untaggedLib ⟨[both]⟩ plainObject (2 * day)).action = .noneAction := by
    decide +kernel
  have hold : predictExpiryTime untaggedLib old ⟨[byDate, byDays]⟩ = ⟨"days", Time.zero⟩ := by decide +kernel
  have hdate : selectAt untaggedLib ⟨[byDate, byDays]⟩ old day = ⟨.deleteAction, "", "date", day⟩ := by
    decide +kernel
  refine ⟨⟨by decide +kernel, hboth, hnothing⟩, ⟨by decide +kernel, hold, hdate⟩, fun h => ?_, fun h => ?_⟩
  · have hexp := ((h.1 (by decide) (2 * day)).1).mpr le_rfl
    revert hexp
    decide
  · apply h.2 rfl day
    exact .inl rfl

end Otterio.BucketLifecycle
