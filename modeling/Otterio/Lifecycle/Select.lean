import Otterio.Lib.FirstBest
import Otterio.Lifecycle.Rule

/-!
# Selecting a lifecycle action

`SelectAt` of `pkg/bucket/lifecycle/lifecycle.go`.

* `selectAt`: the code, one block after the other, each of which may replace what is selected so far.
* `candidates`: what a version can be subject to at an instant, in the order of the document: the end of a
  restored copy, and for each rule the actions that apply (`ruleOffers`), as far as they are due. The zero
  time is no deadline.
* `Better`: the order of the classes of actions and of the deadlines. `selectAt` is a scan for the first
  best candidate (`selectAt_eq`).
-/

namespace Otterio.BucketLifecycle

open List

/-! ## Actions and deadlines -/

inductive Action where
  | noneAction
  | deleteAction
  | deleteVersionAction
  | transitionAction
  | transitionVersionAction
  | deleteRestoredAction
  | deleteRestoredVersionAction
deriving DecidableEq, Repr

structure Selection where
  action : Action
  storageClass : String
  ruleID : String
  due : Time
deriving DecidableEq, Repr

def Selection.zero : Selection := ⟨.noneAction, "", "", Time.zero⟩

def transitionComplete : String := "complete"

def day : Time := 86400 * 1000000000

/-- `time.Date(9999, 12, 31, 0, 0, 0, 0, time.UTC)`. -/
def lastDay : Time := 253402214400 * 1000000000

/-- `ExpectedExpiryTime`. The zero time is a midnight, and so is the beginning of the Unix time. -/
def expectedExpiryTime (lib : LifecycleLib) (modTime : Time) (days : Int) : Time :=
  let t := modTime - modTime % day
  if days ≥ 0 ∧ t < lastDay ∧ days ≥ (lastDay / 1000000000 - t / 1000000000) / 86400 then lastDay
  else if days ≥ 0 ∧ ¬ t < lastDay then t
  else lib.addDays t (days + 1)

/-! ## `SelectAt` -/

def priority : Action → Nat
  | .deleteAction | .deleteVersionAction => 3
  | .deleteRestoredAction | .deleteRestoredVersionAction => 2
  | .transitionAction | .transitionVersionAction => 1
  | .noneAction => 0

def consider (selected candidate : Selection) : Selection :=
  if priority candidate.action > priority selected.action ∨
      priority candidate.action = priority selected.action ∧ candidate.due < selected.due
  then candidate else selected

def considerDue (now : Time) (selected : Selection) (action : Action) (due : Time) (rule : Rule)
    (storageClass : String) : Selection :=
  if due ≠ Time.zero ∧ ¬ now < due then consider selected ⟨action, storageClass, rule.id, due⟩ else selected

section Blocks

variable (lib : LifecycleLib) (obj : ObjectOpts) (now : Time)

def considerRestored (selected : Selection) : Selection :=
  if !obj.deleteMarker && obj.transitionStatus == transitionComplete && !obj.restoreOngoing &&
      obj.restoreExpires != Time.zero && !(now < obj.restoreExpires) then
    let action := if obj.versionID ≠ "" then .deleteRestoredVersionAction else .deleteRestoredAction
    consider selected ⟨action, "", "", obj.restoreExpires⟩
  else selected

def considerMarker (rule : Rule) (selected : Selection) : Selection :=
  if obj.expiredObjectDeleteMarker && rule.expiration.deleteMarker then
    consider selected ⟨.deleteVersionAction, "", rule.id, obj.modTime⟩
  else selected

def considerNoncurrentExpiration (rule : Rule) (selected : Selection) : Selection :=
  let days := rule.noncurrentVersionExpiration.noncurrentDays
  if !rule.noncurrentVersionExpiration.isDaysNull then
    let selected :=
      if obj.versionID != "" && !obj.isLatest && obj.successorModTime != Time.zero then
        considerDue now selected .deleteVersionAction (expectedExpiryTime lib obj.successorModTime days) rule ""
      else selected
    if obj.versionID != "" && obj.expiredObjectDeleteMarker then
      considerDue now selected .deleteVersionAction (expectedExpiryTime lib obj.modTime days) rule ""
    else selected
  else selected

def considerNoncurrentTransition (rule : Rule) (selected : Selection) : Selection :=
  let transition := rule.noncurrentVersionTransition
  if !transition.isDaysNull && transition.storageClass != "" && obj.versionID != "" && !obj.isLatest &&
      obj.successorModTime != Time.zero && !obj.deleteMarker &&
      obj.transitionStatus != transitionComplete then
    considerDue now selected .transitionVersionAction
      (expectedExpiryTime lib obj.successorModTime transition.noncurrentDays) rule transition.storageClass
  else selected

def considerExpiration (rule : Rule) (selected : Selection) : Selection :=
  if !rule.expiration.isDateNull then considerDue now selected .deleteAction rule.expiration.date rule ""
  else if !rule.expiration.isDaysNull then
    considerDue now selected .deleteAction (expectedExpiryTime lib obj.modTime rule.expiration.days) rule ""
  else selected

def considerTransition (rule : Rule) (selected : Selection) : Selection :=
  let transition := rule.transition
  if obj.transitionStatus != transitionComplete && transition.storageClass != "" then
    if !transition.isDateNull then
      considerDue now selected .transitionAction transition.date rule transition.storageClass
    else if !transition.isDaysNull then
      considerDue now selected .transitionAction (expectedExpiryTime lib obj.modTime transition.days) rule
        transition.storageClass
    else selected
  else selected

def considerRule (selected : Selection) (rule : Rule) : Selection :=
  let selected := considerMarker obj rule selected
  let selected := considerNoncurrentExpiration lib obj now rule selected
  let selected := considerNoncurrentTransition lib obj now rule selected
  if !obj.deleteMarker && (obj.versionID == "" || obj.isLatest) then
    considerTransition lib obj now rule (considerExpiration lib obj now rule selected)
  else selected

end Blocks

def selectAt (lib : LifecycleLib) (lc : Lifecycle) (obj : ObjectOpts) (now : Time) : Selection :=
  if obj.name = "" then .zero
  else
    let selected := considerRestored obj now .zero
    if obj.modTime = Time.zero then selected
    else (lc.filterActionableRules lib obj).foldl (considerRule lib obj now) selected

/-! ## Candidates -/

section Candidates

variable (lib : LifecycleLib) (obj : ObjectOpts)

/-- The end of the restored copy of a version that was moved away. -/
def restoredOffer : List Selection :=
  if obj.deleteMarker = false ∧ obj.transitionStatus = transitionComplete ∧ obj.restoreOngoing = false then
    [⟨if obj.versionID ≠ "" then .deleteRestoredVersionAction else .deleteRestoredAction, "", "", obj.restoreExpires⟩]
  else []

/-- The version has a version id and a successor. -/
def Noncurrent : Prop := obj.versionID ≠ "" ∧ obj.isLatest = false ∧ obj.successorModTime ≠ Time.zero

instance : Decidable (Noncurrent obj) := inferInstanceAs (Decidable (_ ∧ _))

/-- The version is the current one, and no delete marker. -/
def CurrentData : Prop := obj.deleteMarker = false ∧ (obj.versionID = "" ∨ obj.isLatest = true)

instance : Decidable (CurrentData obj) := inferInstanceAs (Decidable (_ ∧ _))

def markerCleanup (rule : Rule) : List Selection :=
  if obj.expiredObjectDeleteMarker = true ∧ rule.expiration.deleteMarker = true then
    [⟨.deleteVersionAction, "", rule.id, obj.modTime⟩]
  else []

/-- The expiration of a noncurrent version, and of a delete marker that is the only version. -/
def noncurrentExpiration (rule : Rule) : List Selection :=
  let days := rule.noncurrentVersionExpiration.noncurrentDays
  (if days ≠ 0 ∧ Noncurrent obj then
    [⟨.deleteVersionAction, "", rule.id, expectedExpiryTime lib obj.successorModTime days⟩] else []) ++
  if days ≠ 0 ∧ obj.versionID ≠ "" ∧ obj.expiredObjectDeleteMarker = true then
    [⟨.deleteVersionAction, "", rule.id, expectedExpiryTime lib obj.modTime days⟩] else []

def noncurrentTransition (rule : Rule) : List Selection :=
  let transition := rule.noncurrentVersionTransition
  if transition.noncurrentDays ≠ 0 ∧ transition.storageClass ≠ "" ∧ Noncurrent obj ∧
      obj.deleteMarker = false ∧ obj.transitionStatus ≠ transitionComplete then
    [⟨.transitionVersionAction, transition.storageClass, rule.id,
      expectedExpiryTime lib obj.successorModTime transition.noncurrentDays⟩]
  else []

/-- The expiration of the current version, at its date or after its days. -/
def currentExpiration (rule : Rule) : List Selection :=
  if CurrentData obj then
    if rule.expiration.date ≠ Time.zero then [⟨.deleteAction, "", rule.id, rule.expiration.date⟩]
    else if rule.expiration.days ≠ 0 then
      [⟨.deleteAction, "", rule.id, expectedExpiryTime lib obj.modTime rule.expiration.days⟩]
    else []
  else []

def currentTransition (rule : Rule) : List Selection :=
  let transition := rule.transition
  if CurrentData obj ∧ obj.transitionStatus ≠ transitionComplete ∧ transition.storageClass ≠ "" then
    if transition.date ≠ Time.zero then
      [⟨.transitionAction, transition.storageClass, rule.id, transition.date⟩]
    else if transition.days ≠ 0 then
      [⟨.transitionAction, transition.storageClass, rule.id, expectedExpiryTime lib obj.modTime transition.days⟩]
    else []
  else []

/-- What a rule does to the version, if it acts on it at all. -/
def ruleOffers (rule : Rule) : List Selection :=
  markerCleanup obj rule ++ noncurrentExpiration lib obj rule ++ noncurrentTransition lib obj rule ++
    currentExpiration lib obj rule ++ currentTransition lib obj rule

/-- The deadline is set and has come. -/
def IsDue (now : Time) (s : Selection) : Prop := s.due ≠ Time.zero ∧ s.due ≤ now

instance (now : Time) (s : Selection) : Decidable (IsDue now s) := inferInstanceAs (Decidable (_ ∧ _))

/-- The candidates of some rules. A version without a modification time is subject to no rule. -/
def rulesCandidates (now : Time) (rules : List Rule) : List Selection :=
  if obj.modTime = Time.zero then []
  else ((rules.filter (Rule.actionable lib obj)).flatMap (ruleOffers lib obj)).filter (IsDue now)

def candidates (lc : Lifecycle) (now : Time) : List Selection :=
  (restoredOffer obj).filter (IsDue now) ++ rulesCandidates lib obj now lc.rules

end Candidates

/-- The action is of a higher class, or of the same class and due earlier. -/
def Better (a b : Selection) : Prop :=
  priority b.action < priority a.action ∨ priority a.action = priority b.action ∧ a.due < b.due

/-- `Better` as an order of keys. -/
def selectionKey (s : Selection) : Int ×ₗ Int := toLex (-(priority s.action : Int), s.due)

theorem selectionKey_lt {a b : Selection} : selectionKey a < selectionKey b ↔ Better a b := by
  rw [selectionKey, selectionKey, Prod.Lex.toLex_lt_toLex, Better]
  rw [neg_lt_neg_iff, neg_inj, Nat.cast_lt, Nat.cast_inj]

theorem consider_eq (s c : Selection) : consider s c = firstOf selectionKey s c := by
  unfold consider firstOf
  simp only [selectionKey_lt, Better, gt_iff_lt]

/-! ## The code scans the candidates -/

section Scan

variable {lib : LifecycleLib} {obj : ObjectOpts} {now : Time}

theorem considerDue_eq (selected : Selection) (action : Action) (due : Time) (rule : Rule) (storageClass : String) :
    considerDue now selected action due rule storageClass = firstBest selectionKey selected
        ([(⟨action, storageClass, rule.id, due⟩ : Selection)].filter (IsDue now)) := by
  unfold considerDue
  by_cases h : IsDue now ⟨action, storageClass, rule.id, due⟩
  · rw [if_pos ⟨h.1, not_lt.mpr h.2⟩, filter_cons_of_pos (by simpa using h), consider_eq]
    rfl
  · rw [if_neg fun hc => h ⟨hc.1, not_lt.mp hc.2⟩, filter_cons_of_neg (by simpa using h)]
    rfl

theorem considerRestored_eq (selected : Selection) : considerRestored obj now selected =
      firstBest selectionKey selected ((restoredOffer obj).filter (IsDue now)) := by
  unfold considerRestored restoredOffer
  by_cases h : obj.deleteMarker = false ∧ obj.transitionStatus = transitionComplete ∧ obj.restoreOngoing = false
  · rw [if_pos h]
    generalize (if obj.versionID ≠ "" then Action.deleteRestoredVersionAction
      else Action.deleteRestoredAction) = action
    by_cases hdue : IsDue now ⟨action, "", "", obj.restoreExpires⟩
    · have hcond : obj.restoreExpires ≠ Time.zero ∧ obj.restoreExpires ≤ now := hdue
      rw [filter_cons_of_pos (by simpa using hdue), if_pos (by simp [h, hcond]), consider_eq]
      rfl
    · rw [filter_cons_of_neg (by simpa using hdue), if_neg]
      · rfl
      · intro hc
        have hcond : obj.restoreExpires ≠ Time.zero ∧ obj.restoreExpires ≤ now := by simpa [h] using hc
        exact hdue hcond
  · rw [if_neg h, if_neg]
    · rfl
    · intro hc
      apply h
      simp only [Bool.and_eq_true, Bool.not_eq_true', beq_iff_eq] at hc
      exact ⟨hc.1.1.1.1, hc.1.1.1.2, hc.1.1.2⟩

theorem considerMarker_eq (hmod : obj.modTime ≠ Time.zero)
    (hnow : obj.deleteMarker = true → obj.modTime ≤ now) (rule : Rule) (selected : Selection) :
    considerMarker obj rule selected =
      firstBest selectionKey selected ((markerCleanup obj rule).filter (IsDue now)) := by
  unfold considerMarker markerCleanup
  simp only [Bool.and_eq_true]
  split_ifs with h
  · have hmarker : obj.deleteMarker = true := (Bool.and_eq_true_iff.mp h.1).1
    have hdue : IsDue now ⟨.deleteVersionAction, "", rule.id, obj.modTime⟩ := ⟨hmod, hnow hmarker⟩
    rw [filter_cons_of_pos (by simpa using hdue), consider_eq]
    rfl
  · rfl

theorem considerNoncurrentExpiration_eq (rule : Rule) (selected : Selection) :
    considerNoncurrentExpiration lib obj now rule selected =
      firstBest selectionKey selected ((noncurrentExpiration lib obj rule).filter (IsDue now)) := by
  unfold considerNoncurrentExpiration noncurrentExpiration NoncurrentVersionExpiration.isDaysNull
  simp only [Bool.and_eq_true, bne_iff_ne, Bool.not_eq_true', beq_eq_false_iff_ne, considerDue_eq,
    filter_append, firstBest_append]
  by_cases hdays : rule.noncurrentVersionExpiration.noncurrentDays = 0
  · simp [hdays, firstBest]
  · simp only [hdays, ne_eq, not_false_eq_true, true_and, if_true]
    have hnon : Noncurrent obj ↔
        (¬obj.versionID = "" ∧ obj.isLatest = false) ∧ ¬obj.successorModTime = Time.zero := by
      rw [Noncurrent, and_assoc]
    simp only [hnon]
    split_ifs <;> rfl

theorem considerNoncurrentTransition_eq (rule : Rule) (selected : Selection) :
    considerNoncurrentTransition lib obj now rule selected =
      firstBest selectionKey selected ((noncurrentTransition lib obj rule).filter (IsDue now)) := by
  unfold considerNoncurrentTransition noncurrentTransition NoncurrentVersionTransition.isDaysNull Noncurrent
  simp only [Bool.and_eq_true, bne_iff_ne, Bool.not_eq_true', beq_eq_false_iff_ne, considerDue_eq, and_assoc]
  split_ifs <;> rfl

theorem considerCurrent_eq (rule : Rule) (selected : Selection) :
    (if !obj.deleteMarker && (obj.versionID == "" || obj.isLatest) then
      considerTransition lib obj now rule (considerExpiration lib obj now rule selected)
    else selected) = firstBest selectionKey selected
        ((currentExpiration lib obj rule ++ currentTransition lib obj rule).filter (IsDue now)) := by
  have hcur : (!obj.deleteMarker && (obj.versionID == "" || obj.isLatest)) = true ↔ CurrentData obj := by
    simp [CurrentData]
  unfold currentExpiration currentTransition
  by_cases h : CurrentData obj
  · rw [if_pos (hcur.mpr h), if_pos h, filter_append, firstBest_append]
    have hexp : considerExpiration lib obj now rule selected = firstBest selectionKey selected
        ((if rule.expiration.date ≠ Time.zero then [⟨.deleteAction, "", rule.id, rule.expiration.date⟩]
          else if rule.expiration.days ≠ 0 then
            [⟨.deleteAction, "", rule.id, expectedExpiryTime lib obj.modTime rule.expiration.days⟩]
          else []).filter (IsDue now)) := by
      unfold considerExpiration Expiration.isDateNull Expiration.isDaysNull
      simp only [Bool.not_eq_true', beq_eq_false_iff_ne, considerDue_eq]
      split_ifs <;> rfl
    rw [hexp]
    unfold considerTransition Transition.isDateNull Transition.isDaysNull
    simp only [h, true_and, Bool.and_eq_true, bne_iff_ne, Bool.not_eq_true', beq_eq_false_iff_ne, considerDue_eq]
    split_ifs <;> rfl
  · rw [if_neg fun hc => h (hcur.mp hc), if_neg h, if_neg fun hc => h hc.1]
    rfl

theorem considerRule_eq (hmod : obj.modTime ≠ Time.zero)
    (hnow : obj.deleteMarker = true → obj.modTime ≤ now) (rule : Rule) (selected : Selection) :
    considerRule lib obj now selected rule =
      firstBest selectionKey selected ((ruleOffers lib obj rule).filter (IsDue now)) := by
  unfold considerRule ruleOffers
  rw [considerCurrent_eq, considerNoncurrentTransition_eq, considerNoncurrentExpiration_eq,
    considerMarker_eq hmod hnow]
  simp only [filter_append, firstBest_append]

theorem foldl_considerRule_eq (hmod : obj.modTime ≠ Time.zero)
    (hnow : obj.deleteMarker = true → obj.modTime ≤ now) (rules : List Rule) (selected : Selection) :
    rules.foldl (considerRule lib obj now) selected =
      firstBest selectionKey selected ((rules.flatMap (ruleOffers lib obj)).filter (IsDue now)) := by
  induction rules generalizing selected with
  | nil => rfl
  | cons rule rules ih =>
    rw [foldl_cons, ih, considerRule_eq hmod hnow, flatMap_cons, filter_append, firstBest_append]

/-- `SelectAt` is the first best candidate. The clean-up of a delete marker is the only action that the code
does not compare with the clock. -/
theorem selectAt_eq (hname : obj.name ≠ "") (hnow : obj.deleteMarker = true → obj.modTime ≤ now) (lc : Lifecycle) :
    selectAt lib lc obj now = firstBest selectionKey .zero (candidates lib obj lc now) := by
  unfold selectAt candidates rulesCandidates
  rw [if_neg hname, considerRestored_eq, firstBest_append]
  split_ifs with hmod
  · rfl
  · rw [foldl_considerRule_eq hmod hnow, Lifecycle.filterActionableRules, if_neg hname]

end Scan

/-! ## Optimality -/

section Optimal

variable {lib : LifecycleLib} {obj : ObjectOpts} {now : Time}

theorem priority_pos_of_mem {lc : Lifecycle} {c : Selection} (h : c ∈ candidates lib obj lc now) :
    0 < priority c.action := by
  have hrestored : ∀ c ∈ restoredOffer obj, 0 < priority c.action := by
    intro c hc
    unfold restoredOffer at hc
    split_ifs at hc <;> simp_all [priority]
  have hrule : ∀ rule, ∀ c ∈ ruleOffers lib obj rule, 0 < priority c.action := by
    intro rule c hc
    simp only [ruleOffers, mem_append] at hc
    rcases hc with (((hc | hc) | hc) | hc) | hc
    · unfold markerCleanup at hc
      split_ifs at hc <;> simp_all [priority]
    · unfold noncurrentExpiration at hc
      rw [mem_append] at hc
      rcases hc with hc | hc <;> split_ifs at hc <;> simp_all [priority]
    · unfold noncurrentTransition at hc
      dsimp only at hc
      split_ifs at hc <;> simp_all [priority]
    · unfold currentExpiration at hc
      split_ifs at hc <;> simp_all [priority]
    · unfold currentTransition at hc
      dsimp only at hc
      split_ifs at hc <;> simp_all [priority]
  unfold candidates rulesCandidates at h
  rcases mem_append.mp h with h | h
  · exact hrestored c (mem_filter.mp h).1
  · split_ifs at h
    · cases h
    · obtain ⟨rule, -, hc⟩ := mem_flatMap.mp (mem_filter.mp h).1
      exact hrule rule c hc

theorem better_zero {c : Selection} (h : 0 < priority c.action) : Better c .zero := .inl h

theorem rulesCandidates_append (rules rules' : List Rule) : rulesCandidates lib obj now (rules ++ rules') =
      rulesCandidates lib obj now rules ++ rulesCandidates lib obj now rules' := by
  unfold rulesCandidates
  split_ifs
  · rfl
  · rw [filter_append, flatMap_append, filter_append]

/-- `SelectAt` returns the first best candidate, or nothing if there is none. A rule that is added anywhere
can only replace the selection by one of its own candidates, which is better, or as good and earlier in the
document. -/
theorem selectAt_optimal (lib : LifecycleLib) (lc : Lifecycle) (obj : ObjectOpts) (now : Time)
    (hname : obj.name ≠ "") (hnow : obj.modTime ≤ now) :
    ((selectAt lib lc obj now).action = .noneAction ↔ candidates lib obj lc now = []) ∧
    (candidates lib obj lc now ≠ [] → ∃ pre post, candidates lib obj lc now = pre ++ selectAt lib lc obj now :: post ∧
        (∀ c ∈ pre, Better (selectAt lib lc obj now) c) ∧
        ∀ c ∈ post, ¬ Better c (selectAt lib lc obj now)) ∧
    ∀ rules rule rules', lc.rules = rules ++ rules' →
      let selected := selectAt lib ⟨rules ++ rule :: rules'⟩ obj now
      selected = selectAt lib lc obj now ∨ selected ∈ rulesCandidates lib obj now [rule] ∧
          (Better selected (selectAt lib lc obj now) ∨ ¬ Better (selectAt lib lc obj now) selected ∧
              selectAt lib lc obj now ∈ rulesCandidates lib obj now rules') := by
  have heq : selectAt lib lc obj now = firstBest selectionKey .zero (candidates lib obj lc now) :=
    selectAt_eq hname (fun _ => hnow) lc
  have hzero : candidates lib obj lc now = [] → selectAt lib lc obj now = .zero := fun h => by
    rw [heq, h]
    rfl
  have hfirst : candidates lib obj lc now ≠ [] → ∃ pre post,
      candidates lib obj lc now = pre ++ selectAt lib lc obj now :: post ∧
        (∀ c ∈ pre, Better (selectAt lib lc obj now) c) ∧
        ∀ c ∈ post, ¬ Better c (selectAt lib lc obj now) := by
    intro hne
    rw [heq]
    rcases firstBest_cases selectionKey .zero (candidates lib obj lc now) with
      ⟨-, hall⟩ | ⟨pre, x, post, hsplit, hx, -, hpre, hpost⟩
    · -- Everything is better than no action.
      obtain ⟨c, hc⟩ := exists_mem_of_ne_nil _ hne
      exact absurd (selectionKey_lt.mpr (better_zero (priority_pos_of_mem hc))) (not_lt.mpr (hall c hc))
    · rw [hx]
      exact ⟨pre, post, hsplit, fun c hc => selectionKey_lt.mp (hpre c hc),
        fun c hc hb => absurd (selectionKey_lt.mpr hb) (not_lt.mpr (hpost c hc))⟩
  refine ⟨⟨fun hnone => ?_, fun hempty => by rw [hzero hempty]; rfl⟩, hfirst, ?_⟩
  · by_contra hne
    obtain ⟨pre, post, hsplit, -⟩ := hfirst hne
    have hmem : selectAt lib lc obj now ∈ candidates lib obj lc now := by
      rw [hsplit]
      exact mem_append_right _ (.head _)
    have hpos := priority_pos_of_mem hmem
    rw [hnone] at hpos
    cases hpos
  · intro rules rule rules' hrules
    rw [heq, selectAt_eq hname (fun _ => hnow)]
    have hold : candidates lib obj lc now =
        ((restoredOffer obj).filter (IsDue now) ++ rulesCandidates lib obj now rules) ++
          rulesCandidates lib obj now rules' := by
      rw [candidates, hrules, rulesCandidates_append, append_assoc]
    have hnew : candidates lib obj ⟨rules ++ rule :: rules'⟩ now =
        ((restoredOffer obj).filter (IsDue now) ++ rulesCandidates lib obj now rules) ++
          rulesCandidates lib obj now [rule] ++ rulesCandidates lib obj now rules' := by
      have hsplit : rules ++ rule :: rules' = rules ++ ([rule] ++ rules') := rfl
      rw [candidates]
      rw [hsplit, rulesCandidates_append, rulesCandidates_append]
      simp only [append_assoc]
    rw [hold, hnew]
    rcases firstBest_insert selectionKey .zero
      ((restoredOffer obj).filter (IsDue now) ++ rulesCandidates lib obj now rules)
      (rulesCandidates lib obj now [rule]) (rulesCandidates lib obj now rules') with
      hsame | ⟨hmem, hlt | ⟨hkey, hrest⟩⟩
    · exact .inl hsame
    · exact .inr ⟨hmem, .inl (selectionKey_lt.mp hlt)⟩
    · exact .inr ⟨hmem, .inr ⟨fun hb => absurd (selectionKey_lt.mpr hb) (not_lt.mpr hkey.le), hrest⟩⟩

/-- A rule that moves the object away and one that expires it, both due. -/
theorem selectAt_optimal_two : let move := { idleRule "move" with transition := ⟨0, 5, "GLACIER", true⟩ }
    let expire := { idleRule "expire" with expiration := ⟨0, 7, false, false, true⟩ }
    candidates untaggedLib plainObject ⟨[move, expire]⟩ 10 =
        [⟨.transitionAction, "GLACIER", "move", 5⟩, ⟨.deleteAction, "", "expire", 7⟩] ∧
      (selectAt untaggedLib ⟨[move, expire]⟩ plainObject 10).action ≠ .noneAction := by
  intro move expire
  have hcandidates : candidates untaggedLib plainObject ⟨[move, expire]⟩ 10 =
      [⟨.transitionAction, "GLACIER", "move", 5⟩, ⟨.deleteAction, "", "expire", 7⟩] := by decide +kernel
  refine ⟨hcandidates, fun hnone => ?_⟩
  have hempty := (selectAt_optimal untaggedLib ⟨[move, expire]⟩ plainObject 10 (by decide)
    (by decide)).1.mp hnone
  cases hempty

/-- What is due stays due. -/
theorem candidates_later (lc : Lifecycle) {later : Time} (h : now ≤ later) :
    (candidates lib obj lc now).Sublist (candidates lib obj lc later) := by
  have hdue : ∀ l : List Selection, (l.filter (IsDue now)).Sublist (l.filter (IsDue later)) := fun l =>
    monotone_filter_right l fun s hs =>
      decide_eq_true ⟨(of_decide_eq_true hs).1, le_trans (of_decide_eq_true hs).2 h⟩
  unfold candidates rulesCandidates
  split
  · exact (hdue _).append_right []
  · exact (hdue _).append (hdue _)

/-- **What is due is never taken back.** The action that is selected for a version later is not a worse one,
and its deadline not a later one. -/
theorem selectAt_later (lib : LifecycleLib) (lc : Lifecycle) (obj : ObjectOpts) {now later : Time}
    (hname : obj.name ≠ "") (hmod : obj.modTime ≤ now) (h : now ≤ later) :
    ¬ Better (selectAt lib lc obj now) (selectAt lib lc obj later) := by
  rw [selectAt_eq hname fun _ => hmod, selectAt_eq hname fun _ => le_trans hmod h, ← selectionKey_lt, not_lt]
  exact firstBest_anti selectionKey (candidates_later lc h).subset

theorem selectAt_later_expired : let expire := { idleRule "expire" with expiration := ⟨0, 7, false, false, true⟩ }
    ¬ Better (selectAt untaggedLib ⟨[expire]⟩ plainObject 10) (selectAt untaggedLib ⟨[expire]⟩ plainObject 20) :=
  selectAt_later untaggedLib _ plainObject (by decide) (by decide) (by decide)

end Optimal

end Otterio.BucketLifecycle
