import Otterio.Lock.Dsync
import Otterio.Lock.Refresh

/-!
# Refreshing a distributed lock

`refresh` of `pkg/dsync/drwmutex.go` asks all lockers to refresh the entry of a lock and gives the lock up
if too many of them do not have it any more.

* `refreshQuorum`: the loop over the results in the order in which they arrive, and the verdict.
* `refreshQuorum_iff`: without unreachable lockers the loop may stop early, and the verdict is that of all
  results.
-/

namespace Otterio

open List

structure RefreshResult where
  offline : Bool
  succeeded : Bool
deriving DecidableEq, Repr

/-- The loop of `refresh`: how many succeeded and how many failed. -/
def refreshLoop (quorum : Nat) : List RefreshResult → Nat → Nat → Nat × Nat
  | [], refreshSucceeded, refreshFailed => (refreshSucceeded, refreshFailed)
  | result :: results, refreshSucceeded, refreshFailed =>
    if result.offline then refreshLoop quorum results refreshSucceeded refreshFailed
    else
      let refreshSucceeded := if result.succeeded then refreshSucceeded + 1 else refreshSucceeded
      let refreshFailed := if result.succeeded then refreshFailed else refreshFailed + 1
      if refreshFailed > quorum then (refreshSucceeded, refreshFailed)
      else refreshLoop quorum results refreshSucceeded refreshFailed

/-- What `refresh` reports if it is not cancelled. -/
def refreshQuorum (quorum : Nat) (results : List RefreshResult) : Bool :=
  let (refreshSucceeded, refreshFailed) := refreshLoop quorum results 0 0
  refreshSucceeded ≥ quorum || refreshFailed < quorum

theorem countP_succeeded_add (results : List RefreshResult) :
    results.countP (·.succeeded) + results.countP (!·.succeeded) = results.length := by
  rw [length_eq_countP_add_countP (·.succeeded)]
  simp

variable {results : List RefreshResult}

/-- The loop, from any counts on: it counts everything, or stops with too many failures. -/
theorem refreshLoop_cases (quorum : Nat)
    (h : ∀ result ∈ results, result.offline = false) (succeeded failed : Nat) :
    refreshLoop quorum results succeeded failed =
        (succeeded + results.countP (·.succeeded), failed + results.countP (!·.succeeded)) ∨
      quorum < (refreshLoop quorum results succeeded failed).2 ∧
        (refreshLoop quorum results succeeded failed).1 ≤ succeeded + results.countP (·.succeeded) ∧
        (refreshLoop quorum results succeeded failed).2 ≤ failed + results.countP (!·.succeeded) := by
  induction results generalizing succeeded failed with
  | nil => exact .inl rfl
  | cons result results ih =>
    have ih := ih (fun r hr => h r (.tail _ hr))
    unfold refreshLoop
    rw [h result (.head _), if_neg Bool.false_ne_true]
    cases hs : result.succeeded with
    | true =>
      simp only [if_true, countP_cons, hs, Bool.not_true, Bool.false_eq_true, if_false]
      split_ifs with hmany
      · exact .inr ⟨hmany, by omega, by omega⟩
      · rcases ih (succeeded + 1) failed with heq | ⟨h1, h2, h3⟩
        · left
          rw [heq, Prod.mk.injEq]
          omega
        · exact .inr ⟨h1, by omega, h3⟩
    | false =>
      simp only [Bool.false_eq_true, if_false, countP_cons, hs, Bool.not_false, if_true]
      split_ifs with hmany
      · exact .inr ⟨hmany, by omega, by omega⟩
      · rcases ih succeeded (failed + 1) with heq | ⟨h1, h2, h3⟩
        · left
          rw [heq, Prod.mk.injEq]
          omega
        · exact .inr ⟨h1, h2, by omega⟩

theorem refreshQuorum_iff {quorum : Nat}
    (h : ∀ result ∈ results, result.offline = false) (hq : results.length ≤ 2 * quorum) :
    refreshQuorum quorum results = true ↔
      quorum ≤ results.countP (·.succeeded) ∨ results.countP (!·.succeeded) < quorum := by
  have hsum := countP_succeeded_add results
  unfold refreshQuorum
  simp only [ge_iff_le, Bool.or_eq_true, decide_eq_true_eq]
  rcases refreshLoop_cases quorum h 0 0 with heq | ⟨h1, h2, h3⟩
  · rw [heq, Nat.zero_add, Nat.zero_add]
  · omega

/-! ## Lockers -/

section Lockers

variable {n : Nat}

def HasEntry (args : LockArgs) (l : TimedMap) : Prop := ∃ e ∈ l args.first, e.isOf args = true

instance (args : LockArgs) (l : TimedMap) : Decidable (HasEntry args l) :=
  inferInstanceAs (Decidable (∃ e ∈ l args.first, e.isOf args = true))

def lostBy (tables : Fin n → TimedMap) (args : LockArgs) : Finset (Fin n) :=
  Finset.univ.filter fun i => ¬ HasEntry args (tables i)

/-- The answer of a locker to `Refresh`. -/
def answer (tables : Fin n → TimedMap) (now : Time) (args : LockArgs) (i : Fin n) : RefreshResult :=
  ⟨false, ((tables i).refresh now args).1⟩

/-- No conflicting lock can reach its quorum from the lockers that lost the entry: a writer conflicts with
every holder, a reader with a writer. -/
def Excluded (tables : Fin n → TimedMap) (args : LockArgs) (isRead : Bool) : Prop :=
  (lostBy tables args).card < lockQuorum n false ∧ (isRead = false → (lostBy tables args).card < lockQuorum n true)

variable {tables : Fin n → TimedMap} {now : Time} {args : LockArgs}

theorem answer_succeeded {i : Fin n} :
    (answer tables now args i).succeeded = true ↔ HasEntry args (tables i) := by
  show ((tables i).refresh now args).1 = true ↔ _
  unfold TimedMap.refresh
  split_ifs with hany
  · exact iff_of_true rfl (any_eq_true.mp hany)
  · simpa using fun h : HasEntry args (tables i) => hany (any_eq_true.mpr h)

theorem countP_failed {order : List (Fin n)}
    (horder : order.Perm (List.finRange n)) :
    (order.map (answer tables now args)).countP (!·.succeeded) = (lostBy tables args).card := by
  rw [countP_map, horder.countP_eq, countP_eq_length_filter, lostBy, Finset.card_def, Finset.filter_val]
  congr 2
  funext i
  have h := @answer_succeeded n tables now args i
  by_cases hi : HasEntry args (tables i)
  · simp [h.mpr hi, hi]
  · simp [hi, Bool.eq_false_iff.mpr fun hs => hi (h.mp hs)]

theorem two_mul_lockQuorum (n : Nat) (isRead : Bool) : n ≤ 2 * lockQuorum n isRead := by
  unfold lockQuorum
  grind

/-- For the answers of all lockers in any order: success means that the lock is safe, except for a write
lock among an even number of lockers of which exactly one half lost the entry. -/
theorem refresh_sound_iff (n : Nat) (tables : Fin n → TimedMap) (now : Time) (args : LockArgs)
    (isRead : Bool) (order : List (Fin n)) (horder : order.Perm (List.finRange n)) :
    (refreshQuorum (lockQuorum n isRead) (order.map (answer tables now args)) = true → Excluded tables args isRead) ↔
      (isRead = false → Even n → (lostBy tables args).card ≠ n / 2) := by
  have honline : ∀ result ∈ order.map (answer tables now args), result.offline = false := by
    intro result hr
    obtain ⟨i, -, rfl⟩ := mem_map.mp hr
    rfl
  have hlen : (order.map (answer tables now args)).length = n := by
    rw [length_map, horder.length_eq, length_finRange]
  have hsum := (countP_succeeded_add (order.map (answer tables now args))).trans hlen
  rw [refreshQuorum_iff honline (hlen.le.trans (two_mul_lockQuorum n isRead)), countP_failed horder]
  rw [countP_failed horder] at hsum
  unfold Excluded lockQuorum
  cases isRead with
  | true => grind
  | false => grind

/-- Three lockers, one of which lost the entry. -/
theorem refresh_sound_three : let args : LockArgs := ⟨"uid", "node", ["a"], by decide⟩
    let tables : Fin 3 → TimedMap := fun i _ => if i.val < 2 then [⟨args.entry true, 0⟩] else []
    Excluded tables args false := by
  intro args tables
  refine (refresh_sound_iff 3 tables 0 args false (List.finRange 3) (.refl _)).mpr ?_ (by decide)
  exact fun _ heven => absurd heven (by decide)

/-- Four lockers, two of which lost the entry. -/
theorem refresh_sound_half : let args : LockArgs := ⟨"uid", "node", ["a"], by decide⟩
    let tables : Fin 4 → TimedMap := fun i _ => if i.val < 2 then [⟨args.entry true, 0⟩] else []
    refreshQuorum (lockQuorum 4 false) ((List.finRange 4).map (answer tables 0 args)) = true ∧
      (lostBy tables args).card = lockQuorum 4 true := by
  decide

end Lockers

end Otterio
