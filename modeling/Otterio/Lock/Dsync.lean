import Otterio.Lib.Run
import Otterio.Lock.Locker

/-!
# The distributed lock protocol

A `DRWMutex` asks all `n` lockers for a lock and holds it once a quorum of them granted it
(`pkg/dsync/drwmutex.go`). Calls and releases travel through the network, so that a locker may handle
them long after they were sent, and the caller may not learn what became of them.

* `Acquisition`: one call of `lockBlocking`, from its first attempt to the end of `Unlock`. A failed
  attempt is retried with the same uid.
* `Event`, `Enabled`, `next`: the steps of the acquisitions, of the lockers and of the network.
  `dsync n` is the system they make.
-/

open Function

namespace Otterio

def lockQuorum (n : Nat) (isRead : Bool) : Nat :=
  let tolerance := n / 2
  let quorum := n - tolerance
  if !isRead && quorum == tolerance then quorum + 1 else quorum

/-- The tolerance that `lockBlocking` computes from the quorum. -/
def lockTolerance (n : Nat) (isRead : Bool) : Nat := n - lockQuorum n isRead

/-- A writer's quorum meets every other quorum. -/
theorem lockQuorum_add_lt (n : Nat) (isRead : Bool) : n < lockQuorum n false + lockQuorum n isRead := by
  unfold lockQuorum
  grind

/-- `checkFailedUnlocks` for the locks that are still marked. -/
def checkFailedUnlocks (n : Nat) (unlocksFailed tolerance : Nat) : Bool :=
  if n - tolerance == tolerance then unlocksFailed ≥ tolerance else unlocksFailed > tolerance

/-! ## State -/

inductive Phase where
  | idle
  /-- Collecting the answers of an attempt. -/
  | trying
  /-- The attempt failed; `releaseAll` runs. -/
  | abandoning
  /-- Between two attempts. -/
  | resting
  /-- `GetLock` or `GetRLock` returned true. -/
  | held
  /-- `Unlock` or `RUnlock` was called. -/
  | unlocking
  | done
deriving DecidableEq

/-- One call of `lockBlocking`. `locks`, `received` and `failed` are the variables of `lock`. -/
structure Acquisition (n : Nat) where
  args : LockArgs
  isRead : Bool
  phase : Phase
  attempt : Nat
  locks : Finset (Fin n)
  received : Nat
  failed : Nat

inductive Call where
  | idle
  /-- Under way to the locker. -/
  | requested
  /-- Back at the caller, in the channel. -/
  | answered (granted : Bool)
  /-- Received by the loop of `lock`, or by the goroutine that drains the channel. -/
  | taken
deriving DecidableEq

structure LockState (n : Nat) where
  tables : Fin n → LockMap
  acqs : Nat → Acquisition n
  /-- By acquisition, attempt and locker. -/
  calls : Nat × Nat × Fin n → Call
  /-- How many releases of an acquisition are under way to a locker. -/
  releases : Nat × Fin n → Nat

namespace Acquisition

variable {n : Nat} (q : Acquisition n)

def entry : LockRequesterInfo := q.args.entry (!q.isRead)

/-- The resources that the acquisition locks. -/
def locked : List String := q.args.locked q.isRead

/-- The loop of `lock` goes on. -/
def Collecting : Prop := q.received < n ∧ q.failed ≤ lockTolerance n q.isRead

instance : Decidable q.Collecting := inferInstanceAs (Decidable (_ ∧ _))

def QuorumLocked : Prop := lockQuorum n q.isRead ≤ q.locks.card ∧ q.failed ≤ lockTolerance n q.isRead

instance : Decidable q.QuorumLocked := inferInstanceAs (Decidable (_ ∧ _))

end Acquisition

def LockState.initial (n : Nat) : LockState n where
  tables _ _ := []
  acqs _ := ⟨⟨"", "", [""], by simp⟩, false, .idle, 0, ∅, 0, 0⟩
  calls _ := .idle
  releases _ := 0

/-! ## Events -/

inductive Event (n : Nat) where
  /-- `lockBlocking` is called and makes its first attempt. -/
  | start (a : Nat) (args : LockArgs) (isRead : Bool)
  /-- The locker handles a call; unless `lost`, the caller learns the answer. -/
  | serve (a k : Nat) (i : Fin n) (lost : Bool)
  /-- A call fails before it reaches the locker, or the locker is `nil`. -/
  | fail (a k : Nat) (i : Fin n)
  /-- The loop of `lock` receives an answer. -/
  | collect (a : Nat) (i : Fin n)
  /-- The loop of `lock` counts a call as timed out. -/
  | timeout (a : Nat)
  /-- The loop of `lock` ends. -/
  | decide (a : Nat)
  /-- `releaseAll` of a failed attempt releases one lock; an offline locker gets no message. -/
  | abandon (a : Nat) (i : Fin n) (sent : Bool)
  /-- `lock` returns false. -/
  | rest (a : Nat)
  /-- The next attempt. -/
  | retry (a : Nat)
  /-- The timeout of `lockBlocking`. -/
  | giveUp (a : Nat)
  /-- The goroutine of an attempt releases a lock that was granted too late. -/
  | lateRelease (a k : Nat) (i : Fin n) (sent : Bool)
  /-- A locker handles a release; if `acked`, the caller learns that it succeeded. -/
  | deliver (a : Nat) (i : Fin n) (acked : Bool)
  /-- A release is lost. -/
  | lose (a : Nat) (i : Fin n)
  /-- `Unlock` or `RUnlock` is called. -/
  | unlock (a : Nat)
  /-- `releaseAll` of `Unlock` sends a release, perhaps not for the first time. -/
  | resend (a : Nat) (i : Fin n)
  /-- `Unlock` or `RUnlock` returns. -/
  | unlocked (a : Nat)

namespace LockState

variable {n : Nat} (s : LockState n)

/-- The loop of the attempt has ended, and `lock` has returned. -/
def AttemptOver (a k : Nat) : Prop :=
  k < (s.acqs a).attempt ∨ (k = (s.acqs a).attempt ∧ (s.acqs a).phase ≠ .trying ∧ (s.acqs a).phase ≠ .abandoning)

instance (a k : Nat) : Decidable (s.AttemptOver a k) := inferInstanceAs (Decidable (_ ∨ _))

def Enabled : Event n → Prop
  | .start a _ _ => (s.acqs a).phase = .idle
  | .serve a k i _ => s.calls (a, k, i) = .requested
  | .fail a k i => s.calls (a, k, i) = .requested
  | .collect a i => (s.acqs a).phase = .trying ∧ (s.acqs a).Collecting ∧
      ∃ g, s.calls (a, (s.acqs a).attempt, i) = .answered g
  | .timeout a => (s.acqs a).phase = .trying ∧ (s.acqs a).Collecting
  | .decide a => (s.acqs a).phase = .trying ∧ ¬ (s.acqs a).Collecting
  | .abandon a i _ => (s.acqs a).phase = .abandoning ∧ i ∈ (s.acqs a).locks
  | .rest a => (s.acqs a).phase = .abandoning ∧ (s.acqs a).locks = ∅
  | .retry a => (s.acqs a).phase = .resting
  | .giveUp a => (s.acqs a).phase = .resting
  | .lateRelease a k i _ => s.AttemptOver a k ∧ (∀ j, s.calls (a, k, j) ≠ .requested) ∧
      s.calls (a, k, i) = .answered true
  | .deliver a i acked => 0 < s.releases (a, i) ∧
      (acked = true → ((s.tables i).release (s.acqs a).isRead (s.acqs a).args).1 = none)
  | .lose a i => 0 < s.releases (a, i)
  | .unlock a => (s.acqs a).phase = .held
  | .resend a i => (s.acqs a).phase = .unlocking ∧ i ∈ (s.acqs a).locks
  | .unlocked a => (s.acqs a).phase = .unlocking ∧ checkFailedUnlocks n (s.acqs a).locks.card (n / 2) = false

instance : DecidablePred s.Enabled
  | .start _ _ _ | .serve _ _ _ _ | .fail _ _ _ | .retry _ | .giveUp _ | .unlock _ =>
    inferInstanceAs (Decidable (_ = _))
  | .collect _ _ | .timeout _ | .decide _ | .abandon _ _ _ | .rest _ | .lateRelease _ _ _ _
  | .deliver _ _ _ | .resend _ _ | .unlocked _ => inferInstanceAs (Decidable (_ ∧ _))
  | .lose _ _ => inferInstanceAs (Decidable (_ < _))

def setAcq (a : Nat) (q : Acquisition n) : LockState n := { s with acqs := update s.acqs a q }

def setCall (a k : Nat) (i : Fin n) (c : Call) : LockState n :=
  { s with calls := update s.calls (a, k, i) c }

/-- One more release under way, if it is sent. -/
def sendRelease (a : Nat) (i : Fin n) (sent : Bool) : LockState n :=
  if sent then { s with releases := update s.releases (a, i) (s.releases (a, i) + 1) } else s

def dropRelease (a : Nat) (i : Fin n) : LockState n :=
  { s with releases := update s.releases (a, i) (s.releases (a, i) - 1) }

def broadcast (a k : Nat) : LockState n :=
  { s with calls := fun c => if c.1 = a ∧ c.2.1 = k then .requested else s.calls c }

def next : Event n → LockState n
  | .start a args isRead =>
    (s.setAcq a ⟨args, isRead, .trying, 0, ∅, 0, 0⟩).broadcast a 0
  | .serve a k i lost =>
    let q := s.acqs a
    let r := (s.tables i).grant q.isRead q.args
    { s.setCall a k i (.answered (r.1 && !lost)) with tables := update s.tables i r.2 }
  | .fail a k i => s.setCall a k i (.answered false)
  | .collect a i =>
    let q := s.acqs a
    let q' := { q with received := q.received + 1 }
    let q' := if s.calls (a, q.attempt, i) = .answered true then { q' with locks := insert i q.locks }
      else { q' with failed := q.failed + 1 }
    (s.setCall a q.attempt i .taken).setAcq a q'
  | .timeout a =>
    let q := s.acqs a
    s.setAcq a { q with received := q.received + 1, failed := q.failed + 1 }
  | .decide a =>
    let q := s.acqs a
    s.setAcq a { q with phase := if q.QuorumLocked then .held else .abandoning }
  | .abandon a i sent =>
    let q := s.acqs a
    (s.sendRelease a i sent).setAcq a { q with locks := q.locks.erase i }
  | .rest a => s.setAcq a { s.acqs a with phase := .resting }
  | .retry a =>
    let q := s.acqs a
    let q' := { q with phase := .trying, attempt := q.attempt + 1, locks := ∅, received := 0, failed := 0 }
    (s.setAcq a q').broadcast a (q.attempt + 1)
  | .giveUp a => s.setAcq a { s.acqs a with phase := .done }
  | .lateRelease a k i sent => (s.setCall a k i .taken).sendRelease a i sent
  | .deliver a i acked =>
    let q := s.acqs a
    let s' := { s.dropRelease a i with
      tables := update s.tables i ((s.tables i).release q.isRead q.args).2 }
    if acked = true ∧ q.phase = .unlocking then s'.setAcq a { q with locks := q.locks.erase i } else s'
  | .lose a i => s.dropRelease a i
  | .unlock a => s.setAcq a { s.acqs a with phase := .unlocking }
  | .resend a i => s.sendRelease a i true
  | .unlocked a => s.setAcq a { s.acqs a with phase := .done }

end LockState

/-! ## The system -/

/-- The acquisitions that have started all have other uids than this one. -/
def FreshUid {n : Nat} (s : LockState n) : Event n → Prop
  | .start _ args _ => ∀ b, (s.acqs b).phase ≠ .idle → (s.acqs b).args.uid ≠ args.uid
  | _ => True

/-- The protocol, with the events that are enabled and allowed. -/
def dsyncWhere (n : Nat) (allowed : LockState n → Event n → Prop) : System (LockState n) where
  init s := s = LockState.initial n
  step s t := ∃ e, s.Enabled e ∧ allowed s e ∧ t = s.next e

def dsync (n : Nat) : System (LockState n) := dsyncWhere n fun _ _ => True

/-- The protocol when no uid is used for two acquisitions. -/
def dsyncFreshUids (n : Nat) : System (LockState n) := dsyncWhere n FreshUid

/-- The events can happen one after the other. -/
def LockState.CanRun {n : Nat} (allowed : LockState n → Event n → Prop) : LockState n → List (Event n) → Prop
  | _, [] => True
  | s, e :: es => s.Enabled e ∧ allowed s e ∧ CanRun allowed (s.next e) es

instance LockState.decidableCanRun {n : Nat} {allowed : LockState n → Event n → Prop}
    [∀ s e, Decidable (allowed s e)] : ∀ s es, Decidable (LockState.CanRun allowed s es)
  | _, [] => inferInstanceAs (Decidable True)
  | s, e :: es =>
    have : Decidable (LockState.CanRun allowed (s.next e) es) := decidableCanRun (s.next e) es
    inferInstanceAs (Decidable (_ ∧ _ ∧ LockState.CanRun allowed (s.next e) es))

def LockState.run {n : Nat} : LockState n → List (Event n) → LockState n := List.foldl LockState.next

theorem reachable_run {n : Nat} {allowed : LockState n → Event n → Prop} {s : LockState n}
    (h : (dsyncWhere n allowed).Reachable s) (es : List (Event n)) (hes : s.CanRun allowed es) :
    (dsyncWhere n allowed).Reachable (s.run es) := by
  induction es generalizing s with
  | nil => exact h
  | cons e es ih => exact ih (.step h ⟨e, hes.1, hes.2.1, rfl⟩) hes.2.2

/-- The acquisition holds the resource: it returned true, and its unlock was not called. -/
def Holds {n : Nat} (s : LockState n) (a : Nat) (resource : String) : Prop :=
  (s.acqs a).phase = .held ∧ resource ∈ (s.acqs a).locked

/-- A writer shares its resource with no holder of another uid. -/
def MutualExclusion {n : Nat} (s : LockState n) : Prop :=
  ∀ a b resource, (s.acqs a).isRead = false → Holds s a resource → Holds s b resource →
    (s.acqs a).args.uid = (s.acqs b).args.uid

end Otterio
