import Otterio.Lock.Dsync

/-!
# Mutual exclusion of the lock protocol

Every grant leaves an entry in a lock table, and the acquisition has one token for it: its mark in
`locks`, an answer that waits in the channel, or a release under way. A token that is lost leaves its
entry behind, so up to `Unlock` the tokens at a locker are at most the entries there
(`LockInv.tokens`). `Unlock` sends releases again and breaks this, but by then the lock is not held
any more; what its surplus releases can remove are the entries of its own uid.

* `LockInv.next`: one step keeps the invariant, provided that a new acquisition has a new uid.

So every state that the protocol reaches with new uids excludes. A uid that is used again lets a late
release of its first use remove the entry of its second one.
-/

open Function

namespace Otterio

open Finset

/-! ## Tokens -/

/-- What a call counts for: a grant that the caller has not taken yet. -/
def Call.weight : Call → Nat
  | .answered true => 1
  | _ => 0

/-- What the mark of a locker in `locks` counts for. -/
def Acquisition.mark {n : Nat} (q : Acquisition n) (i : Fin n) : Nat := if i ∈ q.locks then 1 else 0

namespace LockState

variable {n : Nat} (s : LockState n) (a k : Nat) (i : Fin n) (q : Acquisition n) (c : Call) (sent : Bool)

@[simp] theorem setAcq_acqs : (s.setAcq a q).acqs = update s.acqs a q := rfl
@[simp] theorem setAcq_calls : (s.setAcq a q).calls = s.calls := rfl
@[simp] theorem setAcq_releases : (s.setAcq a q).releases = s.releases := rfl
@[simp] theorem setCall_acqs : (s.setCall a k i c).acqs = s.acqs := rfl
@[simp] theorem sendRelease_acqs : (s.sendRelease a i sent).acqs = s.acqs := by
  cases sent <;> rfl
@[simp] theorem sendRelease_calls : (s.sendRelease a i sent).calls = s.calls := by
  cases sent <;> rfl
@[simp] theorem dropRelease_acqs : (s.dropRelease a i).acqs = s.acqs := rfl
@[simp] theorem dropRelease_calls : (s.dropRelease a i).calls = s.calls := rfl
@[simp] theorem broadcast_acqs : (s.broadcast a k).acqs = s.acqs := rfl
@[simp] theorem broadcast_releases : (s.broadcast a k).releases = s.releases := rfl

/-- The grants of a locker that wait in the channels of an acquisition. -/
def pending : Nat := ∑ k ∈ range ((s.acqs a).attempt + 1), (s.calls (a, k, i)).weight

def tokens : Nat := s.releases (a, i) + s.pending a i + (s.acqs a).mark i

variable {s} {a k : Nat} {i : Fin n} {q : Acquisition n}

theorem tokens_setAcq (hq : q.attempt = (s.acqs a).attempt) (j : Fin n) :
    (s.setAcq a q).tokens a j + (s.acqs a).mark j = s.tokens a j + q.mark j := by
  simp only [tokens, pending, setAcq, update_self, hq]
  omega

theorem tokens_setAcq_le (hq : q.attempt = (s.acqs a).attempt)
    (hlocks : q.locks ⊆ (s.acqs a).locks) (j : Fin n) : (s.setAcq a q).tokens a j ≤ s.tokens a j := by
  have htokens := tokens_setAcq hq j
  have hmark : q.mark j ≤ (s.acqs a).mark j := by
    unfold Acquisition.mark
    by_cases hj : j ∈ q.locks
    · simp [hj, hlocks hj]
    · simp [hj]
  omega

private theorem sum_update_add {f : Nat → Nat} {m k : Nat} (hk : k < m) (b : Nat) :
    ∑ x ∈ range m, update f k b x + f k = ∑ x ∈ range m, f x + b := by
  have hmem : k ∈ range m := mem_range.mpr hk
  rw [sum_update_of_mem hmem, ← sum_sdiff (singleton_subset_iff.mpr hmem), sum_singleton]
  omega

variable {c : Call}

theorem pending_setCall (hk : k ≤ (s.acqs a).attempt) :
    (s.setCall a k i c).pending a i + (s.calls (a, k, i)).weight = s.pending a i + c.weight := by
  have hcalls : ∀ x, ((s.setCall a k i c).calls (a, x, i)).weight =
      update (fun x => (s.calls (a, x, i)).weight) k c.weight x := by
    intro x
    by_cases hx : x = k
    · subst hx; simp [setCall]
    · simp [setCall, hx]
  have hsum := sum_update_add (f := fun x => (s.calls (a, x, i)).weight)
    (Nat.lt_succ_of_le hk) c.weight
  rw [pending, sum_congr rfl fun x _ => hcalls x]
  exact hsum

theorem pending_setCall_of_ne {j : Fin n} (hj : j ≠ i) : (s.setCall a k i c).pending a j = s.pending a j := by
  refine sum_congr rfl fun x _ => ?_
  simp [setCall, hj]

theorem tokens_setCall (hk : k ≤ (s.acqs a).attempt) (j : Fin n) :
    (s.setCall a k i c).tokens a j + (if j = i then (s.calls (a, k, i)).weight else 0) =
      s.tokens a j + if j = i then c.weight else 0 := by
  by_cases hj : j = i
  · subst hj
    have hpending := pending_setCall (i := j) (c := c) hk
    simp only [tokens, ↓reduceIte]
    simp only [setCall] at hpending ⊢
    omega
  · simp only [tokens, pending_setCall_of_ne hj, hj, ↓reduceIte]
    rfl

theorem tokens_sendRelease (sent : Bool) (j : Fin n) :
    (s.sendRelease a i sent).tokens a j ≤ s.tokens a j + if j = i then 1 else 0 := by
  unfold sendRelease
  cases sent with
  | false => simp
  | true =>
    by_cases hj : j = i
    · subst hj
      simp only [tokens, pending, ↓reduceIte, update_self]
      omega
    · simp [tokens, pending, hj]

theorem tokens_dropRelease (hpos : 0 < s.releases (a, i)) (j : Fin n) :
    (s.dropRelease a i).tokens a j + (if j = i then 1 else 0) = s.tokens a j := by
  by_cases hj : j = i
  · subst hj
    simp only [tokens, pending, dropRelease, ↓reduceIte, update_self]
    omega
  · simp [tokens, pending, dropRelease, hj]

end LockState

/-! ## What a step leaves alone -/

def Event.acq {n : Nat} : Event n → Nat
  | .start a _ _ | .serve a _ _ _ | .fail a _ _ | .collect a _ | .timeout a | .decide a
  | .abandon a _ _ | .rest a | .retry a | .giveUp a | .lateRelease a _ _ _ | .deliver a _ _
  | .lose a _ | .unlock a | .resend a _ | .unlocked a => a

/-- Only the acquisition `a` differs; the lock tables may. -/
structure Frame {n : Nat} (s t : LockState n) (a : Nat) : Prop where
  acqs : ∀ b ≠ a, t.acqs b = s.acqs b
  calls : ∀ b ≠ a, ∀ k i, t.calls (b, k, i) = s.calls (b, k, i)
  releases : ∀ b ≠ a, ∀ i, t.releases (b, i) = s.releases (b, i)

namespace Frame

variable {n : Nat} {s t u : LockState n} {a : Nat}

theorem trans (h : Frame s t a) (h' : Frame t u a) : Frame s u a where
  acqs b hb := (h'.acqs b hb).trans (h.acqs b hb)
  calls b hb k i := (h'.calls b hb k i).trans (h.calls b hb k i)
  releases b hb i := (h'.releases b hb i).trans (h.releases b hb i)

theorem setAcq (s : LockState n) (q : Acquisition n) : Frame s (s.setAcq a q) a where
  acqs _ hb := update_of_ne hb _ _
  calls _ _ _ _ := rfl
  releases _ _ _ := rfl

theorem setCall (s : LockState n) (k : Nat) (i : Fin n) (c : Call) : Frame s (s.setCall a k i c) a where
  acqs _ _ := rfl
  calls b hb k' i' := by simp [LockState.setCall, hb]
  releases _ _ _ := rfl

theorem sendRelease (s : LockState n) (i : Fin n) (sent : Bool) : Frame s (s.sendRelease a i sent) a where
  acqs _ _ := by unfold LockState.sendRelease; split <;> rfl
  calls _ _ _ _ := by unfold LockState.sendRelease; split <;> rfl
  releases _ hb j := by unfold LockState.sendRelease; split <;> simp [hb]

theorem dropRelease (s : LockState n) (i : Fin n) : Frame s (s.dropRelease a i) a where
  acqs _ _ := rfl
  calls _ _ _ _ := rfl
  releases b hb j := by simp [LockState.dropRelease, hb]

theorem broadcast (s : LockState n) (k : Nat) : Frame s (s.broadcast a k) a where
  acqs _ _ := rfl
  calls b hb k' j := by simp [LockState.broadcast, hb]
  releases _ _ _ := rfl

theorem tables (h : Frame s t a) (l : Fin n → LockMap) : Frame s { t with tables := l } a :=
  ⟨h.acqs, h.calls, h.releases⟩

theorem next (s : LockState n) (e : Event n) : Frame s (s.next e) e.acq := by
  cases e with
  | start a args isRead => exact (setAcq s _).trans (broadcast _ _)
  | serve a k i lost => exact (setCall s k i _).tables _
  | fail a k i => exact setCall s k i _
  | collect a i => exact (setCall s _ i _).trans (setAcq _ _)
  | timeout a => exact setAcq s _
  | decide a => exact setAcq s _
  | abandon a i sent => exact (sendRelease s i sent).trans (setAcq _ _)
  | rest a => exact setAcq s _
  | retry a => exact (setAcq s _).trans (broadcast _ _)
  | giveUp a => exact setAcq s _
  | lateRelease a k i sent => exact (setCall s k i _).trans (sendRelease _ i sent)
  | deliver a i acked =>
    simp only [LockState.next]
    split
    · exact ((dropRelease s i).tables _).trans (setAcq _ _)
    · exact (dropRelease s i).tables _
  | lose a i => exact dropRelease s i
  | unlock a => exact setAcq s _
  | resend a i => exact sendRelease s i true
  | unlocked a => exact setAcq s _

theorem tokens (h : Frame s t a) {b : Nat} (hb : b ≠ a) (i : Fin n) : t.tokens b i = s.tokens b i := by
  simp only [LockState.tokens, LockState.pending, h.acqs b hb, h.calls b hb, h.releases b hb]

end Frame

variable {n : Nat}

theorem LockState.deliver_tables (s : LockState n) (a : Nat) (i : Fin n) (acked : Bool) :
    (s.next (.deliver a i acked)).tables =
      update s.tables i ((s.tables i).release (s.acqs a).isRead (s.acqs a).args).2 := by
  simp only [next]
  split <;> rfl

theorem LockState.next_tables (s : LockState n) (e : Event n) (j : Fin n) :
    (s.next e).tables j = s.tables j ∨ (∃ k lost, e = .serve e.acq k j lost ∧ (s.next e).tables j =
        ((s.tables j).grant (s.acqs e.acq).isRead (s.acqs e.acq).args).2) ∨
      (∃ acked, e = .deliver e.acq j acked ∧ (s.next e).tables j =
        ((s.tables j).release (s.acqs e.acq).isRead (s.acqs e.acq).args).2) := by
  have hsend : ∀ (s : LockState n) a i sent, (s.sendRelease a i sent).tables = s.tables := by
    intro s a i sent
    cases sent <;> rfl
  cases e with
  | serve a k i lost =>
    by_cases hj : j = i
    · subst hj
      exact .inr (.inl ⟨k, lost, rfl, update_self _ _ _⟩)
    · exact .inl (update_of_ne hj _ _)
  | deliver a i acked =>
    by_cases hj : j = i
    · subst hj
      exact .inr (.inr ⟨acked, rfl, by rw [s.deliver_tables, update_self]; rfl⟩)
    · exact .inl (by rw [s.deliver_tables, update_of_ne hj])
  | abandon a i sent => exact .inl (congrFun (hsend s a i sent) j)
  | lateRelease a k i sent => exact .inl (congrFun (hsend _ a i sent) j)
  | resend a i => exact .inl (congrFun (hsend s a i true) j)
  | _ => exact .inl rfl

/-! ## The invariant -/

/-- The acquisition has started, and its unlock was not called. -/
def Phase.Active (p : Phase) : Prop := p ≠ .idle ∧ p ≠ .unlocking ∧ p ≠ .done

structure AcqInv {n : Nat} (s : LockState n) (a : Nat) : Prop where
  releases : (s.acqs a).phase = .idle → ∀ i, s.releases (a, i) = 0
  calls : ∀ k, (s.acqs a).phase = .idle ∨ (s.acqs a).attempt < k → ∀ i, s.calls (a, k, i) = .idle
  quorum : (s.acqs a).phase = .held → lockQuorum n (s.acqs a).isRead ≤ (s.acqs a).locks.card
  tokens : (s.acqs a).phase.Active → ∀ i, ∀ r ∈ (s.acqs a).locked,
    s.tokens a i ≤ (s.tables i r).count (s.acqs a).entry

structure LockInv {n : Nat} (s : LockState n) : Prop where
  tables : ∀ i, TableOk (s.tables i)
  uids : ∀ a b, (s.acqs a).phase ≠ .idle → (s.acqs b).phase ≠ .idle →
    (s.acqs a).args.uid = (s.acqs b).args.uid → a = b
  acq : ∀ a, AcqInv s a

/-- Every started acquisition is still itself in `t`. -/
structure Kept {n : Nat} (s t : LockState n) (a : Nat) : Prop where
  phase : (t.acqs a).phase ≠ .idle
  args : (t.acqs a).args = (s.acqs a).args
  isRead : (t.acqs a).isRead = (s.acqs a).isRead

section Step

open Function (update_self update_of_ne)
open LockState (broadcast setAcq_acqs setCall_acqs sendRelease_acqs sendRelease_calls tokens_setAcq
  tokens_setAcq_le tokens_setCall tokens_sendRelease tokens_dropRelease)
variable {n : Nat} {s : LockState n} {e : Event n}

theorem AcqInv.started (h : AcqInv s e.acq) (he : s.Enabled e) :
    (∃ a args isRead, e = .start a args isRead) ∨ (s.acqs e.acq).phase ≠ .idle := by
  have hcall : ∀ {k i c}, s.calls (e.acq, k, i) = c → c ≠ .idle → (s.acqs e.acq).phase ≠ .idle :=
    fun hc hne hidle => hne (hc ▸ h.calls _ (.inl hidle) _)
  have hrel : ∀ {i}, 0 < s.releases (e.acq, i) → (s.acqs e.acq).phase ≠ .idle :=
    fun hpos hidle => hpos.ne' (h.releases hidle _)
  have hphase : ∀ {p}, (s.acqs e.acq).phase = p → p ≠ .idle → (s.acqs e.acq).phase ≠ .idle :=
    fun hp hne hidle => hne (hp ▸ hidle)
  cases e with
  | start a args isRead => exact .inl ⟨a, args, isRead, rfl⟩
  | serve a k i | fail a k i => exact .inr (hcall he (by simp))
  | lateRelease a k i sent => exact .inr (hcall he.2.2 (by simp))
  | deliver a i acked => exact .inr (hrel he.1)
  | lose a i => exact .inr (hrel he)
  | collect a i | timeout a | decide a | abandon a i sent | rest a | resend a i | unlocked a =>
    exact .inr (hphase he.1 (by simp))
  | retry a | giveUp a | unlock a => exact .inr (hphase he (by simp))

theorem Kept.next (hs : (s.acqs e.acq).phase ≠ .idle) (he : s.Enabled e) : Kept s (s.next e) e.acq := by
  cases e with
  | start a args isRead => exact absurd he hs
  | collect a i =>
    constructor <;> simp only [LockState.next, Event.acq, setAcq_acqs, update_self] <;>
      split <;> first | exact hs | rfl
  | decide a =>
    refine ⟨?_, by simp [LockState.next, Event.acq], by simp [LockState.next, Event.acq]⟩
    simp only [LockState.next, Event.acq, setAcq_acqs, update_self]
    split <;> simp
  | deliver a i acked =>
    simp only [LockState.next]
    split
    · constructor <;> simp_all [Event.acq]
    · exact ⟨hs, rfl, rfl⟩
  | _ => constructor <;> simp_all [LockState.next, Event.acq]

variable {a k : Nat} {i : Fin n}

theorem AcqInv.le_attempt {c : Call} (h : AcqInv s a) (hc : s.calls (a, k, i) = c) (hne : c ≠ .idle) :
    k ≤ (s.acqs a).attempt := by
  by_contra hlt
  exact hne (hc ▸ h.calls k (.inr (by omega)) i)

theorem AcqInv.next_calls (h : AcqInv s e.acq) (he : s.Enabled e) (hk : ((s.next e).acqs e.acq).attempt < k)
    (i : Fin n) : (s.next e).calls (e.acq, k, i) = .idle := by
  have hset : ∀ {k₀ i₀ c₀} c, s.calls (e.acq, k₀, i₀) = c₀ → c₀ ≠ .idle → (s.acqs e.acq).attempt < k →
      update s.calls (e.acq, k₀, i₀) c (e.acq, k, i) = .idle := by
    intro k₀ i₀ c₀ c hc hne hk
    have hk₀ := h.le_attempt hc hne
    rw [update_of_ne (by simp; omega)]
    exact h.calls k (.inr hk) i
  cases e with
  | start a args isRead =>
    simp only [LockState.next, Event.acq, broadcast, setAcq_acqs, update_self] at hk ⊢
    rw [if_neg (by omega)]
    exact h.calls k (.inl he) i
  | serve a k₀ i₀ lost => exact hset _ he (by simp) hk
  | fail a k₀ i₀ => exact hset _ he (by simp) hk
  | collect a i₀ =>
    obtain ⟨g, hg⟩ := he.2.2
    refine hset _ hg (by simp) ?_
    simp only [LockState.next, Event.acq, setAcq_acqs, update_self] at hk ⊢
    split at hk <;> exact hk
  | retry a =>
    simp only [LockState.next, Event.acq, broadcast, setAcq_acqs, update_self] at hk ⊢
    rw [if_neg (by omega)]
    exact h.calls k (.inr (by simp only [Event.acq]; omega)) i
  | lateRelease a k₀ i₀ sent =>
    simp only [LockState.next, sendRelease_calls, sendRelease_acqs] at hk ⊢
    exact hset _ he.2.2 (by simp) hk
  | deliver a i₀ acked =>
    have hcalls : (s.next (.deliver a i₀ acked)).calls = s.calls := by
      simp only [LockState.next]
      split <;> rfl
    have hattempt : ((s.next (.deliver a i₀ acked)).acqs a).attempt = (s.acqs a).attempt := by
      simp only [LockState.next]
      split <;> simp
    rw [hcalls]
    exact h.calls k (.inr (hattempt ▸ hk)) i
  | _ =>
    refine Eq.trans ?_ (h.calls k (.inr ?_) i)
    · simp [LockState.next]
    · simpa [LockState.next, Event.acq] using hk

theorem AcqInv.next_quorum (h : AcqInv s e.acq) (he : s.Enabled e) (hheld : ((s.next e).acqs e.acq).phase = .held) :
    lockQuorum n ((s.next e).acqs e.acq).isRead ≤ ((s.next e).acqs e.acq).locks.card := by
  cases e with
  | decide a =>
    simp only [LockState.next, Event.acq, setAcq_acqs, update_self] at hheld ⊢
    split at hheld
    · rename_i hquorum
      exact hquorum.1
    · cases hheld
  | collect a i =>
    -- The attempt is not over.
    have hphase : ((s.next (.collect a i)).acqs a).phase = .trying := by
      simp only [LockState.next, setAcq_acqs, update_self]
      split <;> exact he.1
    rw [show ((s.next (.collect a i)).acqs a).phase = .held from hheld] at hphase
    cases hphase
  | deliver a i acked =>
    simp only [LockState.next, Event.acq] at hheld ⊢
    -- A delivery that counts belongs to an `Unlock`, which holds no lock.
    by_cases hacked : acked = true ∧ (s.acqs a).phase = .unlocking
    · rw [if_pos hacked, setAcq_acqs, update_self] at hheld
      cases hheld.symm.trans hacked.2
    · rw [if_neg hacked] at hheld ⊢
      exact h.quorum hheld
  | serve | fail | lose => exact h.quorum hheld
  | lateRelease a k i sent =>
    simp only [LockState.next, sendRelease_acqs] at hheld ⊢
    exact h.quorum hheld
  | _ => simp_all [LockState.next, Event.acq, LockState.Enabled]

theorem active_of_next (hs : (s.acqs e.acq).phase ≠ .idle) (he : s.Enabled e)
    (hactive : ((s.next e).acqs e.acq).phase.Active) : (s.acqs e.acq).phase.Active := by
  have hphase : ∀ {p}, (s.acqs e.acq).phase = p → p.Active → (s.acqs e.acq).phase.Active :=
    fun hp hq => hp ▸ hq
  cases e with
  | start a args isRead => exact absurd he hs
  | collect a i | timeout a | decide a | abandon a i sent | rest a =>
    exact hphase he.1 ⟨by simp, by simp, by simp⟩
  | retry a | giveUp a | unlock a => exact hphase he ⟨by simp, by simp, by simp⟩
  | deliver a i acked =>
    simp only [LockState.next] at hactive
    split at hactive <;> simp_all [Phase.Active, Event.acq]
  | unlocked a => simp [LockState.next, Event.acq, Phase.Active] at hactive
  | _ => simpa [LockState.next] using hactive

theorem AcqInv.next_tokens_le (h : AcqInv s e.acq) (he : s.Enabled e) (hserve : ∀ a k i lost, e ≠ .serve a k i lost)
    (hdeliver : ∀ a i acked, e ≠ .deliver a i acked) (hs : (s.acqs e.acq).phase ≠ .idle)
    (hactive : ((s.next e).acqs e.acq).phase.Active) (j : Fin n) : (s.next e).tokens e.acq j ≤ s.tokens e.acq j := by
  cases e with
  | start a args isRead => exact absurd he hs
  | serve a k i lost => exact absurd rfl (hserve a k i lost)
  | deliver a i acked => exact absurd rfl (hdeliver a i acked)
  | fail a k i =>
    have htokens := tokens_setCall (c := .answered false) (h.le_attempt he (by simp)) j (i := i)
    simp only [Call.weight, ite_self, Nat.add_zero] at htokens
    exact le_trans (Nat.le_add_right _ _) htokens.le
  | collect a i =>
    -- A grant that is taken from the channel becomes a mark.
    obtain ⟨g, hg⟩ := he.2.2
    have hcall := tokens_setCall (c := .taken) (h.le_attempt hg (by simp)) j (i := i)
    simp only [LockState.next, Event.acq] at hcall ⊢
    cases g with
    | true =>
      have hacq := tokens_setAcq (s := s.setCall a (s.acqs a).attempt i .taken) (a := a)
        (q := { s.acqs a with received := (s.acqs a).received + 1, locks := insert i (s.acqs a).locks })
        rfl j
      simp only [hg, Call.weight, setCall_acqs, Acquisition.mark] at hcall hacq ⊢
      by_cases hj : j = i <;> grind
    | false =>
      rw [if_neg (by simp [hg])]
      refine (tokens_setAcq_le ?_ ?_ j).trans ?_
      · rfl
      · exact subset_rfl
      simp only [Call.weight, ite_self, Nat.add_zero] at hcall
      omega
  | timeout a | decide a | rest a =>
    refine tokens_setAcq_le ?_ ?_ j
    · rfl
    · exact subset_rfl
  | abandon a i sent =>
    -- A mark becomes a release.
    have hsend := tokens_sendRelease (s := s) (a := a) (i := i) sent j
    have hacq := tokens_setAcq (s := s.sendRelease a i sent) (a := a)
      (q := { s.acqs a with locks := (s.acqs a).locks.erase i })
      (by rw [sendRelease_acqs]) j
    have hi : i ∈ (s.acqs a).locks := he.2
    simp only [LockState.next, Event.acq, sendRelease_acqs, Acquisition.mark] at hacq hsend ⊢
    by_cases hj : j = i
    · subst hj
      simp [hi] at hacq hsend
      omega
    · simp [hj] at hacq hsend
      omega
  | retry a =>
    -- The new calls are not answered yet.
    have hpending : (s.next (.retry a)).pending a j = s.pending a j := by
      simp only [LockState.pending, LockState.next, broadcast, setAcq_acqs, update_self]
      rw [sum_range_succ]
      simp only [and_self, ↓reduceIte, Call.weight, Nat.add_zero]
      refine sum_congr rfl fun x hx => ?_
      have hx' : x < (s.acqs a).attempt + 1 := mem_range.mp hx
      rw [if_neg (by omega)]
      rfl
    simp only [LockState.tokens, Event.acq, hpending]
    simp [LockState.next, Acquisition.mark]
  | lateRelease a k i sent =>
    -- A grant that is taken from the channel becomes a release.
    have hcall := tokens_setCall (c := .taken) (h.le_attempt he.2.2 (by simp)) j (i := i)
    have hsend := tokens_sendRelease (s := s.setCall a k i .taken) (a := a) (i := i) sent j
    have hc : s.calls (a, k, i) = .answered true := he.2.2
    simp only [hc, LockState.next, Event.acq, Call.weight, ite_self] at hcall hsend ⊢
    omega
  | lose a i => exact le_trans (Nat.le_add_right _ _) (tokens_dropRelease he j).le
  | resend a i =>
    exact absurd he.1 (active_of_next hs he hactive).2.1
  | giveUp a | unlock a | unlocked a =>
    simp [LockState.next, Event.acq, Phase.Active] at hactive

variable {t : LockState n}

theorem Kept.entry_eq (h : Kept s t a) : (t.acqs a).entry = (s.acqs a).entry := by
  rw [Acquisition.entry, Acquisition.entry, h.args, h.isRead]

theorem Kept.locked_eq (h : Kept s t a) : (t.acqs a).locked = (s.acqs a).locked := by
  rw [Acquisition.locked, Acquisition.locked, h.args, h.isRead]

variable {r : String}

theorem AcqInv.serve_tokens {lost : Bool} (h : AcqInv s a) (he : s.calls (a, k, i) = .requested) {j : Fin n}
    (hr : r ∈ (s.acqs a).locked) (hold : s.tokens a j ≤ (s.tables j r).count (s.acqs a).entry) :
    (s.next (.serve a k i lost)).tokens a j ≤ ((s.next (.serve a k i lost)).tables j r).count (s.acqs a).entry := by
  set q := s.acqs a with hq
  set reply := (s.tables i).grant q.isRead q.args with hreply
  have hcall := tokens_setCall (c := .answered (reply.1 && !lost)) (h.le_attempt he (by simp)) j
    (i := i)
  have htokens : (s.next (.serve a k i lost)).tokens a j =
      (s.setCall a k i (.answered (reply.1 && !lost))).tokens a j := rfl
  have htables : (s.next (.serve a k i lost)).tables = update s.tables i reply.2 := rfl
  rw [htokens, htables]
  have hrequested : (s.calls (a, k, i)).weight = 0 := by rw [he]; rfl
  simp only [hrequested, ite_self, Nat.add_zero] at hcall
  by_cases hj : j = i
  · subst hj
    rw [update_self]
    cases hgrant : reply.1 with
    | false =>
      have hsame : reply.2 = s.tables j := grant_denied hgrant
      simp only [hgrant, Bool.false_and, Call.weight, ite_self, Nat.add_zero] at hcall ⊢
      rw [hsame, hcall]
      exact hold
    | true =>
      have hadd : reply.2 r = s.tables j r ++ [q.entry] := (grant_granted hgrant r).trans (if_pos hr)
      have hweight : (Call.answered (true && !lost)).weight ≤ 1 := by cases lost <;> decide
      rw [hadd, List.count_append, List.count_singleton_self]
      simp only [hgrant, ↓reduceIte] at hcall ⊢
      omega
  · rw [update_of_ne hj]
    simp only [hj, ↓reduceIte, Nat.add_zero] at hcall
    exact hcall.le.trans hold

theorem deliver_tokens {acked : Bool} (hpos : 0 < s.releases (a, i)) {j : Fin n}
    (hold : s.tokens a j ≤ (s.tables j r).count (s.acqs a).entry) :
    (s.next (.deliver a i acked)).tokens a j ≤ ((s.next (.deliver a i acked)).tables j r).count (s.acqs a).entry := by
  set q := s.acqs a with hq
  have hdrop := tokens_dropRelease hpos j
  have htokens : (s.next (.deliver a i acked)).tokens a j ≤ (s.dropRelease a i).tokens a j := by
    simp only [LockState.next]
    split
    · refine tokens_setAcq_le ?_ ?_ j
      · rfl
      · exact erase_subset _ _
    · exact le_rfl
  rw [s.deliver_tables, ← hq]
  by_cases hj : j = i
  · subst hj
    have hcount := count_le_count_release_add_one (s.tables j) q.isRead q.args q.entry r
    rw [update_self]
    simp only [↓reduceIte] at hdrop
    omega
  · rw [update_of_ne hj]
    omega

/-- The tokens of a started acquisition stay covered by its entries. -/
theorem AcqInv.next_tokens (h : AcqInv s e.acq) (he : s.Enabled e) (hs : (s.acqs e.acq).phase ≠ .idle)
    (hactive : ((s.next e).acqs e.acq).phase.Active) (j : Fin n) (hr : r ∈ (s.acqs e.acq).locked) :
    (s.next e).tokens e.acq j ≤ ((s.next e).tables j r).count (s.acqs e.acq).entry := by
  have hold := h.tokens (active_of_next hs he hactive) j r hr
  by_cases hserve : ∃ a k i lost, e = .serve a k i lost
  · obtain ⟨a, k, i, lost, rfl⟩ := hserve
    exact h.serve_tokens he hr hold
  by_cases hdeliver : ∃ a i acked, e = .deliver a i acked
  · obtain ⟨a, i, acked, rfl⟩ := hdeliver
    exact deliver_tokens he.1 hold
  have hle := h.next_tokens_le he (fun a k i lost heq => hserve ⟨a, k, i, lost, heq⟩)
    (fun a i acked heq => hdeliver ⟨a, i, acked, heq⟩) hs hactive j
  have hsame : (s.next e).tables j = s.tables j := by
    obtain hsame | ⟨k, lost, heq, -⟩ | ⟨acked, heq, -⟩ := s.next_tables e j
    · exact hsame
    · exact absurd ⟨_, _, _, _, heq⟩ hserve
    · exact absurd ⟨_, _, _, heq⟩ hdeliver
  rw [hsame]
  exact hle.trans hold

variable {b : Nat}

/-- A started acquisition keeps its entries when another one takes a step. -/
theorem LockInv.count_next_of_ne (h : LockInv s) (he : s.Enabled e) (hb : b ≠ e.acq)
    (hs : (s.acqs b).phase ≠ .idle) (j : Fin n) (r : String) :
    (s.tables j r).count (s.acqs b).entry ≤ ((s.next e).tables j r).count (s.acqs b).entry := by
  obtain hsame | ⟨k, lost, -, hgrant⟩ | ⟨acked, hdeliver, hrelease⟩ := s.next_tables e j
  · rw [hsame]
  · rw [hgrant]
    cases hreply : ((s.tables j).grant (s.acqs e.acq).isRead (s.acqs e.acq).args).1 with
    | false => rw [grant_denied hreply]
    | true =>
      rw [grant_granted hreply]
      split
      · exact (List.sublist_append_left _ _).count_le _
      · exact le_rfl
  · -- The release has another uid.
    have hstarted : (s.acqs e.acq).phase ≠ .idle := by
      intro hidle
      rw [hdeliver] at he
      exact he.1.ne' ((h.acq e.acq).releases hidle j)
    have huid : ¬ ((s.acqs b).entry.uid = (s.acqs e.acq).args.uid ∧
        (s.acqs b).entry.owner = (s.acqs e.acq).args.owner) :=
      fun heq => hb (h.uids b e.acq hs hstarted heq.1)
    rw [hrelease, count_release_of_ne huid]

theorem AcqInv.next (h : AcqInv s e.acq) (he : s.Enabled e) : AcqInv (s.next e) e.acq := by
  obtain ⟨a, args, isRead, rfl⟩ | hs := h.started he
  · -- A new acquisition has no tokens yet.
    refine ⟨fun hidle => ?_, fun k hk i => ?_, fun hheld => ?_, fun _ i r _ => ?_⟩
    · simp [LockState.next, Event.acq] at hidle
    · refine h.next_calls he (hk.resolve_left fun hidle => ?_) i
      simp [LockState.next, Event.acq] at hidle
    · simp [LockState.next, Event.acq] at hheld
    · have hreleases := h.releases he i
      simp_all [LockState.tokens, LockState.pending, LockState.next, Event.acq, broadcast,
        Acquisition.mark, Call.weight]
  · have hkept := Kept.next hs he
    refine ⟨fun hidle => absurd hidle hkept.phase, fun k hk i => ?_, h.next_quorum he, ?_⟩
    · exact h.next_calls he (hk.resolve_left hkept.phase) i
    · intro hactive i r hr
      rw [hkept.locked_eq] at hr
      rw [hkept.entry_eq]
      exact h.next_tokens he hs hactive i hr

theorem LockInv.acq_next_of_ne (h : LockInv s) (he : s.Enabled e) (hb : b ≠ e.acq) : AcqInv (s.next e) b := by
  have hframe := Frame.next s e
  have hinv := h.acq b
  constructor <;> simp only [hframe.acqs b hb, hframe.releases b hb, hframe.calls b hb, hframe.tokens hb]
  · exact hinv.releases
  · exact hinv.calls
  · exact hinv.quorum
  · intro hactive i r hr
    exact (hinv.tokens hactive i r hr).trans (h.count_next_of_ne he hb hactive.1 i r)

theorem LockInv.tables_next (h : LockInv s) (i : Fin n) : TableOk ((s.next e).tables i) := by
  obtain hsame | ⟨-, -, -, hgrant⟩ | ⟨-, -, hrelease⟩ := s.next_tables e i
  · exact hsame ▸ h.tables i
  · exact hgrant ▸ (h.tables i).grant _ _
  · exact hrelease ▸ (h.tables i).release _ _

theorem LockInv.uid_next (h : LockInv s) (he : s.Enabled e) (hfresh : FreshUid s e) (hb : b ≠ e.acq)
    (hs : (s.acqs b).phase ≠ .idle) : (s.acqs b).args.uid ≠ ((s.next e).acqs e.acq).args.uid := by
  obtain ⟨a, args, isRead, rfl⟩ | hstarted := (h.acq e.acq).started he
  · simpa [LockState.next, Event.acq] using hfresh b hs
  · rw [(Kept.next hstarted he).args]
    exact fun heq => hb (h.uids b e.acq hs hstarted heq)

theorem LockInv.next (h : LockInv s) (he : s.Enabled e) (hfresh : FreshUid s e) : LockInv (s.next e) := by
  have hframe := Frame.next s e
  refine ⟨fun i => h.tables_next i, fun a b ha hb huid => ?_, fun b => ?_⟩
  · by_cases hae : a = e.acq
    · by_cases hbe : b = e.acq
      · rw [hae, hbe]
      · rw [hframe.acqs b hbe] at hb huid
        subst hae
        exact absurd huid.symm (h.uid_next he hfresh hbe hb)
    · rw [hframe.acqs a hae] at ha huid
      by_cases hbe : b = e.acq
      · subst hbe
        exact absurd huid (h.uid_next he hfresh hae ha)
      · rw [hframe.acqs b hbe] at hb huid
        exact h.uids a b ha hb huid
  · by_cases hb : b = e.acq
    · subst hb
      exact (h.acq e.acq).next he
    · exact h.acq_next_of_ne he hb

end Step

/-! ## Exclusion -/

section Exclusion

variable {n : Nat} {s : LockState n}

theorem LockInv.initial (n : Nat) : LockInv (LockState.initial n) where
  tables _ _ _ he := absurd he List.not_mem_nil
  uids _ _ ha := absurd rfl ha
  acq _ := ⟨fun _ _ => rfl, fun _ _ _ => rfl, nofun, fun hactive => absurd rfl hactive.1⟩

theorem LockInv.of_reachable (h : (dsyncFreshUids n).Reachable s) : LockInv s := by
  refine h.invariant (I := LockInv) ?_ ?_
  · rintro s rfl
    exact LockInv.initial n
  · rintro s t - hinv ⟨e, he, hfresh, rfl⟩
    exact hinv.next he hfresh

variable {a : Nat}

theorem LockInv.entry_mem (h : LockInv s) {r : String} (ha : Holds s a r) {i : Fin n}
    (hi : i ∈ (s.acqs a).locks) : (s.acqs a).entry ∈ s.tables i r := by
  have hactive : (s.acqs a).phase.Active := ha.1 ▸ ⟨by simp, by simp, by simp⟩
  have hcount := (h.acq a).tokens hactive i r ha.2
  have hmark : (s.acqs a).mark i = 1 := if_pos hi
  rw [LockState.tokens, hmark] at hcount
  exact List.count_pos_iff.mp (by omega)

/-- The quorums of a writer and of another holder have a locker in common. -/
theorem LockInv.exists_common (h : LockInv s) {b : Nat} (hw : (s.acqs a).isRead = false)
    (ha : (s.acqs a).phase = .held) (hb : (s.acqs b).phase = .held) :
    ∃ i, i ∈ (s.acqs a).locks ∧ i ∈ (s.acqs b).locks := by
  have hqa := (h.acq a).quorum ha
  have hqb := (h.acq b).quorum hb
  have hlt := lockQuorum_add_lt n (s.acqs b).isRead
  rw [hw] at hqa
  by_contra hnone
  have hdisjoint : Disjoint (s.acqs a).locks (s.acqs b).locks :=
    disjoint_left.mpr fun i hia hib => hnone ⟨i, hia, hib⟩
  have hcard := card_union_of_disjoint hdisjoint
  have hn := card_le_univ ((s.acqs a).locks ∪ (s.acqs b).locks)
  rw [Fintype.card_fin] at hn
  omega

theorem LockInv.mutualExclusion (h : LockInv s) : MutualExclusion s := by
  intro a b r hw ha hb
  obtain ⟨i, hia, hib⟩ := h.exists_common hw ha.1 hb.1
  have hea := h.entry_mem ha hia
  have heb := h.entry_mem hb hib
  have hwriter : (s.acqs a).entry.writer = true := by simp [Acquisition.entry, LockArgs.entry, hw]
  -- The entry of the writer is alone.
  rw [h.tables i r _ hea hwriter, List.mem_singleton] at heb
  exact congrArg LockRequesterInfo.uid heb.symm

/-- When every acquisition has its own uid, a writer and a holder of another uid never hold the same
resource. -/
theorem mutualExclusion_of_freshUids (n : Nat) (s : LockState n)
    (h : (dsyncFreshUids n).Reachable s) : MutualExclusion s :=
  (LockInv.of_reachable h).mutualExclusion

/-- A writer gets the lock, and a reader with another uid is turned away. -/
def contended : List (Event 1) :=
  [.start 0 ⟨"u", "node", ["r"], nofun⟩ false, .start 1 ⟨"v", "node", ["r"], nofun⟩ true,
    .serve 0 0 0 false, .serve 1 0 0 false, .collect 0 0, .decide 0]

theorem mutualExclusion_contended : (dsyncFreshUids 1).Reachable ((LockState.initial 1).run contended) ∧
      Holds ((LockState.initial 1).run contended) 0 "r" ∧
      MutualExclusion ((LockState.initial 1).run contended) := by
  have hfirst : FreshUid (LockState.initial 1) (.start 0 ⟨"u", "node", ["r"], nofun⟩ false) :=
    fun _ hb => absurd rfl hb
  have hsecond : FreshUid ((LockState.initial 1).run (contended.take 1))
      (.start 1 ⟨"v", "node", ["r"], nofun⟩ true) := by
    intro b hb
    by_cases h0 : b = 0
    · subst h0; decide
    · exact absurd (by simp [contended, LockState.run, LockState.next, LockState.initial, h0]) hb
  have hreach : (dsyncFreshUids 1).Reachable ((LockState.initial 1).run contended) :=
    reachable_run (.init rfl) contended
      ⟨by decide, hfirst, by decide, hsecond, by decide, trivial, by decide, trivial, by decide, trivial,
        by decide, trivial, trivial⟩
  exact ⟨hreach, ⟨by decide, by decide⟩, mutualExclusion_of_freshUids 1 _ hreach⟩

/-- A uid that locks again. The first `Unlock` sends its release twice, and one of the two reaches the
locker after the second `Lock`. -/
def reusedUid : List (Event 1) :=
  [.start 0 ⟨"u", "node", ["r"], nofun⟩ false, .serve 0 0 0 false, .collect 0 0, .decide 0,
    .unlock 0, .resend 0 0, .resend 0 0, .deliver 0 0 true, .unlocked 0,
    .start 1 ⟨"u", "node", ["r"], nofun⟩ false, .serve 1 0 0 false, .collect 1 0, .decide 1,
    .deliver 0 0 false,
    .start 2 ⟨"v", "node", ["r"], nofun⟩ false, .serve 2 0 0 false, .collect 2 0, .decide 2]

/-- Two writers with different uids hold the resource. -/
theorem mutualExclusion_lost : ∃ s, (dsync 1).Reachable s ∧ ¬ MutualExclusion s := by
  refine ⟨(LockState.initial 1).run reusedUid, reachable_run (.init rfl) reusedUid (by decide), fun h => ?_⟩
  exact absurd (h 1 2 "r" (by decide) ⟨by decide, by decide⟩ ⟨by decide, by decide⟩) (by decide)

end Exclusion

end Otterio
