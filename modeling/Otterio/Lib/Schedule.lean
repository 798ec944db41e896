import Mathlib

/-!
# Events in an arbitrary order

Concurrent code as a set of events: in each state some events can happen, and a schedule picks one
of them. `runEvents` runs until no event is left. The schedule is arbitrary, so that a property of
every schedule is a property of every interleaving.

`runEvents_of_measure`: if every event keeps an invariant and makes a measure smaller, every schedule
ends, in a state with the invariant where no event is left.
-/

namespace Otterio

variable {σ ε : Type}

/-- The event at a position of a list that is not empty, counted modulo its length. -/
def pick (e : ε) (es : List ε) (k : Nat) : ε := (e :: es).getD (k % (es.length + 1)) e

theorem pick_mem (e : ε) (es : List ε) (k : Nat) : pick e es k ∈ e :: es := by
  have hlt : k % (es.length + 1) < (e :: es).length := by
    exact Nat.mod_lt _ (by omega)
  rw [pick, List.getD_eq_getElem _ _ hlt]
  exact List.getElem_mem hlt

/-- The state when no event is left, or `none` if the fuel runs out first. -/
def runEvents (enabled : σ → List ε) (step : σ → ε → σ) (sched : Nat → Nat) : Nat → Nat → σ → Option σ
  | 0, _, _ => none
  | fuel + 1, k, s =>
    match enabled s with
    | [] => some s
    | e :: es => runEvents enabled step sched fuel (k + 1) (step s (pick e es (sched k)))

theorem runEvents_of_measure {enabled : σ → List ε} {step : σ → ε → σ} {I : σ → Prop} {μ : σ → Nat}
    (hstep : ∀ s e, I s → e ∈ enabled s → I (step s e) ∧ μ (step s e) < μ s)
    (sched : Nat → Nat) {fuel k : Nat} {s : σ} (hs : I s) (hfuel : μ s < fuel) :
    ∃ t, runEvents enabled step sched fuel k s = some t ∧ I t ∧ enabled t = [] := by
  induction fuel generalizing k s with
  | zero => omega
  | succ fuel ih =>
    cases henabled : enabled s with
    | nil => exact ⟨s, by rw [runEvents, henabled], hs, henabled⟩
    | cons e es =>
      have hmem : pick e es (sched k) ∈ enabled s := henabled ▸ pick_mem e es (sched k)
      obtain ⟨hinv, hless⟩ := hstep s _ hs hmem
      obtain ⟨t, ht, hrest⟩ := @ih (k + 1) (step s (pick e es (sched k))) hinv (by omega)
      refine ⟨t, ?_, hrest⟩
      rw [runEvents, henabled]
      exact ht

end Otterio
