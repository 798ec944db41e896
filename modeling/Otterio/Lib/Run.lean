import Mathlib

/-!
# Runs of a system

A system has initial states and steps between states. A property that the initial states have and
that every step keeps holds in every reachable state (`Reachable.invariant`).

Where the steps are calls of a function, a property that is kept exactly by the calls that meet a
condition holds along a list of calls exactly when all of them meet it (`holds_along_iff`).
-/

namespace Otterio

open List

structure System (σ : Type) where
  init : σ → Prop
  step : σ → σ → Prop

namespace System

variable {σ : Type} {M : System σ}

inductive Reachable (M : System σ) : σ → Prop where
  | init {s : σ} (h : M.init s) : Reachable M s
  | step {s t : σ} (h : Reachable M s) (hs : M.step s t) : Reachable M t

/-- An invariant, with the reachability of the state before the step at hand. -/
theorem Reachable.invariant {I : σ → Prop} {s : σ} (h : M.Reachable s) (hinit : ∀ s, M.init s → I s)
    (hstep : ∀ s t, M.Reachable s → I s → M.step s t → I t) : I s := by
  induction h with
  | init h => exact hinit _ h
  | step hr hs ih => exact hstep _ _ hr ih hs

end System

section Along

variable {σ α : Type} {f : σ → α → σ} {I P : σ → Prop} {Q : σ → α → Prop}

/-- A property that the calls that meet `Q` keep. -/
theorem holds_along (hstep : ∀ s a, P s → Q s a → P (f s a)) {s : σ} (hp : P s) (as : List α)
    (h : ∀ pre a, pre ++ [a] <+: as → Q (pre.foldl f s) a) : ∀ pre, pre <+: as → P (pre.foldl f s) := by
  intro pre
  induction pre using List.reverseRecOn with
  | nil => exact fun _ => hp
  | append_singleton pre a ih =>
    intro hpre
    rw [foldl_append]
    exact hstep _ a (ih ((prefix_append pre [a]).trans hpre)) (h pre a hpre)

/-- `I` holds anyway; `P` is kept by the calls that meet `Q`, and by no others. -/
theorem holds_along_iff {as : List α} (hI : ∀ s, ∀ a ∈ as, I s → I (f s a))
    (hstep : ∀ s, ∀ a ∈ as, I s → P s → (P (f s a) ↔ Q s a)) {s : σ} (hs : I s) (hp : P s) :
    (∀ pre, pre <+: as → P (pre.foldl f s)) ↔ ∀ pre a, pre ++ [a] <+: as → Q (pre.foldl f s) a := by
  -- `I` along the calls
  have hIalong : ∀ pre, pre <+: as → I (pre.foldl f s) := by
    intro pre hpre
    refine List.foldlRecOn pre f hs fun t ht a ha => hI t a ?_ ht
    exact hpre.subset ha
  have hmem : ∀ {pre a}, pre ++ [a] <+: as → a ∈ as := fun hpre => hpre.subset (by simp)
  constructor
  · intro h pre a hpre
    have hbefore := (prefix_append pre [a]).trans hpre
    have hafter := h _ hpre
    rw [foldl_append] at hafter
    exact (hstep _ a (hmem hpre) (hIalong pre hbefore) (h pre hbefore)).mp hafter
  · intro h pre
    induction pre using List.reverseRecOn with
    | nil => exact fun _ => hp
    | append_singleton pre a ih =>
      intro hpre
      have hbefore := (prefix_append pre [a]).trans hpre
      rw [foldl_append]
      exact (hstep _ a (hmem hpre) (hIalong pre hbefore) (ih hbefore)).mpr (h pre a hpre)

end Along

end Otterio
