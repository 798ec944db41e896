import Mathlib

/-!
# Patterns as lists of tokens

A token stands for any text (`any`), for any one symbol (`one`), or for a given symbol (`lit`). Unlike in
`Otterio.Lib.Wildcard` the tokens are not symbols of the alphabet, so that a pattern can ask for a symbol
that is also used to write a wildcard.

* `least x p` is a shortest text of the language of `p`, with `x` in the place of every `one`; its length
  is `width p`.
* `Loose p`: `p` begins with `one`s and an `any`. The language of such a pattern is closed under longer
  texts with the same end (`Loose.mono`).
* `matches_diverge`: two patterns that agree up to some literals, and where one of them then goes on with
  a literal the other does not go on with, differ in one of three texts.
-/

namespace Otterio.Pattern

open List hiding any

variable {α : Type}

inductive Token (α : Type) where
  | any
  | one
  | lit (c : α)
  deriving DecidableEq, Repr

open Token

/-- `Matches p t`: the text `t` is in the language of `p`. -/
def Matches : List (Token α) → List α → Prop
  | [], t => t = []
  | any :: p, t => ∃ v, v <:+ t ∧ Matches p v
  | one :: p, t => ∃ c v, t = c :: v ∧ Matches p v
  | lit c :: p, t => ∃ v, t = c :: v ∧ Matches p v

variable {p q : List (Token α)} {t u v w : List α} {c x : α}

@[simp] theorem matches_nil : Matches [] t ↔ t = [] := Iff.rfl

theorem matches_any : Matches (any :: p) t ↔ ∃ v, v <:+ t ∧ Matches p v := Iff.rfl

theorem matches_one : Matches (one :: p) t ↔ ∃ c v, t = c :: v ∧ Matches p v := Iff.rfl

theorem matches_lit : Matches (lit c :: p) t ↔ ∃ v, t = c :: v ∧ Matches p v := Iff.rfl

@[simp] theorem matches_one_cons : Matches (one :: p) (c :: t) ↔ Matches p t := by
  simp [matches_one]

@[simp] theorem matches_lit_cons {d : α} : Matches (lit c :: p) (d :: t) ↔ d = c ∧ Matches p t := by
  simp [matches_lit]

theorem not_matches_one_nil : ¬ Matches (one :: p) ([] : List α) := by
  simp [matches_one]

theorem not_matches_lit_nil : ¬ Matches (lit c :: p) ([] : List α) := by
  simp [matches_lit]

theorem matches_any_iff_tails : (∃ v ∈ t.tails, Matches p v) ↔ Matches (any :: p) t := by
  simp only [mem_tails, matches_any]

def decideMatches [DecidableEq α] : (p : List (Token α)) → (t : List α) → Decidable (Matches p t)
  | [], t => decidable_of_iff (t = []) matches_nil.symm
  | any :: p, t =>
    have : DecidablePred (Matches p) := decideMatches p
    decidable_of_iff (∃ v ∈ t.tails, Matches p v) matches_any_iff_tails
  | one :: _, [] => .isFalse not_matches_one_nil
  | one :: p, _ :: t =>
    have : Decidable (Matches p t) := decideMatches p t
    decidable_of_iff (Matches p t) matches_one_cons.symm
  | lit _ :: _, [] => .isFalse not_matches_lit_nil
  | lit c :: p, d :: t =>
    have : Decidable (Matches p t) := decideMatches p t
    decidable_of_iff (d = c ∧ Matches p t) matches_lit_cons.symm

instance [DecidableEq α] : Decidable (Matches p t) := decideMatches p t

theorem matches_append : Matches (p ++ q) t ↔ ∃ u v, t = u ++ v ∧ Matches p u ∧ Matches q v := by
  induction p generalizing t with
  | nil => simp
  | cons k p ih =>
    cases k with
    | any =>
      simp only [cons_append, matches_any, ih]
      constructor
      · rintro ⟨_, ⟨pre, rfl⟩, u, v, rfl, hu, hv⟩
        exact ⟨pre ++ u, v, (append_assoc ..).symm, ⟨u, suffix_append pre u, hu⟩, hv⟩
      · rintro ⟨_, v, rfl, ⟨u, ⟨pre, rfl⟩, hu⟩, hv⟩
        exact ⟨u ++ v, ⟨pre, (append_assoc ..).symm⟩, u, v, rfl, hu, hv⟩
    | one =>
      simp only [cons_append, matches_one, ih]
      constructor
      · rintro ⟨c, _, rfl, u, v, rfl, hu, hv⟩
        exact ⟨c :: u, v, rfl, ⟨c, u, rfl, hu⟩, hv⟩
      · rintro ⟨_, v, rfl, ⟨c, u, rfl, hu⟩, hv⟩
        exact ⟨c, u ++ v, rfl, u, v, rfl, hu, hv⟩
    | lit c =>
      simp only [cons_append, matches_lit, ih]
      constructor
      · rintro ⟨_, rfl, u, v, rfl, hu, hv⟩
        exact ⟨c :: u, v, rfl, ⟨u, rfl, hu⟩, hv⟩
      · rintro ⟨_, v, rfl, ⟨u, rfl, hu⟩, hv⟩
        exact ⟨u ++ v, rfl, u, v, rfl, hu, hv⟩

theorem matches_literals_append : Matches (w.map lit ++ p) t ↔ ∃ v, t = w ++ v ∧ Matches p v := by
  induction w generalizing t with
  | nil => simp
  | cons c w ih =>
    simp only [map_cons, cons_append, matches_lit, ih]
    constructor
    · rintro ⟨_, rfl, v, rfl, hv⟩
      exact ⟨v, rfl, hv⟩
    · rintro ⟨v, rfl, hv⟩
      exact ⟨w ++ v, rfl, v, rfl, hv⟩

/-! ## Shortest texts -/

def width : List (Token α) → Nat
  | [] => 0
  | any :: p => width p
  | one :: p => width p + 1
  | lit _ :: p => width p + 1

/-- The shortest text with `x` for every `one`. -/
def least (x : α) : List (Token α) → List α
  | [] => []
  | any :: p => least x p
  | one :: p => x :: least x p
  | lit c :: p => c :: least x p

theorem least_append : least x (p ++ q) = least x p ++ least x q := by
  induction p with
  | nil => rfl
  | cons k p ih => cases k <;> simp [least, ih]

@[simp] theorem least_literals : least x (w.map lit) = w := by
  induction w with
  | nil => rfl
  | cons c w ih => simp [least, ih]

@[simp] theorem length_least : (least x p).length = width p := by
  induction p with
  | nil => rfl
  | cons k p ih => cases k <;> simp [least, width, ih]

theorem width_append : width (p ++ q) = width p + width q := by
  induction p with
  | nil => simp [width]
  | cons k p ih => cases k <;> simp [width, ih] <;> omega

@[simp] theorem width_literals : width (w.map (lit (α := α))) = w.length := by
  induction w with
  | nil => rfl
  | cons c w ih => simp [width, ih]

theorem matches_least (x : α) (p : List (Token α)) : Matches p (least x p) := by
  induction p with
  | nil => rfl
  | cons k p ih =>
    cases k with
    | any => exact ⟨_, suffix_refl _, ih⟩
    | one => exact ⟨x, _, rfl, ih⟩
    | lit c => exact ⟨_, rfl, ih⟩

theorem width_le_of_matches (h : Matches p t) : width p ≤ t.length := by
  induction p generalizing t with
  | nil => exact Nat.zero_le _
  | cons k p ih =>
    cases k with
    | any =>
      obtain ⟨v, hv, h⟩ := h
      exact (ih h).trans hv.length_le
    | one =>
      obtain ⟨c, v, rfl, h⟩ := h
      exact Nat.succ_le_succ (ih h)
    | lit c =>
      obtain ⟨v, rfl, h⟩ := h
      exact Nat.succ_le_succ (ih h)

theorem length_eq_of_matches (hp : any ∉ p) (h : Matches p t) : t.length = width p := by
  induction p generalizing t with
  | nil => simpa [width] using h
  | cons k p ih =>
    cases k with
    | any => exact absurd (.head _) hp
    | one =>
      obtain ⟨c, v, rfl, h⟩ := h
      simp [width, ih (fun h => hp (.tail _ h)) h]
    | lit c =>
      obtain ⟨v, rfl, h⟩ := h
      simp [width, ih (fun h => hp (.tail _ h)) h]

theorem eq_any_of_width (h : width p = 0) : ∀ k ∈ p, k = any := by
  induction p with
  | nil => simp
  | cons k p ih =>
    cases k with
    | any => simpa using ih h
    | one => simp [width] at h
    | lit c => simp [width] at h

/-- Only `one`s stand before the first `any`, and there is one. -/
def Loose (p : List (Token α)) : Prop := ∃ m q, p = List.replicate m one ++ any :: q

theorem Loose.mono (hp : Loose p) (hv : v <:+ t) (h : Matches p v) : Matches p t := by
  obtain ⟨m, q, rfl⟩ := hp
  induction m generalizing v t with
  | zero =>
    obtain ⟨w, hw, h⟩ := h
    exact ⟨w, hw.trans hv, h⟩
  | succ m ih =>
    obtain ⟨c, v, rfl, h⟩ := h
    obtain ⟨pre, rfl⟩ := hv
    -- The text begins with some symbol, and what follows it still ends with `v`.
    cases pre with
    | nil => exact ⟨c, v, rfl, h⟩
    | cons d pre =>
      refine ⟨d, pre ++ c :: v, rfl, ih ?_ h⟩
      exact ⟨pre ++ [c], by simp⟩

/-- A pattern that is not loose has, behind its `one`s, nothing or a literal. -/
theorem split_of_not_loose (h : ¬ Loose p) :
    ∃ m, p = List.replicate m one ∨ ∃ c q, p = List.replicate m one ++ lit c :: q := by
  induction p with
  | nil => exact ⟨0, .inl rfl⟩
  | cons k p ih =>
    cases k with
    | any => exact absurd ⟨0, p, rfl⟩ h
    | lit c => exact ⟨0, .inr ⟨c, p, rfl⟩⟩
    | one =>
      have hp : ¬ Loose p := by
        rintro ⟨m, q, rfl⟩
        exact h ⟨m + 1, q, rfl⟩
      obtain ⟨m, rfl | ⟨c, q, rfl⟩⟩ := ih hp
      · exact ⟨m + 1, .inl rfl⟩
      · exact ⟨m + 1, .inr ⟨c, q, rfl⟩⟩

theorem matches_replicate_append {m : Nat} :
    Matches (List.replicate m one ++ p) t ↔ ∃ u v, t = u ++ v ∧ u.length = m ∧ Matches p v := by
  induction m generalizing t with
  | zero => simp
  | succ m ih =>
    simp only [replicate_succ, cons_append, matches_one, ih]
    constructor
    · rintro ⟨c, _, rfl, u, v, rfl, rfl, hv⟩
      exact ⟨c :: u, v, rfl, rfl, hv⟩
    · rintro ⟨_ | ⟨c, u⟩, v, rfl, hu, hv⟩
      · cases hu
      · exact ⟨c, u ++ v, rfl, u, v, rfl, Nat.succ.inj hu, hv⟩

/-- `a ++ w ++ r` and `a ++ w ++ c ++ s` have different languages unless `r` begins with `c` as well. The
first text to look at is a shortest one; if `r` begins with an `any`, a second one has another symbol in
its place. -/
theorem matches_diverge {a r s : List (Token α)} (hr : ∀ z, r ≠ lit c :: z) (hw : w ≠ [] ∨ ∀ z, r ≠ any :: z)
    (hxw : x ∉ w) (hxc : x ≠ c) (h1 : Matches (a ++ (w.map lit ++ lit c :: s)) (least x (a ++ (w.map lit ++ r))))
    (h2 : Matches (a ++ (w.map lit ++ r)) (least x (a ++ (w.map lit ++ lit c :: s))))
    (h3 : ∀ z, r = any :: z → Matches (a ++ (w.map lit ++ lit c :: s)) (least x a ++ (w ++ x :: least x z))) :
    False := by
  have hle := width_le_of_matches h1
  have hge := width_le_of_matches h2
  simp only [length_least, width_append, width_literals, width] at hle hge
  have hwidth : width r = width s + 1 := by omega
  -- In a shortest text nothing is left for an `any` of the other pattern.
  obtain ⟨u, v, htext, hu, hv⟩ := matches_append.mp h1
  obtain ⟨v, rfl, v', rfl, hv'⟩ := matches_literals_append.mp hv
  have hlu := width_le_of_matches hu
  have hlv := width_le_of_matches hv'
  have hlen := congrArg List.length htext
  simp only [least_append, least_literals, length_append, length_least, length_cons] at hlen
  rw [least_append, least_append, least_literals] at htext
  have hua : u.length = (least x a).length := by rw [length_least]; omega
  obtain ⟨-, hrest⟩ := append_inj htext hua.symm
  replace hrest := append_cancel_left hrest
  cases r with
  | nil => cases hrest
  | cons k z =>
    cases k with
    | one => exact hxc (List.cons.inj hrest).1
    | lit d => exact hr z (by rw [(List.cons.inj hrest).1])
    | any =>
      have hwne : w ≠ [] := hw.resolve_right fun h => h z rfl
      obtain ⟨u, v, htext, hu, hv⟩ := matches_append.mp (h3 z rfl)
      obtain ⟨v, rfl, v', rfl, hv'⟩ := matches_literals_append.mp hv
      have hlu := width_le_of_matches hu
      have hlv := width_le_of_matches hv'
      have hlen := congrArg List.length htext
      simp only [length_append, length_least, length_cons] at hlen
      simp only [width] at hwidth
      -- The other pattern has at most one symbol to spare, in its part `a`. The symbol `x` then meets one
      -- of the literals.
      rcases Nat.lt_or_ge (width a) u.length with hlt | hge
      · obtain ⟨d, w, rfl⟩ := exists_cons_of_ne_nil hwne
        have hsplit : least x a ++ [d] ++ (w ++ x :: least x z) = u ++ (d :: w ++ c :: v') := by
          simpa using htext
        obtain ⟨-, hrest⟩ := append_inj hsplit (by simp; omega)
        have hrest' : (w ++ [x]) ++ least x z = (d :: w) ++ c :: v' := by simpa using hrest
        obtain ⟨heq, -⟩ := append_inj hrest' (by simp)
        exact hxw (heq ▸ by simp)
      · have hua : (least x a).length = u.length := by omega
        obtain ⟨-, hrest⟩ := append_inj htext hua
        replace hrest := append_cancel_left hrest
        exact hxc (List.cons.inj hrest).1

end Otterio.Pattern
