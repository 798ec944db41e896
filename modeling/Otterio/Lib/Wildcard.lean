import Mathlib

/-!
# Wildcard patterns

A pattern is a text over the same alphabet as the texts it matches. The symbol `star` stands for any
text, `one` for any single symbol, and every other symbol for itself.

* A pattern is a text of its own language (`Matches.refl`).
* `Matches.trans`: if `p` has no `one` and matches the pattern `q`, taken as a text, then it matches every
  text that `q` matches. With a `one` in `p` this fails: `one` matches the text `star`.
* `Matches.append_of_last`: a pattern that matches a text which ends with a symbol it does not end with
  itself also matches every longer text.
* `language`: the same as a language, the product of what the symbols of the pattern stand for
  (`matches_iff_language`); `starLanguage` has no symbol for one symbol. The two agree on a pattern
  without `one` (`starLanguage_eq`), and a symbol of the pattern that stands for itself occurs in every
  text of the language (`mem_of_starLanguage`).
-/

namespace Otterio.Wildcard

open List

variable {α : Type} {star one : α}

/-- `Matches star one p s`: the pattern `p` matches the text `s`. -/
inductive Matches (star one : α) : List α → List α → Prop
  | nil : Matches star one [] []
  | skip {p s : List α} : Matches star one p s → Matches star one (star :: p) s
  | absorb {p s : List α} (c : α) :
      Matches star one (star :: p) s → Matches star one (star :: p) (c :: s)
  | single {p s : List α} (c : α) : Matches star one p s → Matches star one (one :: p) (c :: s)
  | literal {p s : List α} {c : α} (hc : c ≠ star) :
      Matches star one p s → Matches star one (c :: p) (c :: s)

namespace Matches

variable {p q s t : List α} {c : α}

theorem eq_nil (h : Matches star one [] s) : s = [] := by
  cases h
  rfl

theorem star_append (u : List α) (h : Matches star one (star :: p) s) : Matches star one (star :: p) (u ++ s) := by
  induction u with
  | nil => exact h
  | cons c u ih => exact .absorb c ih

theorem star_of_suffix (u : List α) (h : Matches star one p s) : Matches star one (star :: p) (u ++ s) :=
  star_append u (.skip h)

theorem star_iff : Matches star one (star :: p) s ↔ ∃ u t, s = u ++ t ∧ Matches star one p t := by
  constructor
  · intro h
    generalize hq : star :: p = q at h
    induction h with
    | nil => cases hq
    | @skip p' s h =>
      cases hq
      exact ⟨[], s, rfl, h⟩
    | absorb c _ ih =>
      cases hq
      obtain ⟨u, t, rfl, ht⟩ := ih rfl
      exact ⟨c :: u, t, rfl, ht⟩
    | @single p' s c h =>
      cases hq
      exact ⟨[c], s, rfl, h⟩
    | literal hc => cases hq; exact absurd rfl hc
  · rintro ⟨u, t, rfl, ht⟩
    exact star_of_suffix u ht

theorem of_cons (h : Matches star one (c :: p) s) : ∃ u t, s = u ++ t ∧ Matches star one p t := by
  cases h with
  | @skip _ s h => exact ⟨[], s, rfl, h⟩
  | @absorb _ s d h =>
    obtain ⟨u, t, rfl, ht⟩ := star_iff.mp h
    exact ⟨d :: u, t, rfl, ht⟩
  | @single _ s d h => exact ⟨[d], s, rfl, h⟩
  | @literal _ s _ _ h => exact ⟨[c], s, rfl, h⟩

theorem literal_iff (hs : c ≠ star) (h1 : c ≠ one) :
    Matches star one (c :: p) s ↔ ∃ t, s = c :: t ∧ Matches star one p t := by
  constructor
  · intro h
    cases h with
    | skip => exact absurd rfl hs
    | absorb => exact absurd rfl hs
    | single => exact absurd rfl h1
    | @literal _ t _ _ h => exact ⟨t, rfl, h⟩
  · rintro ⟨t, rfl, ht⟩
    exact .literal hs ht

theorem refl (star one : α) (p : List α) : Matches star one p p := by
  induction p with
  | nil => exact .nil
  | cons c p ih =>
    by_cases hc : c = star
    · subst hc
      exact .absorb c (.skip ih)
    · exact .literal hc ih

/-- What a pattern without `one` matches as a text, it contains as a pattern. -/
theorem trans (h1 : one ∉ p) (hpq : Matches star one p q) (hqs : Matches star one q s) : Matches star one p s := by
  -- The induction follows the match of `q`: a symbol of `q` that a star of `p` absorbed stands for a
  -- piece of `s`, and the star absorbs that piece.
  induction hpq generalizing s with
  | nil => exact hqs
  | skip _ ih => exact .skip (ih (fun h => h1 (.tail _ h)) hqs)
  | absorb c _ ih =>
    obtain ⟨u, t, rfl, ht⟩ := hqs.of_cons
    exact star_append u (ih h1 ht)
  | single => exact absurd (.head _) h1
  | @literal p q c hc _ ih =>
    have hone : c ≠ one := fun h => h1 (h ▸ .head _)
    obtain ⟨t, rfl, ht⟩ := (literal_iff hc hone).mp hqs
    exact .literal hc (ih (fun h => h1 (.tail _ h)) ht)

theorem eq_of_literal (hs : star ∉ p) (h1 : one ∉ p) (h : Matches star one p s) : s = p := by
  induction h with
  | nil => rfl
  | skip => exact absurd (.head _) hs
  | absorb => exact absurd (.head _) hs
  | single => exact absurd (.head _) h1
  | literal _ _ ih => rw [ih (fun h => hs (.tail _ h)) (fun h => h1 (.tail _ h))]

theorem literal_append_iff (hs : star ∉ p) (h1 : one ∉ p) :
    Matches star one (p ++ q) s ↔ ∃ t, s = p ++ t ∧ Matches star one q t := by
  induction p generalizing s with
  | nil => simp
  | cons c p ih =>
    have hcs : c ≠ star := fun h => hs (h ▸ .head _)
    have hc1 : c ≠ one := fun h => h1 (h ▸ .head _)
    rw [cons_append, literal_iff hcs hc1]
    constructor
    · rintro ⟨t, rfl, ht⟩
      obtain ⟨u, rfl, hu⟩ := (ih (fun h => hs (.tail _ h)) fun h => h1 (.tail _ h)).mp ht
      exact ⟨u, rfl, hu⟩
    · rintro ⟨t, rfl, ht⟩
      exact ⟨p ++ t, rfl, (ih (fun h => hs (.tail _ h)) fun h => h1 (.tail _ h)).mpr ⟨t, rfl, ht⟩⟩

/-- A pattern other than the empty one that matches the empty text begins with a star. -/
theorem of_nil (h : Matches star one (c :: p) []) (t : List α) : Matches star one (c :: p) t := by
  cases h with
  | skip h => simpa using star_of_suffix t h

/-- The last symbol of the text can only have been absorbed by a last star, which then absorbs more. -/
theorem append_of_last (h1 : one ∉ p) (hlast : p.getLast? ≠ some c) (h : Matches star one p (s ++ [c]))
    (t : List α) : Matches star one p (s ++ [c] ++ t) := by
  generalize hq : s ++ [c] = q at h
  induction h generalizing s with
  | nil => simp at hq
  | @skip p q h ih =>
    exact .skip (ih (fun h => h1 (.tail _ h)) (fun hp => hlast (mem_getLast?_cons hp)) hq)
  | @absorb p q d h ih =>
    cases s with
    | nil =>
      obtain ⟨rfl, rfl⟩ : c = d ∧ [] = q := by simpa using hq
      exact .absorb c (of_nil h t)
    | cons e s =>
      obtain ⟨rfl, rfl⟩ : e = d ∧ s ++ [c] = q := by simpa using hq
      exact .absorb e (ih h1 hlast rfl)
  | single => exact absurd (.head _) h1
  | @literal p q d hd h ih =>
    cases s with
    | nil =>
      obtain ⟨rfl, rfl⟩ : c = d ∧ [] = q := by simpa using hq
      cases p with
      | nil => simp at hlast
      | cons b p => exact .literal hd (of_nil h t)
    | cons e s =>
      obtain ⟨rfl, rfl⟩ : e = d ∧ s ++ [c] = q := by simpa using hq
      exact .literal hd (ih (fun h => h1 (.tail _ h)) (fun hp => hlast (mem_getLast?_cons hp)) rfl)

end Matches

/-! ## Languages -/

section Language

variable [DecidableEq α]

def meaning (star one c : α) : Language α :=
  (if c = star then Set.univ else if c = one then {w | w.length = 1} else {[c]} : Set (List α))

def language (star one : α) (p : List α) : Language α := (p.map (meaning star one)).prod

/-- What a symbol stands for if `star` is the only special symbol. -/
def starMeaning (star c : α) : Language α := (if c = star then Set.univ else {[c]} : Set (List α))

/-- The language of a pattern in which `star` is the only special symbol. -/
def starLanguage (star : α) (p : List α) : Language α := (p.map (starMeaning star)).prod

theorem mem_meaning_star (u : List α) : u ∈ meaning star one star := by
  show u ∈ (if star = star then Set.univ else _ : Set (List α))
  rw [if_pos rfl]
  trivial

variable {u : List α}

theorem mem_meaning_one (hne : one ≠ star) : u ∈ meaning star one one ↔ u.length = 1 := by
  show u ∈ (if one = star then _ else if one = one then {w | w.length = 1} else _ : Set (List α)) ↔ _
  rw [if_neg hne, if_pos rfl]
  exact Iff.rfl

variable {c : α}

theorem mem_meaning_literal (hs : c ≠ star) (h1 : c ≠ one) : u ∈ meaning star one c ↔ u = [c] := by
  show u ∈ (if c = star then _ else if c = one then _ else {[c]} : Set (List α)) ↔ _
  rw [if_neg hs, if_neg h1]
  exact Iff.rfl

theorem mem_starMeaning (hs : c ≠ star) : u ∈ starMeaning star c ↔ u = [c] := by
  show u ∈ (if c = star then _ else {[c]} : Set (List α)) ↔ _
  rw [if_neg hs]
  exact Iff.rfl

variable {p s : List α}

theorem mem_starLanguage_cons : s ∈ starLanguage star (c :: p) ↔
      ∃ u ∈ starMeaning star c, ∃ t ∈ starLanguage star p, u ++ t = s := by
  exact Language.mem_mul

theorem matches_iff_language (hne : one ≠ star) (p s : List α) : Matches star one p s ↔ s ∈ language star one p := by
  induction p generalizing s with
  | nil =>
    constructor
    · exact Matches.eq_nil
    · rintro rfl
      exact .nil
  | cons c p ih =>
    by_cases hs : c = star
    · subst hs
      rw [Matches.star_iff]
      constructor
      · rintro ⟨u, t, rfl, ht⟩
        exact ⟨u, mem_meaning_star u, t, (ih t).mp ht, rfl⟩
      · rintro ⟨u, -, t, ht, rfl⟩
        exact ⟨u, t, rfl, (ih t).mpr ht⟩
    by_cases h1 : c = one
    · subst h1
      constructor
      · intro h
        cases h with
        | skip => exact absurd rfl hs
        | absorb => exact absurd rfl hs
        | @single _ t d h =>
          exact ⟨[d], (mem_meaning_one hs).mpr rfl, t, (ih t).mp h, rfl⟩
        | @literal _ t _ _ h =>
          exact ⟨[c], (mem_meaning_one hs).mpr rfl, t, (ih t).mp h, rfl⟩
      · rintro ⟨u, hu, t, ht, rfl⟩
        obtain ⟨d, rfl⟩ := length_eq_one_iff.mp ((mem_meaning_one hs).mp hu)
        exact .single d ((ih t).mpr ht)
    · rw [Matches.literal_iff hs h1]
      constructor
      · rintro ⟨t, rfl, ht⟩
        exact ⟨[c], (mem_meaning_literal hs h1).mpr rfl, t, (ih t).mp ht, rfl⟩
      · rintro ⟨u, hu, t, ht, rfl⟩
        obtain rfl := (mem_meaning_literal hs h1).mp hu
        exact ⟨t, rfl, (ih t).mpr ht⟩

/-- Without a symbol for one symbol the two languages of a pattern are the same. -/
theorem starLanguage_eq (h1 : one ∉ p) : starLanguage star p = language star one p := by
  rw [starLanguage, language]
  congr 1
  apply map_congr_left
  intro c hc
  have hne : c ≠ one := fun h => h1 (h ▸ hc)
  rw [starMeaning, meaning, if_neg hne]

theorem mem_of_starLanguage (hc : c ≠ star) (hp : c ∈ p) (h : s ∈ starLanguage star p) : c ∈ s := by
  induction p generalizing s with
  | nil => cases hp
  | cons d p ih =>
    obtain ⟨u, hu, t, ht, rfl⟩ := mem_starLanguage_cons.mp h
    rw [mem_append]
    rcases mem_cons.mp hp with rfl | hp
    · obtain rfl := (mem_starMeaning hc).mp hu
      exact .inl (.head _)
    · exact .inr (ih hp ht)

end Language

end Otterio.Wildcard
