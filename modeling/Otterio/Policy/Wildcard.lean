import Otterio.Lib.Wildcard
import Otterio.Policy.Condition

/-!
# What `Match` and `MatchSimple` decide

`pkg/wildcard/match.go`. Both functions read their arguments as sequences of runes and share one matcher.

* In extended mode the matcher decides the relation `Wildcard.Matches` (`deepMatchRune_iff`), so `Match`
  decides the language of the pattern.
* In simple mode it does the same on a pattern without `?` (`deepMatchRune_simple`). A `?` of the pattern
  still drops one rune of the name, whatever it is: the name `sample pattern`, in which each `?` has become
  an `x`, is accepted though no `?` occurs in it (`deepMatchRune_sample`).
-/

namespace Otterio

open Wildcard

/-! ## The matcher and the relation -/

variable {rest : List Char → Option Bool}

theorem matchStar_iff (hsome : ∀ str, (rest str).isSome) (str : List Char) :
    matchStar rest str = some true ↔ ∃ u t, str = u ++ t ∧ rest t = some true := by
  induction str with
  | nil => simp [matchStar]
  | cons c str ih =>
    obtain ⟨b, hb⟩ := Option.isSome_iff_exists.mp (hsome (c :: str))
    cases b with
    | true => simpa [matchStar, hb] using ⟨[], c :: str, rfl, hb⟩
    | false =>
      simp only [matchStar, hb, Option.bind_eq_bind, Option.bind_some, Bool.false_eq_true, if_false, ih]
      constructor
      · rintro ⟨u, t, rfl, ht⟩
        exact ⟨c :: u, t, rfl, ht⟩
      · rintro ⟨u, t, hut, ht⟩
        cases u with
        | nil =>
          rw [List.nil_append] at hut
          rw [← hut, hb] at ht
          cases ht
        | cons d u =>
          obtain ⟨rfl, rfl⟩ : c = d ∧ str = u ++ t := by simpa using hut
          exact ⟨u, t, rfl, ht⟩

theorem deepMatchRune_iff (pattern str : List Char) :
    deepMatchRune false pattern str = some true ↔ Matches '*' '?' pattern str := by
  induction pattern generalizing str with
  | nil =>
    cases str with
    | nil => simpa [deepMatchRune] using Matches.nil
    | cons c str => simpa [deepMatchRune] using fun h => List.cons_ne_nil c str (Matches.eq_nil h)
  | cons p pattern ih =>
    by_cases hp : p = '*'
    · subst hp
      unfold deepMatchRune
      rw [if_pos rfl, matchStar_iff (deepMatchRune_extended pattern), Matches.star_iff]
      simp only [ih]
    · unfold deepMatchRune
      rw [if_neg hp]
      by_cases hq : p = '?'
      · subst hq
        cases str with
        | nil =>
          have hnil : ¬ Matches '*' '?' ('?' :: pattern) [] := by
            intro h
            cases h
          simpa using hnil
        | cons c str =>
          simp only [decide_true, Bool.true_or, if_true, ih]
          constructor
          · exact .single c
          · intro h
            cases h with
            | single _ h => exact h
            | literal _ h => exact h
      · rw [Matches.literal_iff hp hq]
        cases str with
        | nil => simp [hq]
        | cons c str =>
          by_cases hc : c = p
          · subst hc
            simp [ih]
          · simp [hq, hc]

theorem wildcardMatch_iff (pattern name : String) :
    wildcardMatch pattern name = true ↔ Matches '*' '?' pattern.toList name.toList := by
  rw [← deepMatchRune_iff, wildcardMatch]
  split
  · next h =>
    subst h
    simp [deepMatchRune]
  · split
    · next h =>
      subst h
      have h : ("*" : String).toList = ['*'] := rfl
      simp only [h, deepMatchRune_iff, true_iff]
      exact Matches.star_iff.mpr ⟨name.toList, [], (List.append_nil _).symm, .nil⟩
    · obtain ⟨b, hb⟩ := Option.isSome_iff_exists.mp
        (deepMatchRune_extended pattern.toList name.toList)
      simp [hb]

theorem wildcardMatch_refl (pattern : String) : wildcardMatch pattern pattern = true :=
  (wildcardMatch_iff _ _).mpr (.refl _ _ _)

theorem wildcardMatch_trans {p q s : String} (h1 : '?' ∉ p.toList) (hpq : wildcardMatch p q = true)
    (hqs : wildcardMatch q s = true) : wildcardMatch p s = true := by
  rw [wildcardMatch_iff] at *
  exact hpq.trans h1 hqs

/-- `wildcard.Match`: `*` is any sequence of runes, `?` any rune, every other rune itself. -/
theorem wildcardMatch_decides_language (pattern name : String) :
    wildcardMatch pattern name = true ↔ name.toList ∈ language '*' '?' pattern.toList := by
  rw [wildcardMatch_iff]
  exact matches_iff_language (by decide) _ _

/-! ## Simple patterns -/

theorem deepMatchRune_simple {pattern : List Char} (h : '?' ∉ pattern) (str : List Char) :
    deepMatchRune true pattern str = deepMatchRune false pattern str := by
  induction pattern generalizing str with
  | nil => rfl
  | cons p pattern ih =>
    have hp : p ≠ '?' := fun hp => h (hp ▸ .head _)
    have ih := ih fun hm => h (.tail _ hm)
    unfold deepMatchRune
    rw [funext ih]
    by_cases hs : p = '*'
    · rw [if_pos hs, if_pos hs]
    · cases str with
      | nil => simp [hp]
      | cons c str => rfl

theorem matchSimple_eq {pattern name : String} (h : '?' ∉ pattern.toList) :
    matchSimple pattern name = some (wildcardMatch pattern name) := by
  rw [matchSimple, wildcardMatch]
  split_ifs
  · rfl
  · rfl
  · obtain ⟨b, hb⟩ := Option.isSome_iff_exists.mp (deepMatchRune_extended pattern.toList name.toList)
    rw [deepMatchRune_simple h, hb]
    rfl

/-- A name for the pattern: the stars stand for nothing and a `?` for an `x`. -/
def sample : List Char → List Char
  | [] => []
  | p :: pattern => if p = '*' then sample pattern else (if p = '?' then 'x' else p) :: sample pattern

theorem not_mem_sample (pattern : List Char) : '?' ∉ sample pattern := by
  induction pattern with
  | nil => exact List.not_mem_nil
  | cons p pattern ih =>
    rw [sample]
    split_ifs with hs hq
    · exact ih
    · simpa using ih
    · simpa [Ne.symm hq] using ih

theorem matchStar_of_rest {str : List Char} (h : rest str = some true) :
    matchStar rest str = some true := by
  cases str with
  | nil => exact h
  | cons c str => simp [matchStar, h]

theorem deepMatchRune_sample (pattern : List Char) : deepMatchRune true pattern (sample pattern) = some true := by
  induction pattern with
  | nil => rfl
  | cons p pattern ih =>
    unfold deepMatchRune sample
    by_cases hs : p = '*'
    · rw [if_pos hs, if_pos hs]
      exact matchStar_of_rest ih
    · rw [if_neg hs, if_neg hs]
      by_cases hq : p = '?'
      · simpa [hq] using ih
      · simpa [hq] using ih

/-- `wildcard.MatchSimple` does what it documents, for all names, if and only if the pattern has no `?`. -/
theorem matchSimple_decides_iff (pattern : String) : (∀ name : String, ∃ b, matchSimple pattern name = some b ∧
      (b = true ↔ name.toList ∈ starLanguage '*' pattern.toList)) ↔ '?' ∉ pattern.toList := by
  constructor
  · intro h hq
    obtain ⟨b, hb, hl⟩ := h (String.ofList (sample pattern.toList))
    have hempty : pattern ≠ "" := by
      rintro rfl
      cases hq
    have hstar : pattern ≠ "*" := by
      rintro rfl
      exact absurd hq (by decide)
    rw [matchSimple, if_neg hempty, if_neg hstar, String.toList_ofList, deepMatchRune_sample] at hb
    cases hb
    rw [String.toList_ofList] at hl
    exact not_mem_sample _ (mem_of_starLanguage (by decide) hq (hl.mp rfl))
  · intro h name
    refine ⟨_, matchSimple_eq h, ?_⟩
    rw [starLanguage_eq h, wildcardMatch_iff]
    exact matches_iff_language (by decide) _ _

/-- A `?` against the end of the name panics, and against another rune it matches. -/
theorem matchSimple_question : matchSimple "a?" "a" = none ∧ matchSimple "a?" "ab" = some true ∧
      ['a', 'b'] ∉ starLanguage '*' ['a', '?'] := by
  refine ⟨by decide, by decide, fun h => ?_⟩
  exact absurd (mem_of_starLanguage (c := '?') (by decide) (by decide) h) (by decide)

end Otterio
