import Otterio.Select.Like

/-!
# The pass of LIKE over a text

`tokens` is the meaning of a pattern with its ESCAPE character. `pass` works tokens off in one go and looks
for the first occurrence of literals only.

* `pass_of_matches`: it accepts the whole language if the tokens are `Settled`. Literals after a percent
  may be found too early; this does no harm if the pattern goes on with another percent, or with
  underscores and another percent.
-/

namespace Otterio.Select

open Otterio.Pattern Otterio.Pattern.Token
open List hiding any

variable {R F ε : Type}

/-! ## The meaning of a pattern -/

/-- What a character that is not escaped stands for. -/
def symbol (c : Char) : Token Char :=
  if c = percent then any else if c = underscore then one else lit c

/-- The tokens of a pattern, or `none` if an escape character is dangling or misplaced. -/
def tokens (esc : Option Char) : List Char → Option (List (Token Char))
  | [] => some []
  | [c] => if esc = some c then none else some [symbol c]
  | c :: d :: p =>
    if esc = some c then
      if d = percent ∨ d = underscore ∨ d = c then (tokens esc p).map (lit d :: ·) else none
    else (tokens esc (d :: p)).map (symbol c :: ·)

variable {esc : Option Char} {c : Char}

theorem tokens_cons (hc : esc ≠ some c) (p : List Char) :
    tokens esc (c :: p) = (tokens esc p).map (symbol c :: ·) := by
  cases p with
  | nil => simp [tokens, hc]
  | cons d p => rw [tokens, if_neg hc]

variable {d : Char}

theorem tokens_escaped (hd : d = percent ∨ d = underscore ∨ d = c) (p : List Char) :
    tokens (some c) (c :: d :: p) = (tokens (some c) p).map (lit d :: ·) := by
  rw [tokens, if_pos rfl, if_pos hd]

variable {T : List (Token Char)} {p : List Char}

/-- After an escape character a pattern that has a meaning goes on with a character that may be
escaped. -/
theorem exists_of_tokens_escape (h : tokens (some c) (c :: p) = some T) :
    ∃ d p' T', p = d :: p' ∧ (d = percent ∨ d = underscore ∨ d = c) ∧ tokens (some c) p' = some T' ∧
      T = lit d :: T' := by
  cases p with
  | nil => simp [tokens] at h
  | cons d p =>
    rw [tokens, if_pos rfl] at h
    split_ifs at h with hd
    obtain ⟨T', hT', rfl⟩ := Option.map_eq_some_iff.mp h
    exact ⟨d, p, T', rfl, hd, hT', rfl⟩

theorem exists_of_tokens_cons (hc : esc ≠ some c) (h : tokens esc (c :: p) = some T) :
    ∃ T', tokens esc p = some T' ∧ T = symbol c :: T' := by
  rw [tokens_cons hc] at h
  obtain ⟨T', hT', rfl⟩ := Option.map_eq_some_iff.mp h
  exact ⟨T', hT', rfl⟩

variable {a : List Char}

theorem tokens_append (ha : ∀ c ∈ a, esc ≠ some c) (b : List Char) :
    tokens esc (a ++ b) = (tokens esc b).map (a.map symbol ++ ·) := by
  induction a with
  | nil => simp
  | cons c a ih =>
    rw [cons_append, tokens_cons (ha c (.head _)), ih fun c hc => ha c (.tail _ hc), Option.map_map]
    rfl

theorem tokens_eq_map (ha : ∀ c ∈ a, esc ≠ some c) : tokens esc a = some (a.map symbol) := by
  have h := tokens_append ha []
  simpa [tokens] using h

@[simp] theorem symbol_percent : symbol percent = any := by simp [symbol]

@[simp] theorem symbol_underscore : symbol underscore = one := by
  simp [symbol, underscore_ne_percent]

theorem symbol_eq_lit (hp : c ≠ percent) (hu : c ≠ underscore) : symbol c = lit c := by
  simp [symbol, hp, hu]

theorem symbol_eq_any : symbol c = any ↔ c = percent := by
  unfold symbol
  split_ifs <;> simp_all

theorem symbol_ne_lit_of_escapable (hc : c = percent ∨ c = underscore) : symbol c ≠ lit d := by
  rcases hc with rfl | rfl
  · simp
  · simp

theorem symbol_ne_lit (h : c ≠ d) : symbol c ≠ lit d := by
  unfold symbol
  split_ifs <;> simp [h]

theorem eq_percent_of_tokens (h : tokens esc p = some T) (hT : ∀ k ∈ T, k = any) :
    ∀ c ∈ p, c = percent := by
  induction p generalizing T with
  | nil => simp
  | cons c p ih =>
    by_cases hc : esc = some c
    · subst hc
      obtain ⟨d, p', T', -, -, -, rfl⟩ := exists_of_tokens_escape h
      cases hT _ (.head _)
    · obtain ⟨T', hT', rfl⟩ := exists_of_tokens_cons hc h
      have hsymbol := symbol_eq_any.mp (hT _ (.head _))
      simpa [hsymbol] using ih hT' fun k hk => hT k (.tail _ hk)

/-! ## The pass over the text

`front lead ++ s.map lit ++ p` is the pattern that is still to be matched in a state of the pass. -/

def front (lead : Bool) : List (Token Char) := if lead then [any] else []

variable {lead : Bool} {p : List (Token Char)} {t : List Char}

theorem matches_front :
    Matches (front lead ++ p) t ↔ ∃ pre v, t = pre ++ v ∧ (lead = false → pre = []) ∧ Matches p v := by
  cases lead with
  | false => simp [front]
  | true =>
    constructor
    · rintro ⟨v, ⟨pre, rfl⟩, hv⟩
      exact ⟨pre, v, rfl, fun h => (by cases h), hv⟩
    · rintro ⟨pre, v, rfl, -, hv⟩
      exact ⟨v, suffix_append pre v, hv⟩

/-- One more symbol for a `one`: without a leading percent it is the first, with one any will do. -/
theorem matches_front_one (h : Matches (front lead ++ p) t) (c : Char) :
    Matches (front lead ++ one :: p) (c :: t) := by
  obtain ⟨pre, v, rfl, hpre, hv⟩ := matches_front.mp h
  rw [matches_front]
  rcases eq_nil_or_concat pre with rfl | ⟨pre, d, rfl⟩
  · exact ⟨[], c :: v, by simp, fun _ => rfl, by simpa using hv⟩
  · refine ⟨c :: pre, d :: v, by simp, fun h => ?_, by simpa using hv⟩
    simpa using hpre h

variable {s : List Char}

theorem matches_front_literals : Matches (front lead ++ (s.map lit ++ p)) t ↔
      ∃ pre v, t = pre ++ (s ++ v) ∧ (lead = false → pre = []) ∧ Matches p v := by
  rw [matches_front]
  constructor
  · rintro ⟨pre, _, rfl, hpre, hv⟩
    obtain ⟨v, rfl, hv'⟩ := matches_literals_append.mp hv
    exact ⟨pre, v, rfl, hpre, hv'⟩
  · rintro ⟨pre, v, rfl, hpre, hv⟩
    exact ⟨pre, s ++ v, rfl, hpre, matches_literals_append.mpr ⟨v, rfl, hv⟩⟩

theorem pass_ok (p : List (Token Char)) (text s : List Char) (lead : Bool) :
    ∃ b, pass (ε := ε) false text s lead p = .ok b := by
  induction p generalizing text s lead with
  | nil => exact ⟨_, rfl⟩
  | cons k p ih =>
    cases k with
    | any =>
      rw [pass]
      split_ifs
      · exact ih ..
      · cases matcher text s lead with
        | none => exact ⟨false, rfl⟩
        | some text => exact ih ..
    | one =>
      rw [pass]
      split_ifs
      · cases dropRune text with
        | none => exact ⟨false, rfl⟩
        | some text => exact ih ..
      · cases matcher text s lead with
        | none => exact ⟨false, rfl⟩
        | some text =>
          cases hd : dropRune text with
          | none => exact ⟨false, by simp [hd]⟩
          | some text' =>
            obtain ⟨b, hb⟩ := ih text' [] false
            exact ⟨b, by simp [hd, hb]⟩
    | lit c => exact ih ..

theorem pass_any_append (malformed : Bool) (s t : List Char) (lead : Bool) (p : List (Token Char)) :
    pass (ε := ε) malformed (s ++ t) s lead (any :: p) = pass malformed t [] true p := by
  rw [pass]
  by_cases hs : s = []
  · rw [if_pos hs, hs, nil_append]
  · rw [if_neg hs, matcher_append hs]

theorem pass_one_append (malformed : Bool) (s : List Char) (c : Char) (t : List Char) (lead : Bool)
    (p : List (Token Char)) :
    pass (ε := ε) malformed (s ++ c :: t) s lead (one :: p) =
      pass malformed t [] (if s = [] then lead else false) p := by
  rw [pass]
  by_cases hs : s = []
  · rw [if_pos hs, if_pos hs, hs]
    rfl
  · rw [if_neg hs, if_neg hs, matcher_append hs]
    rfl

/-- In a shortest text everything is found where it is looked for first. -/
theorem pass_least (malformed : Bool) (x : Char) (p : List (Token Char)) (s : List Char) (lead : Bool) :
    pass (ε := ε) malformed (s ++ least x p) s lead p =
      if malformed then .error .malformedEscapeSequence else .ok true := by
  induction p generalizing s lead with
  | nil =>
    cases malformed with
    | true => rfl
    | false => cases lead <;> simp [pass, least]
  | cons k p ih =>
    cases k with
    | any =>
      rw [least, pass_any_append]
      exact ih [] true
    | one =>
      rw [least, pass_one_append]
      exact ih [] _
    | lit c =>
      rw [pass, least, ← ih (s ++ [c]) lead, append_assoc]
      rfl

variable {text : List Char}

theorem matches_of_pass (h : pass (ε := ε) false text s lead p = .ok true) :
    Matches (front lead ++ (s.map lit ++ p)) text := by
  induction p generalizing text s lead with
  | nil =>
    rw [matches_front_literals]
    cases lead with
    | false =>
      have hs : s = text := by simpa [pass] using h
      exact ⟨[], [], by simp [hs], fun _ => rfl, rfl⟩
    | true =>
      have hs : s <:+ text := by simpa [pass] using h
      obtain ⟨pre, rfl⟩ := hs
      exact ⟨pre, [], by simp, fun h => (by cases h), rfl⟩
  | cons k p ih =>
    cases k with
    | any =>
      rw [pass] at h
      rw [matches_front_literals]
      split_ifs at h with hs
      · refine ⟨[], text, by simp [hs], fun _ => rfl, ?_⟩
        simpa [front] using ih h
      · cases hm : matcher text s lead with
        | none => simp [hm] at h
        | some rest =>
          rw [hm] at h
          obtain ⟨⟨pre, rfl, hpre⟩, -⟩ := matcher_eq_some hs hm
          refine ⟨pre, rest, rfl, hpre, ?_⟩
          simpa [front] using ih h
    | one =>
      rw [pass] at h
      split_ifs at h with hs
      · cases hd : text with
        | nil => simp [hd, dropRune] at h
        | cons c rest =>
          rw [hd] at h
          rw [hs]
          exact matches_front_one (ih h) c
      · cases hm : matcher text s lead with
        | none => simp [hm] at h
        | some rest =>
          rw [hm] at h
          obtain ⟨⟨pre, rfl, hpre⟩, -⟩ := matcher_eq_some hs hm
          cases rest with
          | nil => simp [dropRune] at h
          | cons c rest =>
            rw [matches_front_literals]
            refine ⟨pre, c :: rest, rfl, hpre, ?_⟩
            simpa [front] using ih h
    | lit c =>
      have hp := ih h
      rw [map_append, append_assoc] at hp
      exact hp

/-- Literals, then a `one`, after an `any`: then there is another `any` behind the `one`s. -/
def Settled (lead : Bool) (p : List (Token Char)) : Prop :=
  ∀ a c d, p = a ++ lit c :: one :: d → lead = true ∨ any ∈ a → Loose d

/-- In a settled pattern the first occurrence of the literals is as good as any other. -/
theorem pass_of_matches (hset : Settled lead (s.map lit ++ p))
    (h : Matches (front lead ++ (s.map lit ++ p)) text) : pass (ε := ε) false text s lead p = .ok true := by
  induction p generalizing text s lead with
  | nil =>
    obtain ⟨pre, v, rfl, hpre, hv⟩ := matches_front_literals.mp h
    obtain rfl := matches_nil.mp hv
    cases lead with
    | false => simp [pass, hpre rfl]
    | true => simp [pass]
  | cons k p ih =>
    cases k with
    | any =>
      obtain ⟨pre, v, rfl, hpre, hv⟩ := matches_front_literals.mp h
      have hnext : Settled true ([].map lit ++ p) := by
        rintro a c d h -
        refine hset (s.map lit ++ any :: a) c d ?_ (.inr (by simp))
        simp only [map_nil, nil_append] at h
        simp [h]
      rw [pass]
      split_ifs with hs
      · subst hs
        obtain ⟨w, ⟨pre', rfl⟩, hw⟩ := matches_any.mp hv
        refine ih hnext ?_
        exact matches_front.mpr ⟨pre ++ pre', w, by simp, fun h => (by cases h), hw⟩
      · cases hm : matcher (pre ++ (s ++ v)) s lead with
        | none => exact absurd rfl (matcher_eq_none hs hm pre v hpre)
        | some rest =>
          obtain ⟨w, hwv, hw⟩ := matches_any.mp hv
          obtain ⟨pre', rfl⟩ := hwv.trans ((matcher_eq_some hs hm).2 pre v rfl hpre)
          refine ih hnext ?_
          exact matches_front.mpr ⟨pre', w, rfl, fun h => (by cases h), hw⟩
    | one =>
      obtain ⟨pre, _, rfl, hpre, hone⟩ := matches_front_literals.mp h
      obtain ⟨c, v, rfl, hv⟩ := matches_one.mp hone
      have hnext : ∀ lead', (lead' = true → s = [] ∧ lead = true) → Settled lead' ([].map lit ++ p) := by
        intro lead' hlead' a c d h ha
        simp only [map_nil, nil_append] at h
        refine hset (s.map lit ++ one :: a) c d (by simp [h]) ?_
        rcases ha with ha | ha
        · exact .inl (hlead' ha).2
        · exact .inr (by simp [ha])
      rw [pass]
      split_ifs with hs
      · subst hs
        rw [nil_append]
        -- The dropped symbol is the first one of the text, which comes no later than the one before `v`.
        obtain ⟨pre', hd, hpre'⟩ : ∃ pre', dropRune (pre ++ c :: v) = some (pre' ++ v) ∧
            (lead = false → pre' = []) := by
          cases pre with
          | nil => exact ⟨[], rfl, fun _ => rfl⟩
          | cons d pre =>
            refine ⟨pre ++ [c], by simp [dropRune], fun h => ?_⟩
            cases hpre h
        simp only [hd]
        refine ih (hnext lead fun h => ⟨rfl, h⟩) ?_
        exact matches_front.mpr ⟨pre', v, rfl, hpre', hv⟩
      · cases hm : matcher (pre ++ (s ++ c :: v)) s lead with
        | none => exact absurd rfl (matcher_eq_none hs hm pre (c :: v) hpre)
        | some rest =>
          obtain ⟨⟨pre₀, htext, hpre₀⟩, hfirst⟩ := matcher_eq_some hs hm
          obtain ⟨pre', hrest⟩ := hfirst pre (c :: v) rfl hpre
          -- With a leading percent the rest of the pattern is loose, without one there is no choice.
          obtain ⟨d, rest', rfl, hmatch⟩ : ∃ d rest', rest = d :: rest' ∧ Matches p rest' := by
            cases lead with
            | false =>
              obtain rfl := hpre rfl
              obtain rfl := hpre₀ rfl
              have heq : c :: v = rest := append_cancel_left htext
              exact ⟨c, v, heq.symm, hv⟩
            | true =>
              obtain ⟨s, e, rfl⟩ := eq_nil_or_concat s |>.resolve_left hs
              have hloose : Loose p := hset (s.map lit) e p (by simp) (.inl rfl)
              cases pre' with
              | nil => exact ⟨c, v, hrest.symm, hv⟩
              | cons d pre' =>
                refine ⟨d, pre' ++ c :: v, hrest.symm, hloose.mono ?_ hv⟩
                exact ⟨pre' ++ [c], by simp⟩
          refine ih (hnext false fun h => (by cases h)) ?_
          simpa [front] using hmatch
    | lit c =>
      refine ih ?_ ?_
      · rwa [map_append, append_assoc]
      · rwa [map_append, append_assoc]

/-! ## Patterns on which the first occurrence is the wrong one -/

theorem exists_char_ne (c d : Char) : ∃ x : Char, x ≠ c ∧ x ≠ d := by
  by_cases ha : 'a' ≠ c ∧ 'a' ≠ d
  · exact ⟨'a', ha⟩
  by_cases hb : 'b' ≠ c ∧ 'b' ≠ d
  · exact ⟨'b', hb⟩
  refine ⟨'c', ?_, ?_⟩ <;> grind

variable {a : List (Token Char)}

/-- A literal with a `one` behind it, found behind literals and a wildcard, is behind the wildcard or
right before it. -/
theorem split_wildcard {k : Token Char} {d : List (Token Char)} (hk : k = any ∨ k = one)
    (h : s.map lit ++ k :: p = a ++ lit c :: one :: d) :
    (∃ a', a = s.map lit ++ k :: a' ∧ p = a' ++ lit c :: one :: d) ∨
      (k = one ∧ a ++ [lit c] = s.map lit ∧ d = p) := by
  induction s generalizing a with
  | nil =>
    cases a with
    | nil =>
      rcases hk with rfl | rfl <;> cases h
    | cons k' a =>
      obtain ⟨rfl, rfl⟩ := List.cons.inj h
      exact .inl ⟨a, rfl, rfl⟩
  | cons e s ih =>
    cases a with
    | nil =>
      obtain ⟨he, hrest⟩ := List.cons.inj h
      cases s with
      | nil =>
        obtain ⟨rfl, rfl⟩ := List.cons.inj hrest
        exact .inr ⟨rfl, by simp [he], rfl⟩
      | cons e' s => cases (List.cons.inj hrest).1
    | cons k' a =>
      obtain ⟨rfl, hrest⟩ := List.cons.inj h
      rcases ih hrest with ⟨a', rfl, hp⟩ | ⟨hone, hs, hd⟩
      · exact .inl ⟨a', rfl, hp⟩
      · exact .inr ⟨hone, by simp [hs], hd⟩

theorem any_mem_of_loose {r : List (Token Char)} (h : Loose (a ++ lit c :: r)) : any ∈ a := by
  obtain ⟨m, q, h⟩ := h
  induction a generalizing m with
  | nil => cases m <;> cases h
  | cons k a ih =>
    cases m with
    | zero =>
      obtain ⟨rfl, -⟩ := List.cons.inj h
      exact .head _
    | succ m => exact .tail _ (ih m (List.cons.inj h).2)

/-- Literals after a percent, a `one` and then something that is not loose: the literals occur in the text
where they should, and once before, where the rest does not fit. -/
theorem exists_pass_false_of_not_loose (hs : s ≠ []) (hp : ¬ Loose p) :
    ∃ text, Matches (front true ++ (s.map lit ++ one :: p)) text ∧
      pass (ε := ε) false text s true (one :: p) = .ok false := by
  obtain ⟨m, hm⟩ := split_of_not_loose hp
  obtain ⟨z, hz⟩ : ∃ z : Char, ∀ c q, p = List.replicate m one ++ lit c :: q → z ≠ c := by
    rcases hm with rfl | ⟨c, q, rfl⟩
    · refine ⟨'a', fun c q h => ?_⟩
      have hlen := congrArg List.length h
      simp at hlen
    · obtain ⟨z, hz, -⟩ := exists_char_ne c c
      refine ⟨z, fun c' q' h => ?_⟩
      have heq := append_cancel_left h
      cases heq
      exact hz
  refine ⟨s ++ (List.replicate (m + 2) z ++ (s ++ least z (one :: p))), ?_, ?_⟩
  · rw [matches_front_literals]
    refine ⟨s ++ List.replicate (m + 2) z, least z (one :: p), by simp, fun h => (by cases h), ?_⟩
    exact matches_least z _
  · rw [replicate_succ, cons_append, pass_one_append, if_neg hs]
    obtain ⟨b, hb⟩ := pass_ok (ε := ε) p (List.replicate (m + 1) z ++ (s ++ least z (one :: p))) [] false
    cases b with
    | false => exact hb
    | true =>
      exfalso
      have hmatch : Matches p (List.replicate (m + 1) z ++ (s ++ least z (one :: p))) := by
        simpa [front] using matches_of_pass hb
      have hsplit : List.replicate (m + 1) z ++ (s ++ least z (one :: p)) =
          List.replicate m z ++ (z :: (s ++ least z (one :: p))) := by
        rw [replicate_succ']
        simp
      rw [hsplit] at hmatch
      rcases hm with rfl | ⟨c, q, rfl⟩
      · have hlen := length_eq_of_matches (by simp) hmatch
        have hwidth : width (List.replicate m (one : Token Char)) = m := by
          clear * -
          induction m with
          | zero => rfl
          | succ m ih => simp [replicate_succ, width, ih]
        rw [hwidth] at hlen
        simp at hlen
      · obtain ⟨u, v, huv, hu, hv⟩ := matches_replicate_append.mp hmatch
        obtain ⟨-, rfl⟩ := append_inj huv (by simp [hu])
        obtain ⟨v, hv, -⟩ := matches_lit.mp hv
        exact hz c q rfl (List.cons.inj hv).1

/-- A pattern that is not settled has a text in its language that the pass does not accept. -/
theorem exists_pass_false (hset : ¬ Settled lead (s.map lit ++ p)) :
    ∃ text, Matches (front lead ++ (s.map lit ++ p)) text ∧ pass (ε := ε) false text s lead p = .ok false := by
  induction p generalizing s lead with
  | nil =>
    refine absurd ?_ hset
    intro a c d h
    have hmem : one ∈ s.map (lit (α := Char)) := by
      rw [append_nil] at h
      simp [h]
    simp at hmem
  | cons k p ih =>
    cases k with
    | any =>
      have hnext : ¬ Settled true (([] : List Char).map lit ++ p) := by
        intro hnext
        refine hset fun a c d h _ => ?_
        rcases split_wildcard (.inl rfl) h with ⟨a', -, hp⟩ | ⟨hk, -⟩
        · exact hnext a' c d hp (.inl rfl)
        · cases hk
      obtain ⟨text, hmatch, hpass⟩ := ih hnext
      refine ⟨s ++ text, ?_, (pass_any_append ..).trans hpass⟩
      rw [matches_front_literals]
      exact ⟨[], text, rfl, fun _ => rfl, by simpa [front] using hmatch⟩
    | one =>
      by_cases hdirect : lead = true ∧ s ≠ [] ∧ ¬ Loose p
      · obtain ⟨rfl, hs, hp⟩ := hdirect
        exact exists_pass_false_of_not_loose hs hp
      -- Otherwise the pass goes on behind the `one`, and what is not settled lies there.
      have hnext : ¬ Settled (if s = [] then lead else false) (([] : List Char).map lit ++ p) := by
        intro hnext
        refine hset fun a c d h ha => ?_
        rcases split_wildcard (.inr rfl) h with ⟨a', rfl, hp⟩ | ⟨-, hs, rfl⟩
        · refine hnext a' c d hp ?_
          rcases ha with rfl | ha
          · by_cases hs : s = []
            · exact .inl (if_pos hs)
            · refine .inr (any_mem_of_loose (c := c) (r := one :: d) ?_)
              rw [← hp]
              by_contra hloose
              exact hdirect ⟨rfl, hs, hloose⟩
          · exact .inr (by simpa using ha)
        · by_contra hloose
          have hany : any ∉ a := by
            intro hmem
            have : any ∈ s.map (lit (α := Char)) := hs ▸ mem_append_left _ hmem
            simp at this
          refine hdirect ⟨ha.resolve_right hany, ?_, hloose⟩
          rintro rfl
          simp at hs
      obtain ⟨text, hmatch, hpass⟩ := ih hnext
      refine ⟨s ++ 'a' :: text, ?_, (pass_one_append ..).trans hpass⟩
      by_cases hs : s = []
      · subst hs
        exact matches_front_one hmatch 'a'
      · rw [if_neg hs] at hmatch
        rw [matches_front_literals]
        exact ⟨[], 'a' :: text, rfl, fun _ => rfl, by simpa [front] using hmatch⟩
    | lit c =>
      have hnext : ¬ Settled lead ((s ++ [c]).map lit ++ p) := by
        rwa [map_append, append_assoc]
      obtain ⟨text, hmatch, hpass⟩ := ih hnext
      rw [map_append, append_assoc] at hmatch
      exact ⟨text, hmatch, hpass⟩

def firstLit : List (Token Char) → Option Char
  | [] => none
  | lit c :: _ => some c
  | any :: p => firstLit p
  | one :: p => firstLit p

theorem pass_cons_least {x : Char} (hx : s.head?.or (firstLit p) ≠ some x) :
    pass (ε := ε) false (x :: (s ++ least x p)) s true p = .ok true := by
  induction p generalizing s with
  | nil =>
    simp [pass, least]
  | cons k p ih =>
    have hsearch : ∀ rest, s ≠ [] → matcher (x :: (s ++ rest)) s true = some rest := by
      intro rest hs
      obtain ⟨c, s, rfl⟩ := exists_cons_of_ne_nil hs
      refine matcher_cons_append fun hxc => hx ?_
      simp [hxc]
    cases k with
    | any =>
      rw [pass, least]
      by_cases hs : s = []
      · subst hs
        exact ih hx
      · rw [if_neg hs, hsearch _ hs]
        exact pass_least false x p [] true
    | one =>
      rw [pass, least]
      by_cases hs : s = []
      · subst hs
        exact ih hx
      · rw [if_neg hs, hsearch _ hs]
        exact pass_least false x p [] false
    | lit c =>
      have hnext : (s ++ [c]).head?.or (firstLit p) ≠ some x := by
        cases s <;> simpa [firstLit] using hx
      have h := ih hnext
      rw [append_assoc] at h
      exact h

/-- With an `any` the pass accepts texts of more than one length. -/
theorem exists_pass_longer (hp : any ∈ p) (s : List Char) (lead : Bool) :
    ∃ t, t.length = width p + 1 ∧ pass (ε := ε) false (s ++ t) s lead p = .ok true := by
  induction p generalizing s lead with
  | nil => cases hp
  | cons k p ih =>
    cases k with
    | any =>
      obtain ⟨x, hx⟩ : ∃ x : Char, firstLit p ≠ some x := by
        cases firstLit p with
        | none => exact ⟨'a', by simp⟩
        | some c =>
          obtain ⟨x, hx, -⟩ := exists_char_ne c c
          exact ⟨x, by simpa using hx.symm⟩
      refine ⟨x :: least x p, by simp [width], ?_⟩
      rw [pass_any_append]
      exact pass_cons_least (s := []) (by simpa using hx)
    | one =>
      have hp' : any ∈ p := by simpa using hp
      obtain ⟨t, ht, hpass⟩ := ih hp' [] (if s = [] then lead else false)
      exact ⟨'a' :: t, by simp [width, ht], (pass_one_append ..).trans hpass⟩
    | lit c =>
      have hp' : any ∈ p := by simpa using hp
      obtain ⟨t, ht, hpass⟩ := ih hp' (s ++ [c]) lead
      refine ⟨c :: t, by simp [width, ht], ?_⟩
      rw [append_assoc] at hpass
      exact hpass

theorem pass_append_any {q : List (Token Char)} (hq : ∀ k ∈ q, k = any) (text s : List Char) (lead : Bool) :
    pass (ε := ε) false text s lead (p ++ any :: q) = pass false text s lead (p ++ [any]) := by
  have htail : ∀ text, pass (ε := ε) false text [] true q = pass false text [] true [] := by
    intro text
    induction q with
    | nil => rfl
    | cons k q ih =>
      obtain rfl := hq k (.head _)
      exact ih fun k hk => hq k (.tail _ hk)
  induction p generalizing text s lead with
  | nil => simp only [nil_append, pass, htail]
  | cons k p ih => cases k <;> simp only [cons_append, pass, ih]

end Otterio.Select
