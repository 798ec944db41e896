import Otterio.Lib.Pattern
import Otterio.Select.Value

/-!
# The LIKE operator

`pkg/s3select/sql/stringfuncs.go` and `evaluate.go`. `evalSQLLike` walks once over the pattern. It collects
literal characters in `s`; a wildcard makes it look for them in the text and drop the text up to their end.

`evalLikeNode` checks the ESCAPE argument but does not hand it on, so that the escape character is always
the character 0. What the loop then makes of a pattern does not depend on the text: `reading` is the list
of tokens that it acts on, and whether it then reports a malformed escape (`evalSQLLike_eq`). The tokens
are worked off by `pass`.
-/

namespace Otterio.Select

open Otterio.Pattern Otterio.Pattern.Token
open List hiding any

variable {R F ε : Type}

def percent : Char := '%'

def underscore : Char := '_'

def runeZero : Char := Char.ofNat 0

/-- `errLikeNonStrArg` and `errLikeInvalidEscape`. -/
inductive LikeInput where
  | nonStrArg
  | invalidEscape
  deriving DecidableEq, Repr

/-- The errors of a LIKE expression; `operand` is the error of an operand that cannot be evaluated. -/
inductive LikeError (ε : Type) where
  | malformedEscapeSequence
  | likeInvalidInputs (err : LikeInput)
  | operand (err : ε)
  deriving DecidableEq, Repr

/-- The part of the text behind the first occurrence of `pat`: the second part of
`strings.SplitN(text, pat, 2)` for a `pat` that is not empty. -/
def splitAfter (pat : List Char) : List Char → Option (List Char)
  | [] => none
  | c :: text =>
    if pat.isPrefixOf (c :: text) then some ((c :: text).drop pat.length) else splitAfter pat text

def matcher (text pat : List Char) (leadingPercent : Bool) : Option (List Char) :=
  if !leadingPercent then
    let res := if pat.isPrefixOf text then text.drop pat.length else text
    if text.length = res.length then none else some res
  else
    splitAfter pat text

def dropRune : List Char → Option (List Char)
  | [] => none
  | _ :: r => some r

/-- The variables of the loop of `evalSQLLike`. -/
structure LikeState where
  text : List Char
  s : List Char
  prev : Char
  hasLeadingPercent : Bool

/-- The loop of `evalSQLLike`; `i` is the byte offset of the character, `patLen` the number of
characters. -/
def likeLoop (escape : Char) (patLen : Nat) (i : Nat) (st : LikeState) : List Char → Except (LikeError ε) Bool
  | [] =>
    if st.hasLeadingPercent then .ok (st.s.isSuffixOf st.text) else .ok (st.s == st.text)
  | r :: rest =>
    if 0 < i ∧ st.prev = escape then
      if r = percent ∨ r = escape ∨ r = underscore then
        likeLoop escape patLen (i + r.utf8Size)
          { st with s := st.s ++ [r], prev := if r = escape then runeZero else r } rest
      else .error .malformedEscapeSequence
    else if r = percent then
      if st.s = [] then
        likeLoop escape patLen (i + r.utf8Size) { st with prev := r, hasLeadingPercent := true } rest
      else
        match matcher st.text st.s st.hasLeadingPercent with
        | none => .ok false
        | some text =>
          if i + 1 = patLen then .ok true
          else
            likeLoop escape patLen (i + r.utf8Size)
              { text := text, s := [], prev := r, hasLeadingPercent := true } rest
    else if r = underscore then
      if st.s = [] then
        match dropRune st.text with
        | none => .ok false
        | some text => likeLoop escape patLen (i + r.utf8Size) { st with text := text, prev := r } rest
      else
        match matcher st.text st.s st.hasLeadingPercent with
        | none => .ok false
        | some text =>
          match dropRune text with
          | none => .ok false
          | some text =>
            likeLoop escape patLen (i + r.utf8Size)
              { text := text, s := [], prev := r, hasLeadingPercent := false } rest
    else if r = escape then
      if i + 1 = patLen then .error .malformedEscapeSequence
      else likeLoop escape patLen (i + r.utf8Size) { st with prev := r } rest
    else
      likeLoop escape patLen (i + r.utf8Size) { st with s := st.s ++ [r], prev := r } rest

def evalSQLLike (text pattern : List Char) (escape : Char) : Except (LikeError ε) Bool :=
  likeLoop escape pattern.length 0
    { text := text, s := [], prev := runeZero, hasLeadingPercent := false } pattern

/-- The right-hand side of a LIKE expression. An operand is what its evaluation gives for a record. -/
structure Like (R F ε : Type) where
  not : Bool
  pattern : R → Except ε (Value F)
  escapeChar : Option (R → Except ε (Value F))

def evalLikeNode (e : Like R F ε) (r : R) (arg : Value F) : Except (LikeError ε) (Value F) := do
  let some s := arg.inferTypeAsString.toString? | throw (.likeInvalidInputs .nonStrArg)
  let pattern ← (e.pattern r).mapError .operand
  let some patternStr := pattern.inferTypeAsString.toString? | throw (.likeInvalidInputs .nonStrArg)
  let escape := runeZero
  if let some escapeChar := e.escapeChar then
    let escapeVal ← (escapeChar r).mapError .operand
    let some escapeStr := escapeVal.inferTypeAsString.toString? | throw (.likeInvalidInputs .nonStrArg)
    if 1 < escapeStr.length then throw (.likeInvalidInputs .invalidEscape)
  let matchResult ← evalSQLLike s patternStr escape
  return .bool (if e.not then !matchResult else matchResult)

/-! ## Searching the text -/

section Matcher

variable {text pat rest : List Char} {lead : Bool}

theorem splitAfter_eq_some (h : splitAfter pat text = some rest) : (∃ pre, text = pre ++ (pat ++ rest)) ∧
      ∀ pre' rest', text = pre' ++ (pat ++ rest') → rest' <:+ rest := by
  induction text with
  | nil => cases h
  | cons c text ih =>
    rw [splitAfter] at h
    split_ifs at h with hp
    · obtain ⟨tail, htail⟩ := List.isPrefixOf_iff_prefix.mp hp
      have hrest : tail = rest := by
        simpa [← htail] using h
      subst hrest
      refine ⟨⟨[], htail.symm⟩, fun pre' rest' h' => ?_⟩
      -- Both ends are ends of one text, and the other occurrence does not begin earlier.
      have hs : rest' <:+ pat ++ tail := htail ▸ ⟨pre' ++ pat, by rw [h', append_assoc]⟩
      refine suffix_of_suffix_length_le hs (suffix_append pat tail) ?_
      have hlen := congrArg List.length (htail.trans h')
      simp only [length_append] at hlen
      omega
    · obtain ⟨⟨pre, rfl⟩, hfirst⟩ := ih h
      refine ⟨⟨c :: pre, rfl⟩, fun pre' rest' h' => ?_⟩
      cases pre' with
      | nil => exact absurd (List.isPrefixOf_iff_prefix.mpr ⟨rest', h'.symm⟩) hp
      | cons d pre' => exact hfirst pre' rest' (List.cons.inj h').2

theorem splitAfter_eq_none (hpat : pat ≠ []) (h : splitAfter pat text = none) (pre' rest' : List Char) :
    text ≠ pre' ++ (pat ++ rest') := by
  induction text generalizing pre' with
  | nil =>
    intro h'
    simp [hpat] at h'
  | cons c text ih =>
    rw [splitAfter] at h
    split_ifs at h with hp
    intro h'
    cases pre' with
    | nil => exact hp (List.isPrefixOf_iff_prefix.mpr ⟨rest', h'.symm⟩)
    | cons d pre' => exact ih h pre' (List.cons.inj h').2

theorem matcher_false (hpat : pat ≠ []) : matcher text pat false = some rest ↔ text = pat ++ rest := by
  have hpos : 0 < pat.length := length_pos_iff.mpr hpat
  simp only [matcher, Bool.not_false, if_true]
  by_cases hp : pat.isPrefixOf text = true
  · obtain ⟨tail, rfl⟩ := List.isPrefixOf_iff_prefix.mp hp
    simp [hpos.ne', hp]
  · simp only [hp, Bool.false_eq_true, if_false, if_true, reduceCtorEq, false_iff]
    rintro rfl
    exact hp (List.isPrefixOf_iff_prefix.mpr ⟨rest, rfl⟩)

/-- What a successful search leaves is the longest text behind an occurrence of `pat`; without a leading
percent only the occurrence at the beginning counts. -/
theorem matcher_eq_some (hpat : pat ≠ []) (h : matcher text pat lead = some rest) :
    (∃ pre, text = pre ++ (pat ++ rest) ∧ (lead = false → pre = [])) ∧
      ∀ pre' rest', text = pre' ++ (pat ++ rest') → (lead = false → pre' = []) → rest' <:+ rest := by
  cases lead with
  | false =>
    obtain rfl := (matcher_false hpat).mp h
    refine ⟨⟨[], rfl, fun _ => rfl⟩, fun pre' rest' h' hpre => ?_⟩
    obtain rfl := hpre rfl
    rw [append_cancel_left h']
  | true =>
    obtain ⟨⟨pre, hpre⟩, hfirst⟩ := splitAfter_eq_some h
    exact ⟨⟨pre, hpre, fun h => by cases h⟩, fun pre' rest' h' _ => hfirst pre' rest' h'⟩

theorem matcher_eq_none (hpat : pat ≠ []) (h : matcher text pat lead = none) (pre' rest' : List Char)
    (hpre : lead = false → pre' = []) : text ≠ pre' ++ (pat ++ rest') := by
  cases lead with
  | false =>
    obtain rfl := hpre rfl
    intro h'
    rw [(matcher_false hpat).mpr h'] at h
    cases h
  | true => exact splitAfter_eq_none hpat h pre' rest'

theorem matcher_append (hpat : pat ≠ []) : matcher (pat ++ rest) pat lead = some rest := by
  cases lead with
  | false => exact (matcher_false hpat).mpr rfl
  | true =>
    obtain ⟨c, pat, rfl⟩ := exists_cons_of_ne_nil hpat
    have hp : (c :: pat).isPrefixOf (c :: (pat ++ rest)) = true := List.isPrefixOf_iff_prefix.mpr ⟨rest, rfl⟩
    show splitAfter (c :: pat) (c :: (pat ++ rest)) = some rest
    rw [splitAfter, if_pos hp]
    simp

theorem matcher_cons_append {c x : Char} {pat : List Char} (hx : x ≠ c) :
    matcher (x :: (c :: pat ++ rest)) (c :: pat) true = some rest := by
  have hp : ¬ (c :: pat).isPrefixOf (x :: (c :: pat ++ rest)) = true := by
    rw [List.isPrefixOf_iff_prefix]
    rintro ⟨tail, h⟩
    exact hx (List.cons.inj h).1.symm
  show splitAfter (c :: pat) (x :: (c :: pat ++ rest)) = some rest
  have hrest : matcher (c :: pat ++ rest) (c :: pat) true = some rest := matcher_append (cons_ne_nil c pat)
  rw [splitAfter, if_neg hp]
  exact hrest

end Matcher

/-! ## The tokens of a pattern, as the loop reads them -/

/-- Puts a token in front of what the rest of the pattern is read as. -/
def onto (k : Token Char) (r : List (Token Char) × Bool) : List (Token Char) × Bool := (k :: r.1, r.2)

/-- What the loop makes of a pattern with the escape character 0: the tokens it acts on, and whether it
then reports a malformed escape. `armed` says that the last character was an escape character, `lits`
that there are collected literals. -/
def scan (patLen : Nat) : Nat → Bool → Bool → List Char → List (Token Char) × Bool
  | _, _, _, [] => ([], false)
  | i, true, _, r :: rest =>
    if r = percent ∨ r = runeZero ∨ r = underscore then
      onto (lit r) (scan patLen (i + r.utf8Size) (r == runeZero) true rest)
    else ([], true)
  | i, false, lits, r :: rest =>
    if r = percent then
      -- The loop returns true here without a look at the rest.
      if lits ∧ i + 1 = patLen then ([any], false)
      else onto any (scan patLen (i + r.utf8Size) false false rest)
    else if r = underscore then onto one (scan patLen (i + r.utf8Size) false false rest)
    else if r = runeZero then
      if i + 1 = patLen then ([], true) else scan patLen (i + r.utf8Size) true lits rest
    else onto (lit r) (scan patLen (i + r.utf8Size) false true rest)

def reading (pattern : List Char) : List (Token Char) × Bool := scan pattern.length 0 false false pattern

/-- The work of the loop on the text, token by token. -/
def pass (malformed : Bool) (text s : List Char) (lead : Bool) : List (Token Char) → Except (LikeError ε) Bool
  | [] =>
    if malformed then .error .malformedEscapeSequence
    else .ok (if lead then s.isSuffixOf text else s == text)
  | any :: p =>
    if s = [] then pass malformed text [] true p
    else
      match matcher text s lead with
      | none => .ok false
      | some text => pass malformed text [] true p
  | one :: p =>
    if s = [] then
      match dropRune text with
      | none => .ok false
      | some text => pass malformed text [] lead p
    else
      match matcher text s lead with
      | none => .ok false
      | some text =>
        match dropRune text with
        | none => .ok false
        | some text => pass malformed text [] false p
  | lit c :: p => pass malformed text (s ++ [c]) lead p

theorem percent_ne_runeZero : percent ≠ runeZero := by decide

theorem underscore_ne_runeZero : underscore ≠ runeZero := by decide

theorem underscore_ne_percent : underscore ≠ percent := by decide

theorem likeLoop_eq (patLen i : Nat) (st : LikeState) (pattern : List Char) :
    likeLoop (ε := ε) runeZero patLen i st pattern =
      pass (scan patLen i (decide (0 < i ∧ st.prev = runeZero)) (decide (st.s ≠ [])) pattern).2
        st.text st.s st.hasLeadingPercent
        (scan patLen i (decide (0 < i ∧ st.prev = runeZero)) (decide (st.s ≠ [])) pattern).1 := by
  induction pattern generalizing i st with
  | nil => cases hl : st.hasLeadingPercent <;> simp [likeLoop, scan, pass, hl]
  | cons r rest ih =>
    have hpos : 0 < i + r.utf8Size := Nat.add_pos_right i r.utf8Size_pos
    rw [likeLoop]
    by_cases harmed : 0 < i ∧ st.prev = runeZero
    · rw [if_pos harmed, decide_eq_true harmed, scan]
      by_cases hr : r = percent ∨ r = runeZero ∨ r = underscore
      · rw [if_pos hr, if_pos hr, ih]
        have hprev : decide (0 < i + r.utf8Size ∧ (if r = runeZero then runeZero else r) = runeZero) =
            (r == runeZero) := by
          by_cases hz : r = runeZero
          · rw [if_pos hz, beq_iff_eq.mpr hz]
            exact decide_eq_true ⟨hpos, rfl⟩
          · rw [if_neg hz, beq_eq_false_iff_ne.mpr hz]
            exact decide_eq_false fun h => hz h.2
        have hne : st.s ++ [r] ≠ [] := by simp
        rw [hprev, decide_eq_true hne]
        rfl
      · rw [if_neg hr, if_neg hr]
        rfl
    · rw [if_neg harmed, decide_eq_false harmed, scan]
      by_cases hp : r = percent
      · have hnot : ¬ r = runeZero := hp ▸ percent_ne_runeZero
        rw [if_pos hp, if_pos hp]
        by_cases hs : st.s = []
        · rw [if_pos hs, ih]
          simp [onto, pass, hs, hnot]
        · rw [if_neg hs]
          by_cases hi : i + 1 = patLen
          · cases hm : matcher st.text st.s st.hasLeadingPercent <;> simp [pass, hs, hm, hi]
          · rw [if_neg fun h => hi h.2]
            cases hm : matcher st.text st.s st.hasLeadingPercent with
            | none => simp [onto, pass, hs, hm]
            | some text =>
              simp only [if_neg hi]
              rw [ih]
              simp [onto, pass, hs, hm, hnot]
      rw [if_neg hp, if_neg hp]
      by_cases hu : r = underscore
      · have hnot : ¬ r = runeZero := hu ▸ underscore_ne_runeZero
        rw [if_pos hu, if_pos hu]
        by_cases hs : st.s = []
        · cases hd : dropRune st.text with
          | none => simp [onto, pass, hs, hd]
          | some text =>
            simp only []
            rw [ih]
            simp [onto, pass, hs, hd, hnot]
        · cases hm : matcher st.text st.s st.hasLeadingPercent with
          | none => simp [onto, pass, hs, hm]
          | some text =>
            cases hd : dropRune text with
            | none => simp [onto, pass, hs, hm, hd]
            | some text' =>
              simp only [hd]
              rw [ih]
              simp [onto, pass, hs, hm, hd, hnot]
      rw [if_neg hu, if_neg hu]
      by_cases hz : r = runeZero
      · rw [if_pos hz, if_pos hz]
        by_cases hi : i + 1 = patLen
        · rw [if_pos hi, if_pos hi]
          rfl
        · rw [if_neg hi, if_neg hi, ih]
          rw [decide_eq_true ⟨hpos, hz⟩]
      · rw [if_neg hz, if_neg hz, ih]
        simp [onto, pass, hz]

/-- The whole function with the escape character that `evalLikeNode` hands to it. -/
theorem evalSQLLike_eq (text pattern : List Char) : evalSQLLike (ε := ε) text pattern runeZero =
      pass (reading pattern).2 text [] false (reading pattern).1 := by
  rw [evalSQLLike, likeLoop_eq]
  rfl

/-- The ESCAPE argument is evaluated and its length is checked; its character is not used. -/
theorem evalLikeNode_eq {e : Like R F ε} {r : R} {arg pat : Value F} {text pattern : List Char}
    (harg : arg.IsText text) (hpattern : e.pattern r = .ok pat) (hpat : pat.IsText pattern)
    (hesc : ∀ f, e.escapeChar = some f → ∃ v escape, f r = .ok v ∧ v.IsText escape ∧ escape.length ≤ 1) :
    evalLikeNode e r arg = (evalSQLLike text pattern runeZero).map fun b => .bool (if e.not then !b else b) := by
  unfold evalLikeNode
  simp only [harg.toString?_infer, hpattern, hpat.toString?_infer, Except.mapError, bind, Except.bind, pure,
    Except.pure]
  cases hf : e.escapeChar with
  | none => cases evalSQLLike text pattern runeZero <;> rfl
  | some f =>
    obtain ⟨v, escape, hv, hescape, hlen⟩ := hesc f hf
    have hlen' : ¬ 1 < escape.length := by omega
    simp only [hv, hescape.toString?_infer, if_neg hlen']
    cases evalSQLLike text pattern runeZero <;> rfl

end Otterio.Select
