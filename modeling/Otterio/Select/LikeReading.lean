import Otterio.Select.LikeLanguage

/-!
# When LIKE reads a pattern as it is meant

`reading` is what the loop of `evalSQLLike` makes of a pattern when the escape character is 0, `tokens` is
the meaning of the pattern with its own ESCAPE character.

* `Read a A`: the part `a` of a pattern is read as `A`, and an escape character 0 in it stands before a
  wildcard. `scan_append`: after such a part the loop goes on with the rest, unless it returns in it or
  reports a malformed escape in it, because a byte offset happens to be the number of characters less one.
* `Agree T T'`: what follows about the meaning `T` and the tokens `T'` that are read, if LIKE is right for
  all texts. `Agree.clear` and `Agree.not_double`: then no character is read as something else.
-/

namespace Otterio.Select

open Otterio.Pattern Otterio.Pattern.Token
open List hiding any

variable {R F ε : Type} {esc : Option Char} {a b p u v : List Char} {A T T' : List (Token Char)}

/-- The number of bytes of a text in UTF-8. -/
def byteLen (a : List Char) : Nat := (a.map Char.utf8Size).sum

theorem byteLen_cons (c : Char) (a : List Char) : byteLen (c :: a) = c.utf8Size + byteLen a := rfl

theorem byteLen_append (a b : List Char) : byteLen (a ++ b) = byteLen a + byteLen b := by
  simp [byteLen]

theorem byteLen_append_cons_lt (u : List Char) (c : Char) (v : List Char) : byteLen u < byteLen (u ++ c :: v) := by
  have hpos := c.utf8Size_pos
  rw [byteLen_append, byteLen_cons]
  omega

/-! ## Parts of a pattern that the loop reads -/

inductive Read : List Char → List (Token Char) → Prop
  | nil : Read [] []
  | char {c : Char} {a : List Char} {A : List (Token Char)} (hc : c ≠ runeZero) (h : Read a A) :
      Read (c :: a) (symbol c :: A)
  | escaped {d : Char} {a : List Char} {A : List (Token Char)} (hd : d = percent ∨ d = underscore)
      (h : Read a A) : Read (runeZero :: d :: a) (lit d :: A)

variable {d : Char}

theorem ne_runeZero_of_escapable (hd : d = percent ∨ d = underscore) : d ≠ runeZero := by
  rcases hd with rfl | rfl
  · exact percent_ne_runeZero
  · exact underscore_ne_runeZero

namespace Read

theorem of_notMem (ha : runeZero ∉ a) : Read a (a.map symbol) := by
  induction a with
  | nil => exact .nil
  | cons c a ih =>
    have hc : c ≠ runeZero := fun h => ha (h ▸ .head _)
    exact .char hc (ih fun h => ha (.tail _ h))

theorem eq_map (h : Read a A) (ha : runeZero ∉ a) : A = a.map symbol := by
  induction h with
  | nil => rfl
  | char _ _ ih => rw [map_cons, ih fun h => ha (.tail _ h)]
  | escaped => exact absurd (.head _) ha

/-- An escape character that is read stands before a wildcard, and what is before it is read. -/
theorem exists_wildcard (h : Read a A) (ha : a = u ++ runeZero :: v) :
    ∃ c v', v = c :: v' ∧ (c = percent ∨ c = underscore) ∧ ∃ B, Read u B := by
  induction h generalizing u with
  | nil => simp at ha
  | @char d a A hd h ih =>
    cases u with
    | nil => exact absurd (List.cons.inj ha).1 hd
    | cons e u =>
      obtain ⟨rfl, rfl⟩ := List.cons.inj ha
      obtain ⟨c, v', hv, hc, B, hB⟩ := ih rfl
      exact ⟨c, v', hv, hc, _, .char hd hB⟩
  | @escaped d a A hd h ih =>
    rcases u with _ | ⟨e, _ | ⟨e', u⟩⟩
    · exact ⟨d, a, (List.cons.inj ha).2.symm, hd, [], .nil⟩
    · obtain ⟨-, hrest⟩ := List.cons.inj ha
      exact absurd (List.cons.inj hrest).1 (ne_runeZero_of_escapable hd)
    · obtain ⟨rfl, hrest⟩ := List.cons.inj ha
      obtain ⟨rfl, rfl⟩ := List.cons.inj hrest
      obtain ⟨c, v', hv, hc, B, hB⟩ := ih rfl
      exact ⟨c, v', hv, hc, _, .escaped hd hB⟩

variable {c : Char}

theorem of_append (h : Read a A) (ha : a = u ++ runeZero :: c :: v) :
    (c = percent ∨ c = underscore) ∧ ∃ B, Read u B := by
  obtain ⟨c', v', hv, h⟩ := h.exists_wildcard ha
  obtain ⟨rfl, -⟩ := List.cons.inj hv
  exact h

theorem not_double (h : Read a A) : a ≠ u ++ runeZero :: runeZero :: v := by
  intro ha
  exact ne_runeZero_of_escapable (h.of_append ha).1 rfl

theorem not_ends (h : Read a A) : a ≠ u ++ [runeZero] := by
  intro ha
  obtain ⟨c, v', hv, -⟩ := h.exists_wildcard ha
  cases hv
theorem before (h : Read a A) (hp : a ++ [runeZero, runeZero] = u ++ runeZero :: c :: v) :
    (v = [] ∧ a = u) ∨ (c = percent ∨ c = underscore) ∧ ∃ B, Read u B := by
  rcases eq_nil_or_concat v with rfl | ⟨v, e, rfl⟩
  · exact .inl ⟨rfl, (append_inj' hp rfl).1⟩
  have hp' : (a ++ [runeZero]) ++ [runeZero] = (u ++ runeZero :: c :: v) ++ [e] := by simpa using hp
  have hcut := (append_inj' hp' rfl).1
  rcases eq_nil_or_concat v with rfl | ⟨v, e', rfl⟩
  · have hp'' : a ++ [runeZero] = (u ++ [runeZero]) ++ [c] := by simpa using hcut
    exact absurd (append_inj' hp'' rfl).1 h.not_ends
  · have hp'' : a ++ [runeZero] = (u ++ runeZero :: c :: v) ++ [e'] := by simpa using hcut
    exact .inr (h.of_append (append_inj' hp'' rfl).1)

end Read

/-- The escape character is 0, or neither it nor 0 is in the text. -/
def Clear (esc : Option Char) (a : List Char) : Prop := esc = some runeZero ∨ runeZero ∉ a ∧ ∀ c ∈ a, esc ≠ some c

theorem Clear.left (h : Clear esc (a ++ b)) : Clear esc a :=
  h.imp_right fun h =>
    ⟨fun ha => h.1 (mem_append_left _ ha), fun c hc => h.2 c (mem_append_left _ hc)⟩

theorem Read.tokens_append (h : Read a A) (ha : Clear esc a) (b : List Char) :
    tokens esc (a ++ b) = (tokens esc b).map (A ++ ·) := by
  rcases ha with rfl | ⟨hz, hesc⟩
  · induction h with
    | nil => simp
    | char hc _ ih =>
      rw [cons_append, tokens_cons (fun h => hc (Option.some.inj h).symm), ih, Option.map_map]
      rfl
    | escaped hd _ ih =>
      rw [cons_append, cons_append, tokens_escaped (hd.imp_right Or.inl), ih, Option.map_map]
      rfl
  · rw [h.eq_map hz, Otterio.Select.tokens_append hesc]

theorem Read.tokens_eq (h : Read a A) (ha : Clear esc a) : tokens esc a = some A := by
  have h := h.tokens_append ha []
  simpa [tokens] using h

/-- Induction over a pattern that has a meaning. -/
@[elab_as_elim]
theorem tokens_induction {e : Char} {P : List Char → List (Token Char) → Prop} (nil : P [] [])
    (char : ∀ c p T, c ≠ e → P p T → P (c :: p) (symbol c :: T))
    (escaped : ∀ d p T, (d = percent ∨ d = underscore ∨ d = e) → P p T → P (e :: d :: p) (lit d :: T))
    (h : tokens (some e) p = some T) : P p T := by
  induction hn : p.length using Nat.strong_induction_on generalizing p T with
  | _ n ih =>
    subst hn
    cases p with
    | nil =>
      obtain rfl : T = [] := by simpa [tokens] using h.symm
      exact nil
    | cons c p =>
      by_cases hc : c = e
      · subst hc
        obtain ⟨d, p, T, rfl, hd, hT, rfl⟩ := exists_of_tokens_escape h
        exact escaped d p T hd (ih p.length (by simp) hT rfl)
      · obtain ⟨T, hT, rfl⟩ := exists_of_tokens_cons (fun h => hc (Option.some.inj h).symm) h
        exact char c p T hc (ih p.length (by simp) hT rfl)

/-- A pattern with the escape character 0 that has a meaning is read up to its first escaped 0. -/
theorem read_or_double (h : tokens (some runeZero) p = some T) :
    Read p T ∨ ∃ a A b, p = a ++ runeZero :: runeZero :: b ∧ Read a A := by
  refine tokens_induction (.inl .nil) ?_ ?_ h
  · rintro c p T hc (hread | ⟨a, A, b, rfl, hread⟩)
    · exact .inl (.char hc hread)
    · exact .inr ⟨c :: a, _, b, rfl, .char hc hread⟩
  · intro d p T hd hrest
    by_cases hz : d = runeZero
    · subst hz
      exact .inr ⟨[], [], p, rfl, .nil⟩
    have hd' : d = percent ∨ d = underscore := by tauto
    rcases hrest with hread | ⟨a, A, b, rfl, hread⟩
    · exact .inl (.escaped hd' hread)
    · exact .inr ⟨runeZero :: d :: a, _, b, rfl, .escaped hd' hread⟩

/-! ## The loop on such a part -/

def endsLit (lits : Bool) (A : List (Token Char)) : Bool :=
  A.foldl (fun _ k => match k with | lit _ => true | _ => false) lits

theorem exists_of_endsLit (h : endsLit false A = true) : ∃ B c, A = B ++ [lit c] := by
  rcases eq_nil_or_concat A with rfl | ⟨B, k, rfl⟩
  · cases h
  · cases k with
    | lit c => exact ⟨B, c, concat_eq_append⟩
    | any => simp [endsLit] at h
    | one => simp [endsLit] at h

theorem endsLit_append_lit (B : List (Token Char)) (c : Char) : endsLit false (B ++ [lit c]) = true := by
  simp [endsLit]

theorem scan_runeZero (n i : Nat) (lits : Bool) (b : List Char) : scan n i false lits (runeZero :: b) =
    if i + 1 = n then ([], true) else scan n (i + runeZero.utf8Size) true lits b := by
  rw [scan, if_neg percent_ne_runeZero.symm, if_neg underscore_ne_runeZero.symm, if_pos rfl]

/-- The loop on a part `a` of a pattern: at the offset at which it takes a percent for the last character, or an
escape character for a dangling one, it is done; else it goes on with `b`. -/
def Scanned (n : Nat) (a : List Char) (A : List (Token Char)) (b : List Char) (i : Nat) (lits : Bool) : Prop :=
  (∃ u v B, a = u ++ percent :: v ∧ Read u B ∧ endsLit lits B = true ∧ i + byteLen u + 1 = n ∧
      scan n i false lits (a ++ b) = (B ++ [any], false)) ∨
    (∃ u c v, a = u ++ runeZero :: c :: v ∧ i + byteLen u + 1 = n ∧ (scan n i false lits (a ++ b)).2 = true) ∨
    scan n i false lits (a ++ b) = (A ++ (scan n (i + byteLen a) false (endsLit lits A) b).1,
        (scan n (i + byteLen a) false (endsLit lits A) b).2)

variable {n i : Nat} {lits : Bool}

/-- The token of `w` is put in front, and the three cases are those of the rest. -/
theorem Scanned.onto {w : List Char} {k : Token Char} (hread : ∀ {u B}, Read u B → Read (w ++ u) (k :: B))
    (hscan : scan n i false lits (w ++ (a ++ b)) =
      Select.onto k (scan n (i + byteLen w) false (endsLit lits [k]) (a ++ b)))
    (h : Scanned n a A b (i + byteLen w) (endsLit lits [k])) : Scanned n (w ++ a) (k :: A) b i lits := by
  rcases h with ⟨u, v, B, rfl, hB, hlits, hn, h⟩ | ⟨u, d, v, rfl, hn, h⟩ | h
  · refine .inl ⟨w ++ u, v, k :: B, (append_assoc ..).symm, hread hB, hlits, ?_, ?_⟩
    · rw [byteLen_append]
      omega
    · rw [append_assoc, hscan, h]
      rfl
  · refine .inr (.inl ⟨w ++ u, d, v, (append_assoc ..).symm, ?_, ?_⟩)
    · rw [byteLen_append]
      omega
    · rw [append_assoc, hscan]
      exact h
  · refine .inr (.inr ?_)
    rw [append_assoc, hscan, h, byteLen_append, ← Nat.add_assoc]
    rfl

theorem scan_append (n : Nat) (hread : Read a A) (b : List Char) (i : Nat) (lits : Bool) :
    Scanned n a A b i lits := by
  induction hread generalizing i lits with
  | nil => exact .inr (.inr rfl)
  | @char c a A hc h ih =>
    by_cases hstop : c = percent ∧ lits = true ∧ i + 1 = n
    · obtain ⟨rfl, rfl, hn⟩ := hstop
      refine .inl ⟨[], a, [], rfl, .nil, rfl, hn, ?_⟩
      rw [cons_append, scan, if_pos rfl, if_pos ⟨rfl, hn⟩]
      rfl
    refine Scanned.onto (w := [c]) (.char hc) ?_ (ih ..)
    rw [singleton_append, scan]
    by_cases hp : c = percent
    · rw [if_pos hp, if_neg fun h => hstop ⟨hp, h⟩, hp, symbol_percent]
      rfl
    rw [if_neg hp]
    by_cases hu : c = underscore
    · rw [if_pos hu, hu, symbol_underscore]
      rfl
    · rw [if_neg hu, if_neg hc, symbol_eq_lit hp hu]
      rfl
  | @escaped d a A hd h ih =>
    by_cases hn : i + 1 = n
    · refine .inr (.inl ⟨[], d, a, rfl, hn, ?_⟩)
      rw [cons_append, scan_runeZero, if_pos hn]
    refine Scanned.onto (w := [runeZero, d]) (.escaped hd) ?_ (ih ..)
    have hd' : d = percent ∨ d = runeZero ∨ d = underscore := by tauto
    have hz : (d == runeZero) = false := beq_eq_false_iff_ne.mpr (ne_runeZero_of_escapable hd)
    rw [cons_append, scan_runeZero, if_neg hn, singleton_append, scan, if_pos hd', hz, Nat.add_assoc]
    rfl
/-- No offset in the part is the one that stops the loop, if the one behind the part is. -/
theorem scan_append_of_byteLen (hread : Read a A) (hn : byteLen a + 1 = n) (b : List Char) :
    scan n 0 false false (a ++ b) = (A ++ (scan n (byteLen a) false (endsLit false A) b).1,
        (scan n (byteLen a) false (endsLit false A) b).2) := by
  rcases scan_append n hread b 0 false with ⟨u, v, B, rfl, -, -, h, -⟩ | ⟨u, d, v, rfl, h, -⟩ | h
  · have hlt := byteLen_append_cons_lt u percent v
    omega
  · have hlt := byteLen_append_cons_lt u runeZero (d :: v)
    omega
  · simpa using h

/-! ## What follows if LIKE is right for all texts -/

/-- `T` is the meaning of a pattern and `T'` what it is read as. -/
structure Agree (T T' : List (Token Char)) : Prop where
  least : ∀ x, Matches T (least x T')
  sub : ∀ t, Matches T t → Matches T' t
  any : any ∈ T' → any ∈ T

theorem agree_of_pass (h : ∀ t, pass (ε := ε) false t [] false T' = .ok (decide (Matches T t))) : Agree T T' where
  least x := by
    have hpass := pass_least (ε := ε) false x T' [] false
    rw [nil_append, h] at hpass
    simpa using hpass
  sub t ht := by
    have hpass := h t
    rw [decide_eq_true ht] at hpass
    simpa [front] using matches_of_pass hpass
  any hany := by
    by_contra hT
    obtain ⟨t, hlen, hpass⟩ := exists_pass_longer (ε := ε) hany [] false
    rw [nil_append, h] at hpass
    have hshort := pass_least (ε := ε) false 'a' T' [] false
    rw [nil_append, h] at hshort
    have hlong : Matches T t := by simpa using hpass
    have hleast : Matches T (Pattern.least 'a' T') := by simpa using hshort
    have h1 := length_eq_of_matches hT hlong
    have h2 := length_eq_of_matches hT hleast
    rw [length_least] at h2
    omega

namespace Agree

variable {r s : List (Token Char)} {w : List Char} {c : Char}

theorem width_eq (h : Agree T T') : width T = width T' := by
  have h1 := width_le_of_matches (h.least 'a')
  have h2 := width_le_of_matches (h.sub _ (matches_least 'a' T))
  rw [length_least] at h1 h2
  omega

theorem not_literal (h : Agree (A ++ (w.map lit ++ r)) (A ++ (w.map lit ++ lit c :: s))) (hr : ∀ z, r ≠ lit c :: z)
    (hw : w ≠ [] ∨ ∀ z, r ≠ Token.any :: z) (hd : ∀ e ∈ w, e = d) : False := by
  obtain ⟨x, hxc, hxd⟩ := exists_char_ne c d
  refine matches_diverge hr hw (fun hx => hxd (hd x hx)) hxc (h.sub _ (matches_least x _)) (h.least x) ?_
  rintro z rfl
  refine h.sub _ (matches_append.mpr ⟨Pattern.least x A, _, rfl, matches_least x A, ?_⟩)
  exact matches_literals_append.mpr ⟨_, rfl, _, suffix_cons x _, matches_least x z⟩

theorem not_other (h : Agree (A ++ (w.map lit ++ lit c :: s)) (A ++ (w.map lit ++ r))) (hr : ∀ z, r ≠ lit c :: z)
    (hany : ∀ z, r ≠ Token.any :: z) (hd : ∀ e ∈ w, e = d) : False := by
  obtain ⟨x, hxc, hxd⟩ := exists_char_ne c d
  refine matches_diverge hr (.inr hany) (fun hx => hxd (hd x hx)) hxc (h.least x)
    (h.sub _ (matches_least x _)) ?_
  intro z hz
  exact absurd hz (hany z)

/-- After a part that is read as it is meant the loop goes on, unless nothing but percents follows. -/
theorem after {n : Nat} (hread : Read a A) (hclear : Clear esc a) (htokens : tokens esc (a ++ b) = some T)
    (hscan : scan n 0 false false (a ++ b) = (T', false)) (h : Agree T T') (hb : percent ∉ a ∨ ∃ c ∈ b, c ≠ percent) :
    ∃ X i lits, tokens esc b = some X ∧ T = A ++ X ∧ (scan n i false lits b).2 = false ∧
      T' = A ++ (scan n i false lits b).1 := by
  rw [hread.tokens_append hclear] at htokens
  obtain ⟨X, hX, rfl⟩ := Option.map_eq_some_iff.mp htokens
  rcases scan_append n hread b 0 false with
    ⟨u, v, B, rfl, hB, -, -, hstop⟩ | ⟨u, d, v, -, -, hstop⟩ | hgo
  · -- The loop returned at a percent, but something follows that needs a symbol.
    exfalso
    obtain ⟨c, hc, hne⟩ := hb.resolve_left fun h => h (by simp)
    have hT' : T' = B ++ [Token.any] := by
      rw [hscan] at hstop
      exact (Prod.mk.inj hstop).1
    have hsplit : tokens esc ((u ++ percent :: v) ++ b) = some (A ++ X) := by
      rw [hread.tokens_append hclear, hX]
      rfl
    rw [append_assoc, hB.tokens_append hclear.left] at hsplit
    obtain ⟨Y, hY, hYX⟩ := Option.map_eq_some_iff.mp hsplit
    have hwidth := h.width_eq
    rw [← hYX, hT', width_append, width_append] at hwidth
    have hzero : width Y = 0 := by
      simp only [width] at hwidth
      omega
    exact hne (eq_percent_of_tokens hY (eq_any_of_width hzero) c (by simp [hc]))
  · rw [hscan] at hstop
    cases hstop
  · rw [hscan] at hgo
    obtain ⟨hT', hok⟩ := Prod.mk.inj hgo
    exact ⟨X, _, _, hX, rfl, hok.symm, hT'⟩

end Agree

variable {X : List (Token Char)}

theorem symbol_runeZero : symbol runeZero = lit runeZero :=
  symbol_eq_lit percent_ne_runeZero.symm underscore_ne_runeZero.symm

/-- After a 0 the loop takes further zeros, and a wildcard, for literals. -/
theorem scan_armed (hesc : esc ≠ some runeZero) (hX : tokens esc b = some X)
    (hok : (scan n i true lits b).2 = false) :
    ∃ k r s, (scan n i true lits b).1 = (List.replicate k runeZero).map lit ++ r ∧
      lit runeZero :: X = (List.replicate k runeZero).map lit ++ lit runeZero :: s ∧
      (∀ z, r ≠ lit runeZero :: z) ∧ ∀ z, r ≠ any :: z := by
  induction b generalizing i lits X with
  | nil =>
    refine ⟨0, [], X, rfl, rfl, ?_, ?_⟩
    · rintro z ⟨⟩
    · rintro z ⟨⟩
  | cons c b ih =>
    rw [scan] at hok ⊢
    by_cases hc : c = percent ∨ c = runeZero ∨ c = underscore
    · rw [if_pos hc] at hok ⊢
      by_cases hz : c = runeZero
      · subst hz
        obtain ⟨X', hX', rfl⟩ := exists_of_tokens_cons hesc hX
        obtain ⟨k, r, s, hscan, hrest, hr, hany⟩ := ih hX' hok
        refine ⟨k + 1, r, s, ?_, ?_, hr, hany⟩
        · exact congrArg (lit runeZero :: ·) hscan
        · rw [symbol_runeZero, hrest]
          rfl
      · refine ⟨0, _, X, rfl, rfl, ?_, ?_⟩
        · intro z h
          cases h
          exact hz rfl
        · rintro z ⟨⟩
    · rw [if_neg hc] at hok
      cases hok

/-! ### The escape character, if it is not 0 -/

theorem literals_run (c : Char) (k m : Nat) (s : List (Token Char)) : (List.replicate (k + (m + 1)) c).map lit ++ s =
      (List.replicate k c).map lit ++ lit c :: ((List.replicate m c).map lit ++ s) := by
  rw [replicate_add, map_append, append_assoc]
  rfl

theorem tokens_run {e : Char} {q : List Char} (hX : tokens (some e) q = some X) :
    ∃ k r q', X = (List.replicate k e).map lit ++ r ∧ q = List.replicate (2 * k) e ++ q' ∧ ∀ z, r ≠ lit e :: z := by
  refine tokens_induction ⟨0, [], [], rfl, rfl, by rintro z ⟨⟩⟩ ?_ ?_ hX
  · exact fun c q X hc _ => ⟨0, _, _, rfl, rfl, fun z h => symbol_ne_lit hc (List.cons.inj h).1⟩
  · rintro d q X - ⟨k, r, q', rfl, rfl, hr⟩
    by_cases hde : d = e
    · subst hde
      exact ⟨k + 1, r, q', rfl, rfl, hr⟩
    · refine ⟨0, _, _, rfl, rfl, fun z h => ?_⟩
      cases h
      exact hde rfl

theorem scan_run {m : Nat} {e : Char} (he : e ≠ percent ∧ e ≠ underscore ∧ e ≠ runeZero) (lits : Bool)
    (q : List Char) : ∃ s, (scan n i false lits (List.replicate m e ++ q)).1 = (List.replicate m e).map lit ++ s := by
  induction m generalizing i lits with
  | zero => exact ⟨_, rfl⟩
  | succ m ih =>
    obtain ⟨s, hs⟩ := ih (i := i + e.utf8Size) true
    refine ⟨s, ?_⟩
    rw [replicate_succ, cons_append, scan, if_neg he.1, if_neg he.2.1, if_neg he.2.2, onto, hs]
    rfl

theorem any_notMem_tokens (h : tokens (some percent) p = some T) : any ∉ T := by
  refine tokens_induction (by simp) (fun c p T hc ih => ?_) (fun d p T _ ih => ?_) h
  · have hsymbol : any ≠ symbol c := fun h => hc (symbol_eq_any.mp h.symm)
    simpa [hsymbol] using ih
  · simpa using ih

theorem exists_first {P : Char → Prop} (h : ∃ c ∈ p, P c) : ∃ a c b, p = a ++ c :: b ∧ (∀ d ∈ a, ¬ P d) ∧ P c := by
  classical
  have hsome : (p.find? fun c => decide (P c)).isSome = true := by simpa using h
  obtain ⟨c, hc⟩ := Option.isSome_iff_exists.mp hsome
  obtain ⟨hP, a, b, rfl, ha⟩ := List.find?_eq_some_iff_append.mp hc
  exact ⟨a, c, b, rfl, by simpa using ha, by simpa using hP⟩

/-- If LIKE is right for all texts and the escape character is not 0, the pattern contains neither. -/
theorem Agree.clear (h : Agree T T') (hesc : esc ≠ some runeZero) (htokens : tokens esc p = some T)
    (hscan : scan n 0 false false p = (T', false)) : Clear esc p := by
  by_contra hclear
  have hspecial : ∃ c ∈ p, c = runeZero ∨ esc = some c := by
    by_contra hnone
    refine hclear (.inr ⟨fun hz => hnone ⟨_, hz, .inl rfl⟩, fun c hc he => hnone ⟨c, hc, .inr he⟩⟩)
  obtain ⟨a, c, b, rfl, ha, hc⟩ := exists_first hspecial
  have hza : runeZero ∉ a := fun hz => ha _ hz (.inl rfl)
  have hca : Clear esc a := .inr ⟨hza, fun d hd he => ha d hd (.inr he)⟩
  have hb : percent ∉ a ∨ ∃ d ∈ c :: b, d ≠ percent := by
    by_cases hcp : c = percent
    · subst hcp
      exact .inl fun hp => ha _ hp (.inr (hc.resolve_left percent_ne_runeZero))
    · exact .inr ⟨c, .head _, hcp⟩
  obtain ⟨X, i, lits, hX, rfl, hok, rfl⟩ := Agree.after (Read.of_notMem hza) hca htokens hscan h hb
  by_cases hcz : c = runeZero
  · subst hcz
    obtain ⟨X', hX', rfl⟩ := exists_of_tokens_cons hesc hX
    rw [symbol_runeZero] at h
    rw [scan_runeZero] at hok h
    by_cases hi : i + 1 = n
    · rw [if_pos hi] at hok
      cases hok
    rw [if_neg hi] at hok h
    obtain ⟨k, r, s, hr, hs, hne, hany⟩ := scan_armed hesc hX' hok
    rw [hr, hs] at h
    exact h.not_other hne hany fun e he => (mem_replicate.mp he).2
  obtain rfl : esc = some c := hc.resolve_left hcz
  obtain ⟨d, b', X', rfl, hd, hX', rfl⟩ := exists_of_tokens_escape hX
  by_cases hcp : c = percent
  · subst hcp
    have hmem : Token.any ∈ a.map symbol ++ (scan n i false lits (percent :: d :: b')).1 := by
      rw [scan, if_pos rfl]
      split_ifs
      · simp
      · simp [onto]
    exact any_notMem_tokens htokens (h.any hmem)
  by_cases hcu : c = underscore
  · subst hcu
    exact h.not_other (w := []) (by rintro z ⟨⟩) (by rintro z ⟨⟩) (d := d) (by simp)
  -- The first characters that are escaped: `k` escape characters, of which the loop reads `2 * k`.
  obtain ⟨k, r, q', hrun, hq, hne⟩ := tokens_run hX
  rw [hrun, hq] at h
  obtain ⟨s, hs⟩ := scan_run (n := n) (i := i) (m := 2 * k) ⟨hcp, hcu, hcz⟩ lits q'
  cases k with
  | zero =>
    obtain ⟨t, ht⟩ := scan_run (n := n) (i := i) (m := 1) ⟨hcp, hcu, hcz⟩ lits (d :: b')
    obtain rfl : lit d :: X' = r := hrun
    rw [← hq] at h
    have ht' : (scan n i false lits (c :: d :: b')).1 = lit c :: t := ht
    rw [ht'] at h
    exact h.not_literal (w := []) hne (.inr (by rintro z ⟨⟩)) (d := c) (by simp)
  | succ k =>
    rw [hs, Nat.two_mul, literals_run c (k + 1) k] at h
    exact h.not_literal hne (.inl (by simp)) fun e he => (mem_replicate.mp he).2

/-- After an escaped 0 the loop still takes the next character for an escaped one. -/
theorem scan_double (hb : b ≠ []) (hX : tokens (some runeZero) b = some X) (hok : (scan n i true lits b).2 = false) :
    ∃ k r c s, X = (List.replicate k runeZero).map lit ++ r ∧
      (scan n i true lits b).1 = (List.replicate k runeZero).map lit ++ lit c :: s ∧
      (∀ z, r ≠ lit c :: z) ∧ ∀ z, r ≠ lit runeZero :: z := by
  induction hn : b.length using Nat.strong_induction_on generalizing b i lits X with
  | _ n ih =>
    subst hn
    obtain ⟨c, b, rfl⟩ := exists_cons_of_ne_nil hb
    rw [scan] at hok ⊢
    by_cases hc : c = percent ∨ c = runeZero ∨ c = underscore
    case neg =>
      rw [if_neg hc] at hok
      cases hok
    rw [if_pos hc] at hok ⊢
    by_cases hz : c = runeZero
    case neg =>
      have hwild : c = percent ∨ c = underscore := by tauto
      obtain ⟨X, -, rfl⟩ := exists_of_tokens_cons (fun h => hz (Option.some.inj h).symm) hX
      exact ⟨0, _, c, _, rfl, rfl, fun z h => symbol_ne_lit_of_escapable hwild (List.cons.inj h).1,
        fun z h => symbol_ne_lit_of_escapable hwild (List.cons.inj h).1⟩
    subst hz
    obtain ⟨d, b, X, rfl, hd, hX', rfl⟩ := exists_of_tokens_escape hX
    by_cases hdz : d = runeZero
    case neg =>
      have hne : ∀ z, lit d :: X ≠ lit runeZero :: z := by
        intro z h
        cases h
        exact hdz rfl
      exact ⟨0, _, runeZero, _, rfl, rfl, hne, hne⟩
    subst hdz
    -- Two zeros are one literal, and are read as two.
    have hok' : (scan n (i + runeZero.utf8Size) true true (runeZero :: b)).2 = false := hok
    by_cases hb' : b = []
    · subst hb'
      obtain rfl : X = [] := by simpa [tokens] using hX'.symm
      exact ⟨1, [], runeZero, [], rfl, rfl, by rintro z ⟨⟩, by rintro z ⟨⟩⟩
    · obtain ⟨k, r, c, s, rfl, hs, -, hr⟩ := ih b.length (by simp) hb' hX' hok' rfl
      refine ⟨k + 1, r, runeZero, lit c :: s, rfl, ?_, hr, hr⟩
      exact (congrArg (lit runeZero :: lit runeZero :: ·) hs).trans
        (literals_run runeZero (k + 1) 0 (lit c :: s))

/-- If LIKE is right for all texts and the escape character is 0, an escaped 0 is at the end. -/
theorem Agree.not_double (h : Agree T T') (hread : Read a A)
    (htokens : tokens (some runeZero) (a ++ runeZero :: runeZero :: b) = some T)
    (hscan : scan n 0 false false (a ++ runeZero :: runeZero :: b) = (T', false)) : b = [] := by
  by_contra hb
  have hrest : ∃ c ∈ runeZero :: runeZero :: b, c ≠ percent := ⟨_, .head _, percent_ne_runeZero.symm⟩
  obtain ⟨X, i, lits, hX, rfl, hok, rfl⟩ := Agree.after hread (.inl rfl) htokens hscan h (.inr hrest)
  obtain ⟨X', hX', rfl⟩ := Option.map_eq_some_iff.mp hX
  rw [scan_runeZero] at hok h
  by_cases hi : i + 1 = n
  · rw [if_pos hi] at hok
    cases hok
  rw [if_neg hi, scan, if_pos (.inr (.inl rfl))] at hok h
  obtain ⟨k, r, c, s, rfl, hs, hr, -⟩ := scan_double hb hX' hok
  have hT' : (onto (lit runeZero) (scan n (i + runeZero.utf8Size + runeZero.utf8Size)
      (runeZero == runeZero) true b)).1 =
      (List.replicate (k + 1) runeZero).map lit ++ lit c :: s :=
    congrArg (lit runeZero :: ·) hs
  have hT : lit runeZero :: ((List.replicate k runeZero).map lit ++ r) =
      (List.replicate (k + 1) runeZero).map lit ++ r := rfl
  rw [hT, hT'] at h
  exact h.not_literal hr (.inl (by simp)) fun e he => (mem_replicate.mp he).2

/-! ## The patterns on which LIKE is right -/

/-- The character 0 and the escape character are not in the pattern. If the escape character is 0, an
escaped 0 is at the end, and no escape character but the last one is at the offset that the loop takes for
the last one. -/
def Plain (esc : Option Char) (p : List Char) : Prop :=
  if esc = some runeZero then
    (∀ a b, p = a ++ runeZero :: runeZero :: b → b = []) ∧
      ∀ a c b, p = a ++ runeZero :: c :: b → byteLen a + 1 ≠ p.length
  else runeZero ∉ p ∧ ∀ c ∈ p, esc ≠ some c

/-- Only percents follow a percent after a literal at the offset that the loop takes for the last one. -/
def InTime (esc : Option Char) (p : List Char) : Prop :=
  ∀ u v B c, p = u ++ percent :: v → tokens esc u = some (B ++ [lit c]) → byteLen u + 1 = p.length →
    ∀ d ∈ v, d = percent

/-- The loop reports a malformed escape before it has looked at the text. -/
def Reported (p : List Char) : Prop :=
  (reading p).2 = true ∧ ∃ (m : Nat) (w : List Char), (reading p).1 = List.replicate m any ++ w.map lit

/-- The patterns on which LIKE is right for all texts. -/
def Faithful (esc : Option Char) (p : List Char) : Prop :=
  match tokens esc p with
  | none => Reported p
  | some T => Plain esc p ∧ InTime esc p ∧ Settled false T

/-- The parts of a plain pattern before a percent are read as they are meant. -/
theorem Plain.read_left (h : Plain esc p) (hp : p = u ++ percent :: v) (hu : tokens esc u = some A) :
    Read u A ∧ Clear esc u := by
  unfold Plain at h
  split_ifs at h with hesc
  · subst hesc
    refine ⟨(read_or_double hu).resolve_right ?_, .inl rfl⟩
    rintro ⟨a, B, b, rfl, -⟩
    have hb := h.1 a (b ++ percent :: v) (by simp [hp])
    simp at hb
  · have hz : runeZero ∉ u := fun hz => h.1 (hp ▸ mem_append_left _ hz)
    have hclear : ∀ c ∈ u, esc ≠ some c := fun c hc => h.2 c (hp ▸ mem_append_left _ hc)
    rw [tokens_eq_map hclear] at hu
    cases hu
    exact ⟨Read.of_notMem hz, .inr ⟨hz, hclear⟩⟩

/-- A plain pattern is read as it is meant, up to its beginning with a percent at the end. -/
theorem reading_of_plain (hplain : Plain esc p) (hintime : InTime esc p) (htokens : tokens esc p = some T) :
    (reading p).2 = false ∧
      ((reading p).1 = T ∨ ∃ B q, T = B ++ any :: q ∧ (∀ k ∈ q, k = any) ∧ (reading p).1 = B ++ [any]) := by
  -- A pattern all of which is read.
  have hwhole : Read p T → Clear esc p →
      (∀ u c v, p = u ++ runeZero :: c :: v → byteLen u + 1 ≠ p.length) → (reading p).2 = false ∧
      ((reading p).1 = T ∨ ∃ B q, T = B ++ any :: q ∧ (∀ k ∈ q, k = any) ∧ (reading p).1 = B ++ [any]) := by
    intro hread hclear hescape
    rcases scan_append p.length hread [] 0 false with
      ⟨u, v, B, hp, hB, hends, hn, h⟩ | ⟨u, c, v, hp, hn, -⟩ | h
    · -- A return at a percent: only percents follow, so that nothing is lost.
      obtain ⟨B', c, rfl⟩ := exists_of_endsLit hends
      have hcu : Clear esc u := (hp ▸ hclear).left
      have hall := hintime u v B' c hp (hB.tokens_eq hcu) (by omega)
      have hesc : esc ≠ some percent := by
        rcases hclear with rfl | ⟨-, hne⟩
        · exact fun h => percent_ne_runeZero (Option.some.inj h).symm
        · exact hne percent (by simp [hp])
      have hne : ∀ c ∈ v, esc ≠ some c := fun c hc => hall c hc ▸ hesc
      rw [append_nil] at h
      rw [hp, hB.tokens_append hcu, tokens_cons hesc, tokens_eq_map hne] at htokens
      refine ⟨congrArg Prod.snd h, .inr ⟨_, v.map symbol, by simpa using htokens.symm, fun k hk => ?_,
        congrArg Prod.fst h⟩⟩
      obtain ⟨d, hd, rfl⟩ := mem_map.mp hk
      rw [hall d hd, symbol_percent]
    · exact absurd (by omega) (hescape u c v hp)
    · rw [append_nil] at h
      exact ⟨congrArg Prod.snd h, .inl ((congrArg Prod.fst h).trans (append_nil T))⟩
  by_cases hesc : esc = some runeZero
  · subst hesc
    have hdouble : (∀ a b, p = a ++ runeZero :: runeZero :: b → b = []) ∧
        ∀ a c b, p = a ++ runeZero :: c :: b → byteLen a + 1 ≠ p.length := by
      simpa [Plain] using hplain
    rcases read_or_double htokens with hread | ⟨a, A, b, hp, hread⟩
    · exact hwhole hread (.inl rfl) hdouble.2
    · obtain rfl := hdouble.1 a b hp
      rcases scan_append p.length hread [runeZero, runeZero] 0 false with
        ⟨u, v, B, ha, hB, hends, hn, -⟩ | ⟨u, c, v, ha, hn, -⟩ | h
      · obtain ⟨B', c, rfl⟩ := exists_of_endsLit hends
        have hp' : p = u ++ percent :: (v ++ [runeZero, runeZero]) := by simp [hp, ha]
        have hz := hintime u _ B' c hp' (hB.tokens_eq (.inl rfl)) (by omega) runeZero (by simp)
        exact absurd hz.symm percent_ne_runeZero
      · refine absurd (by omega) (hdouble.2 u c (v ++ [runeZero, runeZero]) ?_)
        simp [hp, ha]
      · have hn : ¬ 0 + byteLen a + 1 = p.length := by
          have := hdouble.2 a runeZero [] hp
          omega
        rw [← hp, scan_runeZero, if_neg hn, scan, if_pos (.inr (.inl rfl)), scan] at h
        have hT : tokens (some runeZero) p = some (A ++ [lit runeZero]) := by
          rw [hp, hread.tokens_append (.inl rfl), tokens_escaped (.inr (.inr rfl))]
          rfl
        rw [hT] at htokens
        cases htokens
        exact ⟨congrArg Prod.snd h, .inl (congrArg Prod.fst h)⟩
  · have hclear : runeZero ∉ p ∧ ∀ c ∈ p, esc ≠ some c := by simpa [Plain, hesc] using hplain
    refine hwhole ?_ (.inr hclear) fun u c v hp => absurd (by simp [hp]) hclear.1
    rw [tokens_eq_map hclear.2] at htokens
    cases htokens
    exact Read.of_notMem hclear.1

theorem Agree.plain (h : Agree T T') (htokens : tokens esc p = some T) (hreading : reading p = (T', false)) :
    Plain esc p := by
  by_cases hesc : esc = some runeZero
  · subst hesc
    -- What is before an escape character that is not an escaped one is read.
    have hbefore : (∀ a b, p = a ++ runeZero :: runeZero :: b → b = []) ∧
        ∀ a c b, p = a ++ runeZero :: c :: b → ∃ B, Read a B := by
      rcases read_or_double htokens with hread | ⟨a₀, A₀, b₀, hp₀, hread⟩
      · exact ⟨fun a b hp => absurd hp hread.not_double, fun a c b hp => (hread.of_append hp).2⟩
      · subst hp₀
        obtain rfl := h.not_double hread htokens hreading
        refine ⟨fun a b hp => ?_, fun a c b hp => ?_⟩
        · exact ((hread.before hp).resolve_right fun h => ne_runeZero_of_escapable h.1 rfl).1
        · rcases hread.before hp with ⟨-, rfl⟩ | ⟨-, hB⟩
          · exact ⟨A₀, hread⟩
          · exact hB
    refine ⟨hbefore.1, fun a c b hp hn => ?_⟩
    obtain ⟨B, hB⟩ := hbefore.2 a c b hp
    have hscan := scan_append_of_byteLen hB hn (runeZero :: c :: b)
    rw [← hp, scan_runeZero, if_pos hn] at hscan
    rw [reading, hscan] at hreading
    cases hreading
  · rw [Plain, if_neg hesc]
    exact (h.clear hesc htokens hreading).resolve_left hesc

theorem Agree.inTime (h : Agree T T') (hplain : Plain esc p) (htokens : tokens esc p = some T)
    (hreading : reading p = (T', false)) : InTime esc p := by
  intro u v B c hp hu hn
  obtain ⟨hread, hclear⟩ := hplain.read_left hp hu
  have hscan := scan_append_of_byteLen hread hn (percent :: v)
  rw [← hp, scan, if_pos rfl, endsLit_append_lit, if_pos ⟨rfl, hn⟩] at hscan
  rw [reading, hscan] at hreading
  cases hreading
  rw [hp, hread.tokens_append hclear] at htokens
  obtain ⟨X, hX, rfl⟩ := Option.map_eq_some_iff.mp htokens
  have hwidth := h.width_eq
  simp only [width_append, width] at hwidth
  have hzero : width X = 0 := by omega
  intro d hd
  exact eq_percent_of_tokens hX (eq_any_of_width hzero) d (.tail _ hd)

/-- An error for all texts: the loop does not look at them. -/
theorem pass_error_iff (malformed : Bool) (T : List (Token Char)) :
    (∀ t, ∃ err, pass (ε := ε) malformed t [] false T = .error err) ↔
      malformed = true ∧ ∃ (m : Nat) (w : List Char), T = List.replicate m any ++ w.map lit := by
  constructor
  · intro h
    cases malformed with
    | false =>
      obtain ⟨err, herr⟩ := h []
      obtain ⟨b, hb⟩ := pass_ok (ε := ε) T [] [] false
      rw [hb] at herr
      cases herr
    | true =>
      refine ⟨rfl, ?_⟩
      -- On the empty text nothing but leading percents and literals goes through.
      have hempty : ∀ (T : List (Token Char)) (s : List Char) (lead : Bool) (err : LikeError ε),
          pass true [] s lead T = .error err →
          ∃ (m : Nat) (w : List Char), T = List.replicate m any ++ w.map lit ∧ (s ≠ [] → m = 0) := by
        intro T
        induction T with
        | nil => exact fun _ _ _ _ => ⟨0, [], rfl, fun _ => rfl⟩
        | cons k T ih =>
          intro s lead err herr
          have hsearch : s ≠ [] → matcher [] s lead = none := by
            intro hs
            cases lead with
            | true => rfl
            | false => simp [matcher]
          cases k with
          | any =>
            by_cases hs : s = []
            · rw [pass, if_pos hs] at herr
              obtain ⟨m, w, rfl, -⟩ := ih [] true err herr
              exact ⟨m + 1, w, rfl, fun h => absurd hs h⟩
            · rw [pass, if_neg hs, hsearch hs] at herr
              cases herr
          | one =>
            by_cases hs : s = []
            · rw [pass, if_pos hs] at herr
              cases herr
            · rw [pass, if_neg hs, hsearch hs] at herr
              cases herr
          | lit c =>
            obtain ⟨m, w, rfl, hm⟩ := ih (s ++ [c]) lead err herr
            obtain rfl := hm (by simp)
            exact ⟨0, c :: w, rfl, fun _ => rfl⟩
      obtain ⟨err, herr⟩ := h []
      obtain ⟨m, w, hT, -⟩ := hempty T [] false err herr
      exact ⟨m, w, hT⟩
  · rintro ⟨rfl, m, w, rfl⟩ t
    have hlits : ∀ (w : List Char) (s : List Char) (lead : Bool),
        pass (ε := ε) true t s lead (w.map lit) = .error .malformedEscapeSequence := by
      intro w
      induction w with
      | nil => exact fun _ _ => rfl
      | cons c w ih => exact fun s lead => ih (s ++ [c]) lead
    refine ⟨.malformedEscapeSequence, ?_⟩
    generalize false = lead
    induction m generalizing lead with
    | zero => exact hlits w [] lead
    | succ m ih =>
      exact ih true

/-- What LIKE should give: `t` matches the pattern, or the pattern is malformed. -/
def Expected (esc : Option Char) (p t : List Char) (result : Except (LikeError ε) Bool) : Prop :=
  match tokens esc p with
  | none => ∃ err, result = .error err
  | some T => result = .ok (decide (Matches T t))

theorem expected_iff_faithful (esc : Option Char) (p : List Char) :
    (∀ t, Expected (ε := ε) esc p t (evalSQLLike t p runeZero)) ↔ Faithful esc p := by
  simp only [evalSQLLike_eq, Expected, Faithful]
  cases htokens : tokens esc p with
  | none => exact pass_error_iff _ _
  | some T =>
    dsimp only
    constructor
    · intro h
      have hok : (reading p).2 = false := by
        by_contra hbad
        have hleast := pass_least (ε := ε) (reading p).2 'a' (reading p).1 [] false
        rw [nil_append, h, if_pos (by simpa using hbad)] at hleast
        cases hleast
      rw [hok] at h
      have hagree := agree_of_pass h
      have hreading : reading p = ((reading p).1, false) := by rw [← hok]
      have hplain := hagree.plain htokens hreading
      have hintime := hagree.inTime hplain htokens hreading
      refine ⟨hplain, hintime, ?_⟩
      by_contra hset
      obtain ⟨t, hmatch, hpass⟩ := exists_pass_false (ε := ε) (s := []) hset
      have hmatch' : Matches T t := by simpa [front] using hmatch
      have htrue := h t
      rw [decide_eq_true hmatch'] at htrue
      obtain ⟨-, heq | ⟨B, q, rfl, hq, heq⟩⟩ := reading_of_plain hplain hintime htokens
      · rw [heq, hpass] at htrue
        cases htrue
      · rw [heq, ← pass_append_any hq, hpass] at htrue
        cases htrue
    · rintro ⟨hplain, hintime, hset⟩ t
      obtain ⟨hok, hT⟩ := reading_of_plain hplain hintime htokens
      have hsame : pass (ε := ε) false t [] false (reading p).1 = pass false t [] false T := by
        rcases hT with heq | ⟨B, q, rfl, hq, heq⟩
        · rw [heq]
        · rw [heq, pass_append_any hq]
      rw [hok, hsame]
      obtain ⟨b, hb⟩ := pass_ok (ε := ε) T t [] false
      cases b with
      | true =>
        have hmatch : Matches T t := by simpa [front] using matches_of_pass hb
        rw [hb, decide_eq_true hmatch]
      | false =>
        have hmatch : ¬ Matches T t := by
          intro hmatch
          have htrue := pass_of_matches (ε := ε) (s := []) hset (by simpa [front] using hmatch)
          rw [hb] at htrue
          cases htrue
        rw [hb, decide_eq_false hmatch]

/-- The ESCAPE argument of the expression, if it has one, is the character. -/
def Like.HasEscape (e : Like R F ε) (r : R) : Option Char → Prop
  | none => e.escapeChar = none
  | some c => ∃ f v, e.escapeChar = some f ∧ f r = .ok v ∧ v.IsText [c]

/-- Every expression with this pattern and ESCAPE character is right for every record and text. -/
def LikeRight (esc : Option Char) (p : List Char) : Prop :=
  ∀ (R F ε : Type) (e : Like R F ε) (r : R) (arg pat : Value F) (t : List Char),
    arg.IsText t → e.pattern r = .ok pat → pat.IsText p → e.HasEscape r esc →
    match tokens esc p with
    | none => ∃ err, evalLikeNode e r arg = .error err
    | some T => evalLikeNode e r arg = .ok (.bool (xor e.not (decide (Matches T t))))

variable {e : Like R F ε} {r : R}

theorem Like.HasEscape.length_le (h : e.HasEscape r esc) (f : R → Except ε (Value F))
    (hf : e.escapeChar = some f) : ∃ v escape, f r = .ok v ∧ v.IsText escape ∧ escape.length ≤ 1 := by
  cases esc with
  | none =>
    rw [HasEscape, hf] at h
    cases h
  | some c =>
    obtain ⟨f', v, hf', hv, htext⟩ := h
    rw [hf] at hf'
    cases hf'
    exact ⟨v, [c], hv, htext, Nat.le_refl 1⟩

def likeExpr (esc : Option Char) (p : List Char) : Like Unit Unit Unit where
  not := false
  pattern _ := .ok (.string p)
  escapeChar := esc.map fun c _ => .ok (.string [c])

theorem likeExpr_hasEscape (esc : Option Char) (p : List Char) : (likeExpr esc p).HasEscape () esc := by
  cases esc with
  | none => rfl
  | some c => exact ⟨_, _, rfl, rfl, .inl rfl⟩

theorem node_right_iff {arg pat : Value F} {t : List Char} (harg : arg.IsText t)
    (hpattern : e.pattern r = .ok pat) (hpat : pat.IsText p) (hesc : e.HasEscape r esc) :
    (match tokens esc p with
      | none => ∃ err, evalLikeNode e r arg = .error err
      | some T => evalLikeNode e r arg = .ok (.bool (xor e.not (decide (Matches T t))))) ↔
      Expected (ε := ε) esc p t (evalSQLLike t p runeZero) := by
  rw [evalLikeNode_eq harg hpattern hpat hesc.length_le, Expected]
  cases tokens esc p with
  | none => cases evalSQLLike (ε := ε) t p runeZero <;> simp [Except.map]
  | some T =>
    cases evalSQLLike (ε := ε) t p runeZero <;> cases e.not <;> simp [Except.map]

theorem evalLikeNode_right_iff (esc : Option Char) (p : List Char) : LikeRight esc p ↔ Faithful esc p := by
  constructor
  · intro h
    refine (expected_iff_faithful (ε := Unit) esc p).mp fun t => ?_
    have hesc := likeExpr_hasEscape esc p
    exact (node_right_iff (.inl rfl) rfl (.inl rfl) hesc).mp
      (h Unit Unit Unit (likeExpr esc p) () (.string t) (.string p) t (.inl rfl) rfl (.inl rfl) hesc)
  · intro h R F ε e r arg pat t harg hpattern hpat hesc
    exact (node_right_iff harg hpattern hpat hesc).mpr ((expected_iff_faithful esc p).mpr h t)

/-- The ESCAPE character is ignored, a first occurrence is taken for the only one, and a byte offset is
taken for a number of characters. -/
theorem evalLikeNode_wrong :
    (evalLikeNode (likeExpr (some '!') ['a', '!', '%']) () (.string ['a', '%']) = .ok (.bool false) ∧
      tokens (some '!') ['a', '!', '%'] = some [lit 'a', lit '%']) ∧
    (evalLikeNode (likeExpr none ['%', 'a', '_']) () (.string ['a', 'a', 'b']) = .ok (.bool false) ∧
      tokens none ['%', 'a', '_'] = some [any, lit 'a', one] ∧
      Matches [any, lit 'a', one] ['a', 'a', 'b']) ∧
    (evalLikeNode (likeExpr none ['é', '%', 'b']) () (.string ['é']) = .ok (.bool true) ∧
      tokens none ['é', '%', 'b'] = some [lit 'é', any, lit 'b'] ∧
      ¬ Matches [lit 'é', any, lit 'b'] ['é']) := by
  refine ⟨⟨rfl, by decide⟩, ⟨rfl, by decide, by decide⟩, ⟨rfl, by decide, by decide⟩⟩

end Otterio.Select
