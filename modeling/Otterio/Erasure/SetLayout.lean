import Mathlib

/-!
# The layout of erasure sets

`getSetIndexes` chooses the size of the erasure sets from the lengths of the ellipses patterns of the
arguments, and `endpointSet.Get` cuts the expanded endpoints into sets (`cmd/endpoint-ellipses.go`,
`pkg/ellipses/ellipses.go`). Sizes are natural numbers: products that overflow are left out.

* `getSetIndexes_eq_ok`: the size is the largest one from 4 to 16 that divides all totals and is
  symmetric to the last pattern (`Chosen`).
-/

namespace Otterio

open List

structure EllipsesPattern where
  pre : String
  suffix : String
  seq : List String

/-- `ellipses.ArgPattern`: the patterns of one argument. -/
abbrev ArgPattern := List EllipsesPattern

def EllipsesPattern.expand (p : EllipsesPattern) : List String := p.seq.map fun s => p.pre ++ s ++ p.suffix

/-- `argExpander`. The source stops one label earlier, with the same lists. -/
def argExpander : List (List String) → List (List String)
  | [] => [[]]
  | lbls :: labels => lbls.flatMap fun lbl => (argExpander labels).map (· ++ [lbl])

def getEndpoints (argPatterns : List ArgPattern) : List String :=
  argPatterns.flatMap fun a => (argExpander (a.map EllipsesPattern.expand)).map String.join

def totalSize (a : ArgPattern) : Nat := (a.map (·.seq.length)).prod

def getTotalSizes (argPatterns : List ArgPattern) : List Nat := argPatterns.map totalSize

def setSizes : List Nat := [4, 5, 6, 7, 8, 9, 10, 11, 12, 13, 14, 15, 16]

def getDivisibleSize : List Nat → Nat
  | [] => 0
  | t :: ts => ts.foldl Nat.gcd t

def commonSetDriveCount (divisibleSize : Nat) (setCounts : List Nat) : Nat :=
  if divisibleSize < setCounts.getLast?.getD 0 then divisibleSize
  else
    (setCounts.foldl (fun st cnt =>
      if divisibleSize % cnt = 0 ∧ divisibleSize / cnt ≤ st.1 then (divisibleSize / cnt, cnt) else st)
      (divisibleSize / setCounts.headD 0, 0)).2

def symmetric (ss : Nat) (p : EllipsesPattern) : Bool :=
  if p.seq.length > ss then p.seq.length % ss == 0 else ss % p.seq.length == 0

/-- `possibleSetCountsWithSymmetry`. Each pattern overwrites the flag `symmetry`. The counts are
distinct and ascending, so that the map and the sort give back those that are kept. -/
def possibleSetCountsWithSymmetry (setCounts : List Nat) (argPatterns : Option (List ArgPattern)) : List Nat :=
  setCounts.filter fun ss =>
    (argPatterns.getD []).flatten.foldl (fun _ p => symmetric ss p) false || argPatterns.isNone

inductive SetsError where
  | invalidArgument | tooFewEndpoints | notDivisible | invalidSetDriveCount | notSymmetric | invalidSetSize

def getSetIndexes (totalSizes : List Nat) (customSetDriveCount : Nat) (argPatterns : Option (List ArgPattern)) :
    Except SetsError (List (List Nat)) :=
  if totalSizes = [] then .error .invalidArgument
  else if totalSizes.any fun t => t < 4 || t < customSetDriveCount then .error .tooFewEndpoints
  else
    let commonSize := getDivisibleSize totalSizes
    let setCounts := setSizes.filter fun s => commonSize % s == 0
    let symmetricCounts := possibleSetCountsWithSymmetry setCounts argPatterns
    if setCounts = [] then .error .notDivisible
    else if 0 < customSetDriveCount ∧ customSetDriveCount ∉ setCounts then .error .invalidSetDriveCount
    else if customSetDriveCount = 0 ∧ symmetricCounts = [] then .error .notSymmetric
    else
      let setSize := if 0 < customSetDriveCount then customSetDriveCount
        else commonSetDriveCount commonSize symmetricCounts
      if setSize < 4 ∨ 16 < setSize then .error .invalidSetSize
      else .ok (totalSizes.map fun t => replicate (t / setSize) setSize)

/-- The loops of `endpointSet.Get`, from the endpoint `k`. -/
def cutSets (endpoints : List String) : Nat → List Nat → List (List String)
  | _, [] => []
  | k, n :: ns => (endpoints.drop k).take n :: cutSets endpoints (k + n) ns

/-- `endpointSet.Get`. -/
def endpointSets (argPatterns : List ArgPattern) (setIndexes : List (List Nat)) : List (List String) :=
  cutSets (getEndpoints argPatterns) 0 setIndexes.flatten

theorem length_argExpander (labels : List (List String)) :
    (argExpander labels).length = (labels.map length).prod := by
  induction labels with
  | nil => rfl
  | cons lbls labels ih => simp [argExpander, length_flatMap, ih]

theorem length_getEndpoints (argPatterns : List ArgPattern) :
    (getEndpoints argPatterns).length = (getTotalSizes argPatterns).sum := by
  simp [getEndpoints, getTotalSizes, length_flatMap, length_argExpander, Function.comp_def, EllipsesPattern.expand]
  rfl

theorem flatten_cutSets (endpoints : List String) (k : Nat) (ns : List Nat) :
    (cutSets endpoints k ns).flatten = (endpoints.drop k).take ns.sum := by
  induction ns generalizing k with
  | nil => simp [cutSets]
  | cons n ns ih => rw [cutSets, flatten_cons, ih, sum_cons, take_add, drop_drop]

theorem length_of_mem_cutSets {endpoints set : List String} {k n : Nat} {ns : List Nat} (hn : ∀ m ∈ ns, m = n)
    (hlen : k + ns.sum ≤ endpoints.length) (h : set ∈ cutSets endpoints k ns) : set.length = n := by
  induction ns generalizing k with
  | nil => cases h
  | cons m ns ih =>
    obtain ⟨rfl, hns⟩ := forall_mem_cons.mp hn
    rw [sum_cons] at hlen
    rcases mem_cons.mp h with rfl | h
    · simp only [length_take, length_drop]; omega
    · exact ih hns (by omega) h

/-! ## The chosen size -/

theorem dvd_getDivisibleSize {s t : Nat} {ts : List Nat} : s ∣ getDivisibleSize (t :: ts) ↔ ∀ x ∈ t :: ts, s ∣ x := by
  rw [getDivisibleSize]
  induction ts generalizing t with
  | nil => simp
  | cons t' ts ih => rw [foldl_cons, ih]; simp [Nat.dvd_gcd_iff, and_assoc]

theorem foldl_last {α : Type} (f : α → Bool) (l : List α) : l.foldl (fun _ a => f a) false = l.getLast?.any f := by
  induction l using reverseRecOn with
  | nil => rfl
  | append_singleton l a _ => simp

theorem le_last {c x : Nat} {cs : List Nat} (hasc : (cs ++ [c]).Pairwise (· < ·)) (hx : x ∈ cs ++ [c]) : x ≤ c := by
  obtain ⟨-, -, hlt⟩ := pairwise_append.mp hasc
  rcases mem_append.mp hx with hx | hx
  · exact (hlt x hx c (mem_singleton_self c)).le
  · exact (mem_singleton.mp hx).le

theorem commonSetDriveCount_eq {D c : Nat} {cs : List Nat} (hasc : (cs ++ [c]).Pairwise (· < ·))
    (hpos : ∀ x ∈ cs ++ [c], 0 < x ∧ D % x = 0) (hD : 0 < D) : commonSetDriveCount D (cs ++ [c]) = c := by
  have hle : ∀ x ∈ cs ++ [c], D / c ≤ D / x := fun x hx =>
    Nat.div_le_div_left (le_last hasc hx) (hpos x hx).1
  have hcD : c ≤ D := Nat.le_of_dvd hD (Nat.dvd_of_mod_eq_zero (hpos c (by simp)).2)
  -- The ratio that the loop has kept is the ratio of one of the counts.
  have hkept : ∀ (l : List Nat) (st : Nat × Nat), (∀ x ∈ l, D / c ≤ D / x) → D / c ≤ st.1 →
      D / c ≤ (l.foldl (fun st cnt => if D % cnt = 0 ∧ D / cnt ≤ st.1 then (D / cnt, cnt) else st) st).1 := by
    intro l
    induction l with
    | nil => exact fun _ _ h => h
    | cons x l ih =>
      intro st hl hst
      obtain ⟨hx, hl⟩ := forall_mem_cons.mp hl
      refine ih _ hl ?_
      dsimp only
      split_ifs
      · exact hx
      · exact hst
  have hhead : D / c ≤ D / (cs ++ [c]).headD 0 := by
    cases cs with
    | nil => exact le_rfl
    | cons x cs => exact hle x (by simp)
  rw [commonSetDriveCount, getLast?_concat, if_neg (by simpa using hcD), foldl_append]
  simp only [foldl_cons, foldl_nil]
  rw [if_pos ⟨(hpos c (by simp)).2, hkept cs _ (fun x hx => hle x (mem_append_left _ hx)) hhead⟩]

/-- A set size that divides the total of every argument. -/
def Fits (argPatterns : List ArgPattern) (s : Nat) : Prop :=
  s ∈ setSizes ∧ ∀ a ∈ argPatterns, 0 < totalSize a ∧ s ∣ totalSize a

/-- The size is symmetric to the last pattern, and the largest one of those that fit. -/
structure Chosen (argPatterns : List ArgPattern) (s : Nat) : Prop where
  fits : Fits argPatterns s
  last : argPatterns.flatten.getLast?.any (symmetric s) = true
  largest : ∀ s', Fits argPatterns s' → argPatterns.flatten.getLast?.any (symmetric s') = true → s' ≤ s

/-- The set sizes among which `getSetIndexes` chooses. -/
def candidates (argPatterns : List ArgPattern) : List Nat :=
  possibleSetCountsWithSymmetry
    (setSizes.filter fun s => getDivisibleSize (getTotalSizes argPatterns) % s == 0) (some argPatterns)

section Choice

variable {argPatterns : List ArgPattern} {s : Nat} (hne : argPatterns ≠ [])
  (hpos : ∀ a ∈ argPatterns, 0 < totalSize a)

theorem four_le_of_mem : ∀ s ∈ setSizes, 4 ≤ s ∧ s ≤ 16 := by decide

include hne in
theorem dvd_commonSize_iff :
    s ∣ getDivisibleSize (getTotalSizes argPatterns) ↔ ∀ a ∈ argPatterns, s ∣ totalSize a := by
  obtain ⟨a, as, rfl⟩ := exists_cons_of_ne_nil hne
  rw [getTotalSizes, map_cons, dvd_getDivisibleSize, ← map_cons, forall_mem_map]

include hne hpos in
theorem mem_candidates : s ∈ candidates argPatterns ↔
    Fits argPatterns s ∧ argPatterns.flatten.getLast?.any (symmetric s) = true := by
  have hdvd := dvd_commonSize_iff (s := s) hne
  rw [Nat.dvd_iff_mod_eq_zero] at hdvd
  simp only [candidates, possibleSetCountsWithSymmetry, Option.getD_some, foldl_last, Option.isNone_some,
    Bool.or_false, mem_filter, beq_iff_eq, hdvd, Fits]
  grind

theorem ascending_candidates : (candidates argPatterns).Pairwise (· < ·) := by
  refine Pairwise.filter _ (Pairwise.filter _ ?_)
  decide

include hne hpos in
theorem chosen_iff : Chosen argPatterns s ↔ ∃ cs, candidates argPatterns = cs ++ [s] := by
  have hmem : ∀ s, s ∈ candidates argPatterns ↔ _ := fun s => mem_candidates hne hpos
  have hasc : (candidates argPatterns).Pairwise (· < ·) := ascending_candidates
  constructor
  · intro h
    have hs := (hmem s).mpr ⟨h.fits, h.last⟩
    obtain hnil | ⟨cs, c, hcs⟩ := eq_nil_or_concat' (candidates argPatterns)
    · rw [hnil] at hs
      cases hs
    · rw [hcs] at hs hasc hmem
      obtain ⟨hfits, hlast⟩ := (hmem c).mp (by simp)
      exact ⟨cs, by rw [hcs, (le_last hasc hs).antisymm (h.largest c hfits hlast)]⟩
  · rintro ⟨cs, hcs⟩
    rw [hcs] at hasc hmem
    obtain ⟨hfits, hlast⟩ := (hmem s).mp (by simp)
    exact ⟨hfits, hlast, fun s' hf hl => le_last hasc ((hmem s').mpr ⟨hf, hl⟩)⟩

end Choice

theorem Fits.four_le {argPatterns : List ArgPattern} {s : Nat} (h : Fits argPatterns s) :
    ∀ a ∈ argPatterns, 4 ≤ totalSize a := by
  intro a ha
  obtain ⟨hpos, hdvd⟩ := h.2 a ha
  exact (four_le_of_mem s h.1).1.trans (Nat.le_of_dvd hpos hdvd)

theorem getSetIndexes_eq_ok {argPatterns : List ArgPattern} {setIndexes : List (List Nat)} :
    getSetIndexes (getTotalSizes argPatterns) 0 (some argPatterns) = .ok setIndexes ↔
      ∃ s, Chosen argPatterns s ∧ setIndexes = argPatterns.map fun a => replicate (totalSize a / s) s := by
  by_cases hne : argPatterns = []
  · subst hne
    exact iff_of_false (fun h => by cases h) fun ⟨s, hs, _⟩ => absurd hs.last (by simp)
  by_cases hbig : ∀ a ∈ argPatterns, 4 ≤ totalSize a
  · have hpos : ∀ a ∈ argPatterns, 0 < totalSize a := fun a ha => by have := hbig a ha; omega
    have hsmall : (getTotalSizes argPatterns).any (fun t => t < 4 || t < 0) = false := by
      simpa [getTotalSizes] using hbig
    have hcommon : 0 < getDivisibleSize (getTotalSizes argPatterns) := by
      obtain ⟨a, as, rfl⟩ := exists_cons_of_ne_nil hne
      have hdvd := (dvd_commonSize_iff hne).mp dvd_rfl a (by simp)
      exact Nat.pos_of_dvd_of_pos hdvd (hpos a (by simp))
    rw [getSetIndexes, if_neg (by simpa [getTotalSizes] using hne), hsmall, if_neg Bool.false_ne_true]
    simp only [chosen_iff hne hpos, lt_irrefl, false_and, if_false, true_and]
    obtain hnil | ⟨cs, c, hcs⟩ := eq_nil_or_concat' (candidates argPatterns)
    · unfold candidates at hnil
      simp only [candidates, hnil, nil_eq_append_iff]
      split_ifs <;> simp
    · have hmem : ∀ x ∈ cs ++ [c], x ∈ setSizes ∧ getDivisibleSize (getTotalSizes argPatterns) % x = 0 := by
        intro x hx
        rw [← hcs, candidates] at hx
        simpa using mem_of_mem_filter hx
      have hsize : commonSetDriveCount (getDivisibleSize (getTotalSizes argPatterns)) (cs ++ [c]) = c := by
        refine commonSetDriveCount_eq (hcs ▸ ascending_candidates) (fun x hx => ⟨?_, (hmem x hx).2⟩) hcommon
        have := four_le_of_mem x (hmem x hx).1
        omega
      obtain ⟨hc, hmod⟩ := hmem c (by simp)
      have hcount : setSizes.filter (fun s => getDivisibleSize (getTotalSizes argPatterns) % s == 0) ≠ [] :=
        ne_nil_of_mem (mem_filter.mpr ⟨hc, by simpa using hmod⟩)
      have hrange := four_le_of_mem c hc
      unfold candidates at hcs ⊢
      rw [hcs, if_neg hcount, if_neg (by simp), hsize, if_neg (by omega), Except.ok.injEq, getTotalSizes, map_map]
      constructor
      · rintro rfl
        exact ⟨c, ⟨cs, rfl⟩, rfl⟩
      · rintro ⟨s, ⟨cs', heq⟩, rfl⟩
        obtain ⟨-, heq⟩ := append_inj' heq rfl
        rw [singleton_inj.mp heq]
        rfl
  · have hsmall : (getTotalSizes argPatterns).any (fun t => t < 4 || t < 0) = true := by
      simpa [getTotalSizes] using hbig
    rw [getSetIndexes, if_neg (by simpa [getTotalSizes] using hne), hsmall, if_pos rfl]
    exact iff_of_false (fun h => by cases h) fun ⟨s, hs, _⟩ => hbig hs.fits.four_le

/-- The arguments are cut into sets of one size, which join up to the endpoints in order; the size is
symmetric to every pattern, and the largest one that is. -/
def LaidOut (argPatterns : List ArgPattern) (setIndexes : List (List Nat)) : Prop :=
  ∃ size, 4 ≤ size ∧ size ≤ 16 ∧ (∀ a ∈ argPatterns, size ∣ totalSize a) ∧
    (setIndexes = argPatterns.map fun a => replicate (totalSize a / size) size) ∧
    (endpointSets argPatterns setIndexes).flatten = getEndpoints argPatterns ∧
    (∀ set ∈ endpointSets argPatterns setIndexes, set.length = size) ∧
    (∀ p ∈ argPatterns.flatten, symmetric size p = true) ∧
    ∀ s, Fits argPatterns s → (∀ p ∈ argPatterns.flatten, symmetric s p = true) → s ≤ size

/-- The layout is the intended one exactly when the largest set size that is symmetric to the last
pattern is symmetric to every pattern. -/
theorem getSetIndexes_laidOut_iff (argPatterns : List ArgPattern) :
    (∀ setIndexes, getSetIndexes (getTotalSizes argPatterns) 0 (some argPatterns) = .ok setIndexes →
      LaidOut argPatterns setIndexes) ↔
    ∀ s, Chosen argPatterns s → ∀ p ∈ argPatterns.flatten, symmetric s p = true := by
  constructor
  · intro h s hs
    obtain ⟨size, -, -, -, heq, -, -, hsym, -⟩ := h _ (getSetIndexes_eq_ok.mpr ⟨s, hs, rfl⟩)
    intro p hp
    obtain ⟨a, ha, -⟩ := mem_flatten.mp hp
    obtain ⟨hpos, hdvd⟩ := hs.fits.2 a ha
    -- The size of the sets can be read off the indexes.
    have hmem : s ∈ replicate (totalSize a / size) size := by
      rw [← map_inj_left.mp heq a ha]
      exact mem_replicate.mpr ⟨(Nat.div_pos (Nat.le_of_dvd hpos hdvd) (Nat.pos_of_dvd_of_pos hdvd hpos)).ne', rfl⟩
    rw [eq_of_mem_replicate hmem]
    exact hsym p hp
  · intro h setIndexes hok
    obtain ⟨s, hs, rfl⟩ := getSetIndexes_eq_ok.mp hok
    have hdvd : ∀ a ∈ argPatterns, s ∣ totalSize a := fun a ha => (hs.fits.2 a ha).2
    obtain ⟨hfour, hsixteen⟩ := four_le_of_mem s hs.fits.1
    have hsum : (argPatterns.map fun a => replicate (totalSize a / s) s).flatten.sum =
        (getEndpoints argPatterns).length := by
      rw [length_getEndpoints, getTotalSizes, sum_flatten, map_map]
      refine congrArg sum (map_congr_left fun a ha => ?_)
      simp [Nat.div_mul_cancel (hdvd a ha)]
    refine ⟨s, hfour, hsixteen, hdvd, rfl, ?_, fun set hset => ?_, h s hs, fun s' hf hsym => ?_⟩
    · rw [endpointSets, flatten_cutSets, hsum, drop_zero, take_length]
    · refine length_of_mem_cutSets (fun m hm => ?_) (by rw [Nat.zero_add, hsum]) hset
      obtain ⟨l, hl, hm⟩ := mem_flatten.mp hm
      obtain ⟨a, -, rfl⟩ := mem_map.mp hl
      exact eq_of_mem_replicate hm
    · refine hs.largest s' hf ?_
      have hlast := hs.last
      cases hp : argPatterns.flatten.getLast? with
      | none => rw [hp] at hlast; cases hlast
      | some p => exact hsym p (mem_of_getLast? hp)

/-- Three servers with eight drives each: sets of twelve drives, though eight does not divide twelve. -/
theorem getSetIndexes_asymmetric :
    let argPatterns := [[EllipsesPattern.mk "" "" ["1", "2", "3", "4", "5", "6", "7", "8"], ⟨"h", "/d", ["1", "2", "3"]⟩]]
    getSetIndexes (getTotalSizes argPatterns) 0 (some argPatterns) = .ok [[12, 12]] ∧
      ¬ LaidOut argPatterns [[12, 12]] := by
  refine ⟨rfl, ?_⟩
  rintro ⟨size, -, -, -, heq, -, -, hsym, -⟩
  have hfirst : [12, 12] = replicate (24 / size) size := (cons.inj heq).1
  have hmem : 12 ∈ replicate (24 / size) size := hfirst ▸ mem_cons_self
  obtain rfl := eq_of_mem_replicate hmem
  exact absurd (hsym _ mem_cons_self) (by decide)

end Otterio
