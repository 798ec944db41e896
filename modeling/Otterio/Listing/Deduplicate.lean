import Otterio.Listing.Merge

/-!
# Deduplication with and without a function that resolves conflicts

The loop of `deduplicate` over the entries that are kept (`cmd/metacache-entries.go`) starts at the last one and goes
up. Without a function that resolves conflicts, a second entry of one name that does not match is compared with what
comes after the last entry, and the call panics.
-/

namespace Otterio.Listing

open List MetaCacheEntry

def MetaCacheEntry.likelyMatches (e other : MetaCacheEntry) : Bool :=
  if e.metadata.length ≠ other.metadata.length ∨ e.name ≠ other.name then false else true

section Model

variable (compareMeta : Option (MetaCacheEntry → MetaCacheEntry → Bool)) (obj : MetaCacheEntry)

/-- The loop over `dst`, at `dst[i:]`: the new `dst`, `found` and `dupesLeft`, or no value if `i` is out of range. -/
def keptLoop (dst : List MetaCacheEntry) :
    Nat → List MetaCacheEntry → Bool → Option (List MetaCacheEntry × Bool × Bool)
  | _, [], _ => none
  | i, existing :: rest, dupesLeft =>
    if existing.name ≠ obj.name then some (dst, false, dupesLeft)
    else
      match compareMeta with
      | some compareMeta => some (if compareMeta existing obj then dst.set i obj else dst, true, dupesLeft)
      | none =>
        if obj.likelyMatches existing then some (dst, true, dupesLeft) else keptLoop dst (i + 1) rest true

/-- One round. The entries of `dst` are written over ones that were read before. -/
def dedupeRound (s : List MetaCacheEntry × Bool) : Option (List MetaCacheEntry × Bool) := do
  let start := s.1.length - 1
  let (dst, found, dupesLeft) ←
    if s.1.length = 0 then some (s.1, false, s.2) else keptLoop compareMeta obj s.1 start (s.1.drop start) s.2
  some (if found then dst else dst ++ [obj], dupesLeft)

end Model

/-- `deduplicate`: the entries that are left, and whether duplicates may be. -/
def deduplicateWith (compareMeta : Option (MetaCacheEntry → MetaCacheEntry → Bool)) (l : List MetaCacheEntry) :
    Option (List MetaCacheEntry × Bool) :=
  l.foldlM (fun s obj => dedupeRound compareMeta obj s) ([], false)

/-- What a function that resolves conflicts makes of the entries of one name. -/
def runFold (f : MetaCacheEntry → MetaCacheEntry → Bool) : List MetaCacheEntry → Option MetaCacheEntry
  | [] => none
  | x :: run => some (run.foldl (fun existing obj => if f existing obj then obj else existing) x)

/-- An entry is kept unless it matches one that is. -/
def keepUnmatched (kept : List MetaCacheEntry) (obj : MetaCacheEntry) : List MetaCacheEntry :=
  if kept.any obj.likelyMatches then kept else kept ++ [obj]

/-- The call returns, in both ways of using it, with the entries that it should leave. -/
structure Deduplicates (l : List MetaCacheEntry) : Prop where
  resolved : ∀ f, ∃ r dupesLeft, deduplicateWith (some f) l = some (r, dupesLeft) ∧ Ascending r ∧
    ∀ e, e ∈ r ↔ runFold f (l.filter (·.name = e.name)) = some e
  unresolved : ∃ r dupesLeft, deduplicateWith none l = some (r, dupesLeft) ∧ r = l.foldl keepUnmatched [] ∧
    (dupesLeft = true ↔ ¬ (r.map name).Nodup)

/-- Entries of one name have metadata of one length. -/
def SameLengths (l : List MetaCacheEntry) : Prop :=
  l.Pairwise fun x y => x.name = y.name → x.metadata.length = y.metadata.length

variable {f : MetaCacheEntry → MetaCacheEntry → Bool} {x obj : MetaCacheEntry} {l dst : List MetaCacheEntry} {d : Bool}

theorem dedupeRound_some : dedupeRound (some f) obj (dst, d) = some (deduplicateStep f dst obj, d) := by
  rcases eq_nil_or_concat dst with rfl | ⟨dst, x, rfl⟩
  · rfl
  · unfold dedupeRound deduplicateStep
    by_cases hname : x.name = obj.name
    · by_cases hf : f x obj <;> simp [keptLoop, hname, hf]
    · simp [keptLoop, hname]

theorem dedupeRound_none : dedupeRound none obj (dst ++ [x], d) =
    if x.name = obj.name then if x.metadata.length = obj.metadata.length then some (dst ++ [x], d) else none
    else some (dst ++ [x] ++ [obj], d) := by
  unfold dedupeRound
  by_cases hname : x.name = obj.name
  · by_cases hlen : x.metadata.length = obj.metadata.length <;> simp [keptLoop, likelyMatches, hname, hlen, Ne.symm]
  · simp [keptLoop, hname]

theorem deduplicateWith_some : deduplicateWith (some f) l = some (deduplicate f l, false) := by
  unfold deduplicateWith deduplicate
  generalize ([] : List MetaCacheEntry) = dst
  induction l generalizing dst with
  | nil => rfl
  | cons obj l ih =>
    rw [foldlM_cons, dedupeRound_some]
    exact ih _

theorem name_lt_of_ne {y : MetaCacheEntry} (hsorted : (x :: y :: l).Pairwise (·.name ≤ ·.name))
    (hne : x.name ≠ y.name) : ∀ z ∈ y :: l, x.name < z.name := by
  obtain ⟨hx, hl⟩ := pairwise_cons.mp hsorted
  have hlt : x.name < y.name := lt_of_le_of_ne (hx y mem_cons_self) hne
  exact forall_mem_cons.mpr ⟨hlt, fun z hz => hlt.trans_le ((pairwise_cons.mp hl).1 z hz)⟩

theorem deduplicateFrom_spec (hsorted : (x :: l).Pairwise (·.name ≤ ·.name)) :
    Ascending (deduplicateFrom f x l) ∧ (∀ e ∈ deduplicateFrom f x l, x.name ≤ e.name) ∧
      ∀ e, e ∈ deduplicateFrom f x l ↔ runFold f ((x :: l).filter (·.name = e.name)) = some e := by
  induction l generalizing x with
  | nil =>
    refine ⟨pairwise_singleton _ _, by simp [deduplicateFrom], fun e => ?_⟩
    by_cases he : x.name = e.name
    · rw [filter_cons_of_pos (by simp [he]), deduplicateFrom, mem_singleton]
      exact eq_comm.trans (Option.some.injEq _ _).symm.to_iff
    · have hne : e ≠ x := fun h => he (h ▸ rfl)
      simp [deduplicateFrom, runFold, he, hne]
  | cons y l ih =>
    obtain ⟨hx, hl⟩ := pairwise_cons.mp hsorted
    by_cases hname : x.name = y.name
    · -- one of the two goes on
      rw [deduplicateFrom, if_neg (not_not.mpr hname)]
      have hz : (if f x y then y else x).name = x.name := by
        split
        · exact hname.symm
        · rfl
      obtain ⟨hasc, hle, hmem⟩ := ih (pairwise_cons.mpr
        ⟨fun w hw => hz ▸ hx w (mem_cons_of_mem y hw), (pairwise_cons.mp hl).2⟩)
      refine ⟨hasc, fun e he => hz ▸ hle e he, fun e => (hmem e).trans ?_⟩
      by_cases he : x.name = e.name
      · rw [filter_cons_of_pos (by simp [hz, he]), filter_cons_of_pos (by simp [he]),
          filter_cons_of_pos (by simp [← hname, he])]
        rfl
      · rw [filter_cons_of_neg (by simp [hz, he]), filter_cons_of_neg (by simp [he]),
          filter_cons_of_neg (by simp [← hname, he])]
    · rw [deduplicateFrom, if_pos hname]
      obtain ⟨hasc, hle, hmem⟩ := ih hl
      have hlt := name_lt_of_ne hsorted hname
      have hnext := fun e he => (hlt y mem_cons_self).trans_le (hle e he)
      refine ⟨pairwise_cons.mpr ⟨hnext, hasc⟩, forall_mem_cons.mpr ⟨le_rfl, fun e he => (hnext e he).le⟩, fun e => ?_⟩
      rw [mem_cons, hmem, filter_cons (x := x)]
      by_cases he : x.name = e.name
      · have hnil : (y :: l).filter (·.name = e.name) = [] :=
          filter_eq_nil_iff.mpr fun z hz => by simpa [← he] using (hlt z hz).ne'
        rw [hnil, if_pos (by simp [he])]
        exact ⟨fun h => (h.resolve_right (by simp [runFold])).symm ▸ rfl, fun h => .inl (Option.some.inj h).symm⟩
      · rw [if_neg (by simp [he]), or_iff_right fun h => he (congrArg name h).symm]

/-- Without a function the rounds keep the first entry of each name, or the call panics. -/
theorem foldlM_dedupeRound_none (hsorted : (x :: l).Pairwise (·.name ≤ ·.name)) (hdst : ∀ e ∈ dst, e.name < x.name) :
    (SameLengths (x :: l) → l.foldlM (fun s obj => dedupeRound none obj s) (dst ++ [x], d) =
        some (dst ++ deduplicateFrom (fun _ _ => false) x l, d) ∧
      l.foldl keepUnmatched (dst ++ [x]) = dst ++ deduplicateFrom (fun _ _ => false) x l) ∧
    (¬ SameLengths (x :: l) → l.foldlM (fun s obj => dedupeRound none obj s) (dst ++ [x], d) = none) := by
  induction l generalizing x dst with
  | nil => exact ⟨fun _ => ⟨rfl, rfl⟩, fun h => absurd (pairwise_singleton _ _) h⟩
  | cons y l ih =>
    obtain ⟨hx, hl⟩ := pairwise_cons.mp hsorted
    rw [foldlM_cons, dedupeRound_none]
    by_cases hname : x.name = y.name
    · rw [if_pos hname, deduplicateFrom, if_neg (not_not.mpr hname), foldl_cons]
      by_cases hlen : x.metadata.length = y.metadata.length
      · have hkeep : keepUnmatched (dst ++ [x]) y = dst ++ [x] := by
          simp [keepUnmatched, likelyMatches, hname, hlen]
        have hsame : SameLengths (x :: y :: l) ↔ SameLengths (x :: l) := by
          simp only [SameLengths, pairwise_cons, forall_mem_cons, hname, hlen]
          tauto
        rw [if_pos hlen, hkeep, hsame]
        exact ih (pairwise_cons.mpr ⟨fun w hw => hx w (mem_cons_of_mem y hw), (pairwise_cons.mp hl).2⟩) hdst
      · rw [if_neg hlen]
        exact ⟨fun h => absurd ((pairwise_cons.mp h).1 y mem_cons_self hname) hlen, fun _ => rfl⟩
    · have hlt := name_lt_of_ne hsorted hname
      have hdst' : ∀ e ∈ dst ++ [x], e.name < y.name := by
        intro e he
        rcases mem_append.mp he with he | he
        · exact (hdst e he).trans (hlt y mem_cons_self)
        · exact mem_singleton.mp he ▸ hlt y mem_cons_self
      have hkeep : keepUnmatched (dst ++ [x]) y = dst ++ [x] ++ [y] := by
        refine if_neg fun h => ?_
        obtain ⟨e, he, hmatch⟩ := any_eq_true.mp h
        exact (hdst' e he).ne' (by simp_all [likelyMatches])
      have hsame : SameLengths (x :: y :: l) ↔ SameLengths (y :: l) :=
        ⟨fun h => (pairwise_cons.mp h).2, fun h => pairwise_cons.mpr ⟨fun z hz heq => absurd heq (hlt z hz).ne, h⟩⟩
      rw [if_neg hname, deduplicateFrom, if_pos hname, foldl_cons, hkeep, hsame]
      have hnext := ih hl hdst'
      rw [append_assoc dst [x] (deduplicateFrom _ y l)] at hnext
      exact hnext

/-- **Deduplication** of a sorted list is right exactly when the entries of each name have metadata of one
length. -/
theorem deduplicates_iff (l : List MetaCacheEntry) (hsorted : l.Pairwise (·.name ≤ ·.name)) :
    Deduplicates l ↔ SameLengths l := by
  cases l with
  | nil =>
    refine iff_of_true ⟨fun f => ⟨[], false, rfl, .nil, fun e => ?_⟩, [], false, rfl, rfl, by simp⟩ .nil
    simp [runFold]
  | cons x l =>
    obtain ⟨hkept, hpanic⟩ := @foldlM_dedupeRound_none x l [] false hsorted (by simp)
    constructor
    · intro h
      obtain ⟨r, dupesLeft, hr, -⟩ := h.unresolved
      by_contra hnot
      cases (hpanic hnot).symm.trans hr
    · intro h
      obtain ⟨hnone, hkeep⟩ := hkept h
      refine ⟨fun f => ?_, _, false, hnone, hkeep.symm, ?_⟩
      · obtain ⟨hasc, -, hmem⟩ := @deduplicateFrom_spec f x l hsorted
        exact ⟨_, false, deduplicateWith_some.trans (by rw [deduplicate_cons]), hasc, hmem⟩
      · have hnodup : ((deduplicateFrom (fun _ _ => false) x l).map name).Nodup :=
          ((deduplicateFrom_spec hsorted).1.imp fun h => ne_of_lt h).map name fun _ _ h => h
        simpa using hnodup

theorem deduplicates_same : Deduplicates [⟨[97], [1]⟩, ⟨[97], [2]⟩, ⟨[98], []⟩] :=
  (deduplicates_iff _ (by decide)).mpr (by unfold SameLengths; decide)

/-- Two entries of one name, an object and a folder. -/
theorem deduplicateWith_panics : deduplicateWith none [⟨[97], []⟩, ⟨[97], [1]⟩] = none := by
  decide

end Otterio.Listing
