import Otterio.Listing.Entry

/-!
# Merging the listings of the sets

`listPath` asks every erasure set and merges each result into the entries so far when it comes
(`cmd/metacache-server-pool.go`): `merge` puts two entries of one name side by side, `deduplicate`
keeps one of them, and the list is cut to the limit.

* `deduplicate_merge`: merged and deduplicated lists are a union, in which `pickEntry` chooses.
* `listPathMerge_eq`: the result is the union of all sets in the order of their completion, cut once.

The function that resolves conflicts decodes its first argument twice and never looks at the second
one. So the entry that is kept is not the one with the latest modification time, but that of the set
that completed last, unless it cannot be decoded.
-/

namespace Otterio.Listing

open List MetaCacheEntry

/-! ## The model -/

/-- The loop of `merge`; each round takes an entry. -/
def mergeLoop (limit : Int) : Nat → List MetaCacheEntry → List MetaCacheEntry → List MetaCacheEntry →
    List MetaCacheEntry × List MetaCacheEntry × List MetaCacheEntry
  | fuel + 1, merged, x :: a, y :: b =>
    let (merged, a, b) :=
      if x.name = y.name ∧ x.metadata = y.metadata then (merged ++ [x], a, b)
      else if x.name < y.name then (merged ++ [x], a, y :: b)
      else (merged ++ [y], x :: a, b)
    if limit > 0 ∧ (merged.length : Int) ≥ limit then (merged, a, b)
    else mergeLoop limit fuel merged a b
  | _, merged, a, b => (merged, a, b)

def merge (a b : List MetaCacheEntry) (limit : Int) : List MetaCacheEntry :=
  let (merged, a, b) := mergeLoop limit (a.length + b.length) [] a b
  if limit < 0 ∨ (merged.length : Int) < limit then merged ++ a ++ b else merged

/-- One round of `deduplicate` with a function that resolves conflicts. -/
def deduplicateStep (compareMeta : MetaCacheEntry → MetaCacheEntry → Bool) (dst : List MetaCacheEntry)
    (obj : MetaCacheEntry) : List MetaCacheEntry :=
  match dst.getLast? with
  | none => dst ++ [obj]
  | some existing =>
    if existing.name ≠ obj.name then dst ++ [obj]
    else if compareMeta existing obj then dst.dropLast ++ [obj]
    else dst

/-- `deduplicate` with a function that resolves conflicts. -/
def deduplicate (compareMeta : MetaCacheEntry → MetaCacheEntry → Bool) (l : List MetaCacheEntry) :
    List MetaCacheEntry :=
  l.foldl (deduplicateStep compareMeta) []

variable (dec : MetaDecoder)

/-- How `listPath` resolves a conflict: both times it is the existing entry that is decoded. -/
def resolveConflict (existing _other : MetaCacheEntry) : Bool :=
  if existing.isDir then false
  else
    match existing.fileInfo dec with
    | .error _ => true
    | .ok eFIV =>
      match existing.fileInfo dec with
      | .error _ => false
      | .ok oFIV => oFIV.modTime > eFIV.modTime

/-- What a set returned: entries, and whether there are no more. -/
structure SetListing where
  entries : List MetaCacheEntry
  atEOF : Bool

structure Merged where
  entries : List MetaCacheEntry := []
  allAtEOF : Bool := true

/-- The result of a set is merged. -/
def mergeSet (limit : Nat) (s : Merged) (e : SetListing) : Merged :=
  let allAtEOF := if e.atEOF then s.allAtEOF else false
  let entries := deduplicate (resolveConflict dec) (merge s.entries e.entries (-1))
  if entries.length > limit then ⟨entries.take limit, false⟩ else ⟨entries, allAtEOF⟩

/-- The entries that `listPath` returns when the sets complete in this order, and whether it returns
`io.EOF`. -/
def listPathMerge (limit : Nat) (order : List SetListing) : List MetaCacheEntry × Bool :=
  let s := order.foldl (mergeSet dec limit) {}
  let truncated := s.entries.length > limit ∨ !s.allAtEOF
  (s.entries.take limit, !decide truncated)

/-- What `merge` makes of two lists without a limit. -/
inductive MergeOf : List MetaCacheEntry → List MetaCacheEntry → List MetaCacheEntry → Prop where
  | nil_left (b : List MetaCacheEntry) : MergeOf [] b b
  | nil_right (a : List MetaCacheEntry) : MergeOf a [] a
  | same (x : MetaCacheEntry) {a b m : List MetaCacheEntry} (h : MergeOf a b m) :
      MergeOf (x :: a) (x :: b) (x :: m)
  | left {x y : MetaCacheEntry} {a b m : List MetaCacheEntry} (hlt : x.name < y.name)
      (h : MergeOf a (y :: b) m) : MergeOf (x :: a) (y :: b) (x :: m)
  | right {x y : MetaCacheEntry} {a b m : List MetaCacheEntry} (hne : x ≠ y) (hlt : ¬ x.name < y.name)
      (h : MergeOf (x :: a) b m) : MergeOf (x :: a) (y :: b) (y :: m)

variable {a b : List MetaCacheEntry}

theorem mergeLoop_mergeOf {fuel : Nat} (hfuel : a.length + b.length ≤ fuel) (merged : List MetaCacheEntry) :
    ∃ m, MergeOf a b m ∧ (mergeLoop (-1) fuel merged a b).1 ++ (mergeLoop (-1) fuel merged a b).2.1 ++
      (mergeLoop (-1) fuel merged a b).2.2 = merged ++ m := by
  induction fuel generalizing a b merged with
  | zero =>
    obtain rfl := length_eq_zero_iff.mp (show a.length = 0 by omega)
    exact ⟨b, .nil_left b, by simp [mergeLoop]⟩
  | succ fuel ih =>
    cases a with
    | nil => exact ⟨b, .nil_left b, by simp [mergeLoop]⟩
    | cons x a =>
      cases b with
      | nil => exact ⟨x :: a, .nil_right _, by simp [mergeLoop]⟩
      | cons y b =>
        simp only [length_cons] at hfuel
        have hlimit : ∀ n : Nat, ¬ ((-1 : Int) > 0 ∧ (n : Int) ≥ -1) := by omega
        unfold mergeLoop
        by_cases hsame : x = y
        · subst hsame
          obtain ⟨m, hm, hmerged⟩ := @ih a b (by omega) (merged ++ [x])
          refine ⟨x :: m, .same x hm, ?_⟩
          simp only [and_self, if_true, hlimit, if_false]
          rw [hmerged, append_assoc]
          rfl
        · have hdiff : ¬ (x.name = y.name ∧ x.metadata = y.metadata) := by
            rintro ⟨hname, hmeta⟩
            cases x
            cases y
            simp_all
          by_cases hlt : x.name < y.name
          · obtain ⟨m, hm, hmerged⟩ := @ih a (y :: b) (by simp only [length_cons]; omega)
              (merged ++ [x])
            refine ⟨x :: m, .left hlt hm, ?_⟩
            simp only [hdiff, hlt, if_true, hlimit, if_false]
            rw [hmerged, append_assoc]
            rfl
          · obtain ⟨m, hm, hmerged⟩ := @ih (x :: a) b (by simp only [length_cons]; omega)
              (merged ++ [y])
            refine ⟨y :: m, .right hsame hlt hm, ?_⟩
            simp only [hdiff, hlt, hlimit, if_false]
            rw [hmerged, append_assoc]
            rfl

theorem merge_mergeOf (a b : List MetaCacheEntry) : MergeOf a b (merge a b (-1)) := by
  obtain ⟨m, hm, hmerged⟩ := mergeLoop_mergeOf (le_refl (a.length + b.length)) []
  unfold merge
  rcases hloop : mergeLoop (-1) (a.length + b.length) [] a b with ⟨merged, a', b'⟩
  rw [hloop] at hmerged
  simp only at hmerged ⊢
  rw [if_pos (.inl (by decide)), hmerged]
  exact hm

/-! ## Deduplication -/

variable {compareMeta : MetaCacheEntry → MetaCacheEntry → Bool}

def deduplicateFrom (compareMeta : MetaCacheEntry → MetaCacheEntry → Bool) :
    MetaCacheEntry → List MetaCacheEntry → List MetaCacheEntry
  | existing, [] => [existing]
  | existing, obj :: l =>
    if existing.name ≠ obj.name then existing :: deduplicateFrom compareMeta obj l
    else deduplicateFrom compareMeta (if compareMeta existing obj then obj else existing) l

theorem foldl_deduplicateStep (l dst : List MetaCacheEntry) (existing : MetaCacheEntry) :
    l.foldl (deduplicateStep compareMeta) (dst ++ [existing]) = dst ++ deduplicateFrom compareMeta existing l := by
  induction l generalizing dst existing with
  | nil => rfl
  | cons obj l ih =>
    rw [foldl_cons, deduplicateStep, List.getLast?_concat, deduplicateFrom]
    simp only
    split
    · rw [ih, append_assoc]
      rfl
    · split
      · rw [dropLast_concat, ih]
      · rw [ih]

theorem deduplicate_cons (x : MetaCacheEntry) (l : List MetaCacheEntry) :
    deduplicate compareMeta (x :: l) = deduplicateFrom compareMeta x l :=
  foldl_deduplicateStep l [] x

variable {x : MetaCacheEntry} {l : List MetaCacheEntry}

theorem deduplicateFrom_of_ne (h : ∀ y ∈ l, x.name ≠ y.name) :
    deduplicateFrom compareMeta x l = x :: deduplicate compareMeta l := by
  cases l with
  | nil => rfl
  | cons y l => rw [deduplicateFrom, if_pos (h y mem_cons_self), deduplicate_cons]

theorem deduplicate_of_ascending (h : Ascending l) : deduplicate compareMeta l = l := by
  induction l with
  | nil => rfl
  | cons x l ih =>
    obtain ⟨hx, hl⟩ := pairwise_cons.mp h
    rw [deduplicate_cons, deduplicateFrom_of_ne fun y hy => (hx y hy).ne, ih hl]

/-- The choice between an entry so far and one of the next set: the latter comes first in the merged
list. -/
def pickEntry (compareMeta : MetaCacheEntry → MetaCacheEntry → Bool) (x y : MetaCacheEntry) : MetaCacheEntry :=
  if compareMeta y x then x else y

theorem pickEntry_name {y : MetaCacheEntry} (h : x.name = y.name) : (pickEntry compareMeta x y).name = x.name := by
  unfold pickEntry
  split
  · rfl
  · exact h.symm

variable {m : List MetaCacheEntry}

theorem MergeOf.mem (h : MergeOf a b m) {z : MetaCacheEntry} (hz : z ∈ m) : z ∈ a ∨ z ∈ b := by
  induction h with
  | nil_left b => exact .inr hz
  | nil_right a => exact .inl hz
  | same x h ih =>
    rcases mem_cons.mp hz with rfl | hz
    · exact .inl mem_cons_self
    · exact (ih hz).imp (mem_cons_of_mem _) (mem_cons_of_mem _)
  | left hlt h ih =>
    rcases mem_cons.mp hz with rfl | hz
    · exact .inl mem_cons_self
    · exact (ih hz).imp_left (mem_cons_of_mem _)
  | right hne hlt h ih =>
    rcases mem_cons.mp hz with rfl | hz
    · exact .inr mem_cons_self
    · exact (ih hz).imp_right (mem_cons_of_mem _)

/-- All names of a merge are larger than one that is smaller than those of its parts. -/
theorem MergeOf.name_ne (h : MergeOf a b m) (ha : ∀ z ∈ a, x.name < z.name) (hb : ∀ z ∈ b, x.name < z.name) :
    ∀ z ∈ m, x.name ≠ z.name := by
  intro z hz
  rcases h.mem hz with hz | hz
  · exact (ha z hz).ne
  · exact (hb z hz).ne

/-- After an entry of the same name from the right part, the one from the left part follows. -/
theorem MergeOf.head_left (h : MergeOf (x :: a) b m) (hb : ∀ z ∈ b, x.name < z.name) :
    ∃ m', m = x :: m' ∧ MergeOf a b m' := by
  cases h with
  | nil_right => exact ⟨a, rfl, .nil_right a⟩
  | same _ h => exact absurd (hb x mem_cons_self) (lt_irrefl _)
  | left hlt h => exact ⟨_, rfl, h⟩
  | right hne hlt h => exact absurd (hb _ mem_cons_self) hlt

theorem MergeOf.deduplicate_eq (h : MergeOf a b m) (ha : Ascending a) (hb : Ascending b) :
    deduplicate compareMeta m = unionBy name (pickEntry compareMeta) a b := by
  induction h with
  | nil_left b => rw [unionBy_nil_left, deduplicate_of_ascending hb]
  | nil_right a => rw [unionBy_nil_right, deduplicate_of_ascending ha]
  | same x h ih =>
    obtain ⟨hx, ha⟩ := pairwise_cons.mp ha
    obtain ⟨hx', hb⟩ := pairwise_cons.mp hb
    have hpick : pickEntry compareMeta x x = x := ite_self x
    rw [deduplicate_cons, deduplicateFrom_of_ne (h.name_ne hx hx'), ih ha hb, unionBy_cons_eq _ _ rfl, hpick]
  | @left x y a b m hlt h ih =>
    obtain ⟨hx, ha⟩ := pairwise_cons.mp ha
    have hlater : ∀ z ∈ y :: b, x.name < z.name := by
      intro z hz
      rcases mem_cons.mp hz with rfl | hz
      · exact hlt
      · exact hlt.trans ((pairwise_cons.mp hb).1 z hz)
    rw [deduplicate_cons, deduplicateFrom_of_ne (h.name_ne hx hlater), ih ha hb, unionBy_cons_lt _ _ hlt]
  | @right x y a b m hne hlt h ih =>
    obtain ⟨hx, ha'⟩ := pairwise_cons.mp ha
    obtain ⟨hy, hb⟩ := pairwise_cons.mp hb
    rcases (not_lt.mp hlt).lt_or_eq with hgt | heq
    · have hlater : ∀ z ∈ x :: a, y.name < z.name := by
        intro z hz
        rcases mem_cons.mp hz with rfl | hz
        · exact hgt
        · exact hgt.trans (hx z hz)
      rw [deduplicate_cons, deduplicateFrom_of_ne (h.name_ne hlater hy), ih ha hb, unionBy_cons_gt _ _ hgt]
    · -- the entry of the left part follows, and one of the two is kept
      have hxb : ∀ z ∈ b, x.name < z.name := fun z hz => heq ▸ hy z hz
      obtain ⟨m', rfl, h'⟩ := h.head_left hxb
      have hrest : x :: deduplicate compareMeta m' =
          x :: unionBy name (pickEntry compareMeta) a b := by
        rw [← deduplicateFrom_of_ne (h'.name_ne hx hxb), ← deduplicate_cons, ih ha hb]
        cases b with
        | nil => rw [unionBy_nil_right, unionBy_nil_right]
        | cons z b => exact unionBy_cons_lt _ _ (hxb z mem_cons_self)
      have hpick : (pickEntry compareMeta x y).name = x.name := pickEntry_name heq.symm
      rw [deduplicate_cons, deduplicateFrom, if_neg (not_not.mpr heq), unionBy_cons_eq _ _ heq.symm,
        ← (List.cons.inj hrest).2]
      refine deduplicateFrom_of_ne fun z hz => ?_
      exact (congrArg (· ≠ z.name) hpick).mpr (h'.name_ne hx hxb z hz)

/-! ## The sets in their order -/

variable {dec} {limit : Nat}

/-- An entry that can be decoded. Directories count as such. -/
def decodable (dec : MetaDecoder) (e : MetaCacheEntry) : Bool := (e.fileInfo dec).isOk

theorem resolveConflict_eq (existing other : MetaCacheEntry) :
    resolveConflict dec existing other = !decodable dec existing := by
  unfold resolveConflict decodable
  split
  · rename_i hdir
    rw [fileInfo, if_pos hdir]
    rfl
  · cases existing.fileInfo dec with
    | error err => rfl
    | ok fi => simp [Except.isOk, Except.toBool]

variable (dec) in
def unionOf (order : List SetListing) : List MetaCacheEntry :=
  (order.map (·.entries)).foldl (unionBy name (pickEntry (resolveConflict dec))) []

variable {s : Merged}

theorem mergeSet_entries {e : SetListing} (hs : Ascending s.entries) (he : Ascending e.entries) :
    (mergeSet dec limit s e).entries =
      (unionBy name (pickEntry (resolveConflict dec)) s.entries e.entries).take limit := by
  unfold mergeSet
  simp only [(merge_mergeOf s.entries e.entries).deduplicate_eq hs he]
  split
  · rfl
  · rename_i hle
    rw [take_of_length_le (not_lt.mp hle)]

variable {order : List SetListing}

theorem foldl_mergeSet_entries (horder : ∀ e ∈ order, Ascending e.entries) (hs : Ascending s.entries) :
    (order.foldl (mergeSet dec limit) s).entries = (order.map (·.entries)).foldl
      (fun a l => (unionBy name (pickEntry (resolveConflict dec)) a l).take limit)
      s.entries := by
  induction order generalizing s with
  | nil => rfl
  | cons e order ih =>
    have he := horder e mem_cons_self
    have hstep := @mergeSet_entries dec limit s e hs he
    have hasc : Ascending (mergeSet dec limit s e).entries := by
      rw [hstep]
      exact (hs.unionBy (fun _ _ h => pickEntry_name h) he).sublist (take_sublist _ _)
    rw [foldl_cons, ih (fun e' he' => horder e' (mem_cons_of_mem _ he')) hasc, hstep]
    rfl

theorem listPathMerge_eq (horder : ∀ e ∈ order, Ascending e.entries) :
    (listPathMerge dec limit order).1 = (unionOf dec order).take limit := by
  have hnil : Ascending ({} : Merged).entries := List.Pairwise.nil
  have hdef : (listPathMerge dec limit order).1 = (order.foldl (mergeSet dec limit) {}).entries.take limit := rfl
  have hfold := @foldl_take_unionBy _ _ _ name (pickEntry (resolveConflict dec)) limit
    (order.map (·.entries)) []
  rw [take_nil] at hfold
  rw [hdef, foldl_mergeSet_entries horder hnil, unionOf]
  rw [hfold, take_take, min_self]

/-! ## The entry of a name -/

def copiesOf (sets : List SetListing) (n : Bytes) : List MetaCacheEntry :=
  sets.filterMap fun e => copy name n e.entries

def namesOf (sets : List SetListing) : Finset Bytes :=
  (sets.flatMap fun e => e.entries.map (·.name)).toFinset

variable (dec) in
/-- An entry of a name that can be decoded, or any one if there is none of these. -/
def IsCandidate (sets : List SetListing) (n : Bytes) (x : MetaCacheEntry) : Prop :=
  x ∈ copiesOf sets n ∧ ((∃ y ∈ copiesOf sets n, decodable dec y) → decodable dec x)

variable (dec) in
/-- An entry of a name whose modification time is the latest. -/
def IsLatest (ys : List MetaCacheEntry) (e : MetaCacheEntry) : Prop :=
  e ∈ ys ∧ ∀ y ∈ ys, ∀ fy, y.fileInfo dec = .ok fy → ∃ fe, e.fileInfo dec = .ok fe ∧ fy.modTime ≤ fe.modTime

variable (dec) in
def choose (x : Option MetaCacheEntry) (ys : List MetaCacheEntry) : Option MetaCacheEntry :=
  ys.foldl (fun x y => pickCopy (pickEntry (resolveConflict dec)) x (some y)) x

variable {n : Bytes} {x y : MetaCacheEntry} {ys : List MetaCacheEntry}
  {sets order : List SetListing}

theorem pickEntry_of_decodable (h : decodable dec y = true) : pickEntry (resolveConflict dec) x y = y := by
  rw [pickEntry, resolveConflict_eq, h]
  rfl

theorem pickEntry_of_not_decodable (h : decodable dec y = false) : pickEntry (resolveConflict dec) x y = x := by
  rw [pickEntry, resolveConflict_eq, h]
  rfl

theorem choose_concat (h : decodable dec y = true) (x : Option MetaCacheEntry) :
    choose dec x (ys ++ [y]) = some y := by
  rw [choose, foldl_append, foldl_cons, foldl_nil]
  cases List.foldl (fun x y => pickCopy (pickEntry (resolveConflict dec)) x (some y)) x ys with
  | none => rfl
  | some z => exact congrArg some (pickEntry_of_decodable h)

theorem choose_of_not_decodable (h : ∀ y ∈ ys, decodable dec y = false) : choose dec (some x) ys = some x := by
  induction ys with
  | nil => rfl
  | cons y ys ih =>
    have hy : pickCopy (pickEntry (resolveConflict dec)) (some x) (some y) = some x :=
      congrArg some (pickEntry_of_not_decodable (h y mem_cons_self))
    rw [choose, foldl_cons, hy]
    exact ih fun z hz => h z (mem_cons_of_mem _ hz)

/-- The chosen entry is one of them, and one that can be decoded if there is any. -/
theorem choose_spec (h : ys ≠ []) : ∃ e ∈ ys, choose dec none ys = some e ∧
      ((∃ y ∈ ys, decodable dec y = true) → decodable dec e = true) := by
  induction ys using List.reverseRecOn with
  | nil => exact absurd rfl h
  | append_singleton ys y ih =>
    cases hy : decodable dec y with
    | true => exact ⟨y, by simp, choose_concat hy none, fun _ => hy⟩
    | false =>
      cases ys with
      | nil =>
        refine ⟨y, by simp, rfl, ?_⟩
        rintro ⟨z, hz, hdec⟩
        obtain rfl : z = y := mem_singleton.mp hz
        exact hdec
      | cons z zs =>
        obtain ⟨e, he, hchoose, hdec⟩ := ih (by simp)
        refine ⟨e, mem_append_left _ he, ?_, ?_⟩
        · rw [choose] at hchoose ⊢
          rw [foldl_append, hchoose, foldl_cons, foldl_nil]
          exact congrArg some (pickEntry_of_not_decodable hy)
        · rintro ⟨w, hw, hwdec⟩
          rcases mem_append.mp hw with hw | hw
          · exact hdec ⟨w, hw, hwdec⟩
          · rw [mem_singleton.mp hw, hy] at hwdec
            cases hwdec

/-! ### The union -/

theorem ascending_unionOf (horder : ∀ e ∈ order, Ascending e.entries) : Ascending (unionOf dec order) := by
  refine AscendingBy.foldl_unionBy (fun _ _ h => pickEntry_name h) ?_ List.Pairwise.nil
  intro l hl
  obtain ⟨e, he, rfl⟩ := mem_map.mp hl
  exact horder e he

theorem copy_unionOf (horder : ∀ e ∈ order, Ascending e.entries) (n : Bytes) :
    copy name n (unionOf dec order) = choose dec none (copiesOf order n) := by
  have hls : ∀ l ∈ order.map (·.entries), Ascending l := by
    intro l hl
    obtain ⟨e, he, rfl⟩ := mem_map.mp hl
    exact horder e he
  rw [unionOf, copy_foldl_unionBy (fun _ _ h => pickEntry_name h) hls List.Pairwise.nil, filterMap_map]
  rfl

theorem names_unionOf (horder : ∀ e ∈ order, Ascending e.entries) :
    (unionOf dec order).map (·.name) = (namesOf order).sort := by
  have hasc := @ascending_unionOf dec order horder
  have hset : namesOf order = ((unionOf dec order).map (·.name)).toFinset := by
    ext n
    rw [namesOf, mem_toFinset, mem_toFinset, unionOf, mem_keys_foldl fun _ _ h => pickEntry_name h]
    simp
  rw [hset]
  refine ((toFinset_sort _ ?_).mpr ?_).symm
  · exact (pairwise_map.mpr hasc).imp fun hlt => hlt.ne
  · exact (pairwise_map.mpr hasc).imp fun hlt => hlt.le

theorem isCandidate_of_mem (horder : ∀ e ∈ order, Ascending e.entries) {e : MetaCacheEntry}
    (he : e ∈ unionOf dec order) : IsCandidate dec order e.name e := by
  have hcopy := AscendingBy.copy_eq (ascending_unionOf horder) he
  rw [copy_unionOf horder] at hcopy
  have hne : copiesOf order e.name ≠ [] := by
    intro hnil
    rw [hnil] at hcopy
    cases hcopy
  obtain ⟨e', he', hchoose, hdec⟩ := @choose_spec dec _ hne
  rw [hcopy] at hchoose
  obtain rfl := Option.some.inj hchoose
  exact ⟨he', hdec⟩

theorem copiesOf_perm (h : order.Perm sets) (n : Bytes) : (copiesOf order n).Perm (copiesOf sets n) := h.filterMap _

theorem IsCandidate.perm (h : order.Perm sets) (hx : IsCandidate dec order n x) : IsCandidate dec sets n x := by
  obtain ⟨hmem, hdec⟩ := hx
  refine ⟨(copiesOf_perm h n).mem_iff.mp hmem, ?_⟩
  rintro ⟨y, hy, hydec⟩
  exact hdec ⟨y, (copiesOf_perm h n).mem_iff.mpr hy, hydec⟩

theorem namesOf_perm (h : order.Perm sets) : namesOf order = namesOf sets :=
  toFinset_eq_of_perm _ _ (h.flatMap_right _)

/-- Every candidate of a name is the entry of the union in some order: one that can be decoded when its
set completes last, and one among others that cannot when its set completes first. -/
theorem IsCandidate.exists_order (hsets : ∀ e ∈ sets, Ascending e.entries) (hx : IsCandidate dec sets n x) :
    ∃ order, order.Perm sets ∧ copy name n (unionOf dec order) = some x := by
  obtain ⟨hmem, hdec⟩ := hx
  obtain ⟨l, hl, hcopy⟩ := mem_filterMap.mp hmem
  obtain ⟨s₁, s₂, rfl⟩ := append_of_mem hl
  have hfirst : (l :: (s₁ ++ s₂)).Perm (s₁ ++ l :: s₂) := perm_middle.symm
  have hlast : ((s₁ ++ s₂) ++ [l]).Perm (s₁ ++ l :: s₂) := (perm_append_singleton l (s₁ ++ s₂)).trans hfirst
  cases hx : decodable dec x with
  | true =>
    refine ⟨_, hlast, ?_⟩
    rw [copy_unionOf fun e he => hsets e (hlast.mem_iff.mp he)]
    have hcopies : copiesOf ((s₁ ++ s₂) ++ [l]) n = copiesOf (s₁ ++ s₂) n ++ [x] := by
      have hl : copiesOf [l] n = [x] := filterMap_cons_some hcopy
      rw [← hl]
      exact filterMap_append
    rw [hcopies, choose_concat hx]
  | false =>
    have hbad : ∀ y ∈ copiesOf (s₁ ++ l :: s₂) n, decodable dec y = false := by
      intro y hy
      by_contra hgood
      rw [hdec ⟨y, hy, Bool.eq_true_of_not_eq_false hgood⟩] at hx
      cases hx
    refine ⟨_, hfirst, ?_⟩
    rw [copy_unionOf fun e he => hsets e (hfirst.mem_iff.mp he)]
    have hcopies : copiesOf (l :: (s₁ ++ s₂)) n = x :: copiesOf (s₁ ++ s₂) n := filterMap_cons_some hcopy
    rw [hcopies]
    refine choose_of_not_decodable fun y hy => hbad y ?_
    rw [← (copiesOf_perm hfirst n).mem_iff, hcopies]
    exact mem_cons_of_mem _ hy

/-! ## The order of completion -/

/-- The merged listing is the same for every order of completion: the first names of the union, each
with its latest entry. -/
def MergedRight (dec : MetaDecoder) (limit : Nat) (sets : List SetListing) : Prop :=
  ∃ merged, (∀ order, order.Perm sets → (listPathMerge dec limit order).1 = merged) ∧ Ascending merged ∧
    merged.map (·.name) = (namesOf sets).sort.take limit ∧
    ∀ e ∈ merged, IsLatest dec (copiesOf sets e.name) e

/-- The entries of a listed name that can be decoded, or all of them if there is none, are the same in
all sets. -/
def SameEntries (dec : MetaDecoder) (limit : Nat) (sets : List SetListing) : Prop :=
  ∀ n ∈ (namesOf sets).sort.take limit, ∀ x y, IsCandidate dec sets n x → IsCandidate dec sets n y → x = y

theorem names_take_unionOf (hsets : ∀ e ∈ sets, Ascending e.entries) (h : order.Perm sets) :
    ((unionOf dec order).take limit).map (·.name) = (namesOf sets).sort.take limit := by
  have horder : ∀ e ∈ order, Ascending e.entries := fun e he => hsets e (h.mem_iff.mp he)
  rw [map_take, names_unionOf horder, namesOf_perm h]

theorem SameEntries.mergedRight (h : SameEntries dec limit sets)
    (hsets : ∀ e ∈ sets, Ascending e.entries) : MergedRight dec limit sets := by
  -- every listed entry is a candidate, whatever the order
  have hlisted : ∀ order, order.Perm sets → ∀ e ∈ (unionOf dec order).take limit,
      IsCandidate dec sets e.name e ∧ e.name ∈ (namesOf sets).sort.take limit := by
    intro order horder e he
    have hcand := isCandidate_of_mem (fun e he => hsets e (horder.mem_iff.mp he)) (mem_of_mem_take he)
    refine ⟨hcand.perm horder, ?_⟩
    rw [← names_take_unionOf hsets horder]
    exact mem_map_of_mem he
  have hasc : ∀ order, order.Perm sets → Ascending ((unionOf dec order).take limit) := fun order horder =>
    (ascending_unionOf fun e he => hsets e (horder.mem_iff.mp he)).sublist (take_sublist _ _)
  refine ⟨(unionOf dec sets).take limit, ?_, hasc sets (.refl _), names_take_unionOf hsets (.refl _), ?_⟩
  · intro order horder
    rw [listPathMerge_eq fun e he => hsets e (horder.mem_iff.mp he)]
    have hnames := @names_take_unionOf dec limit sets order hsets horder
    rw [← @names_take_unionOf dec limit sets sets hsets (.refl _)] at hnames
    refine eq_of_keys_eq hnames fun x hx y hy hname => ?_
    obtain ⟨hx, hlisted'⟩ := hlisted order horder x hx
    exact h x.name hlisted' x y hx (hname ▸ (hlisted sets (.refl _) y hy).1)
  · intro e he
    obtain ⟨hcand, hname⟩ := hlisted sets (.refl _) e he
    refine ⟨hcand.1, fun y hy fy hfy => ?_⟩
    have hydec : decodable dec y = true := by rw [decodable, hfy]; rfl
    have hy : y = e := h e.name hname y e ⟨hy, fun _ => hydec⟩ hcand
    exact ⟨fy, hy ▸ hfy, le_refl _⟩

theorem MergedRight.sameEntries (h : MergedRight dec limit sets)
    (hsets : ∀ e ∈ sets, Ascending e.entries) : SameEntries dec limit sets := by
  obtain ⟨merged, hmerged, hasc, hnames, -⟩ := h
  intro n hn
  -- each candidate is in the listing of some order, and that is the one listing
  have hlisted : ∀ z, IsCandidate dec sets n z → z ∈ merged ∧ z.name = n := by
    intro z hz
    obtain ⟨order, horder, hcopy⟩ := hz.exists_order hsets
    have hasc' : Ascending (unionOf dec order) :=
      ascending_unionOf fun e he => hsets e (horder.mem_iff.mp he)
    have hcut := (hmerged order horder).symm.trans
      (listPathMerge_eq fun e he => hsets e (horder.mem_iff.mp he))
    rw [← hnames] at hn
    obtain ⟨e, he, rfl⟩ := mem_map.mp hn
    have he' : e ∈ unionOf dec order := mem_of_mem_take (hcut ▸ he)
    rw [AscendingBy.copy_eq hasc' he'] at hcopy
    obtain rfl := Option.some.inj hcopy
    exact ⟨he, rfl⟩
  intro x y hx hy
  obtain ⟨hx', hxname⟩ := hlisted x hx
  obtain ⟨hy', hyname⟩ := hlisted y hy
  have hcopy := AscendingBy.copy_eq hasc hx'
  rw [hxname, ← hyname, AscendingBy.copy_eq hasc hy'] at hcopy
  exact (Option.some.inj hcopy).symm

/-- The merged listing is right in every order of completion just when no listed name has two
different entries to choose from. -/
theorem mergedRight_iff (dec : MetaDecoder) (limit : Nat) (sets : List SetListing)
    (hsets : ∀ e ∈ sets, Ascending e.entries) : MergedRight dec limit sets ↔ SameEntries dec limit sets :=
  ⟨fun h => h.sameEntries hsets, fun h => h.mergedRight hsets⟩

/-- Two sets that have the same entry of a name. -/
theorem mergedRight_same_entry :
    let sets : List SetListing := [⟨[⟨ascii "a", [1]⟩], true⟩, ⟨[⟨ascii "a", [1]⟩, ⟨ascii "b", [2]⟩], true⟩]
    (∀ e ∈ sets, Ascending e.entries) ∧ MergedRight byteDecoder 2 sets := by
  intro sets
  have hsets : ∀ e ∈ sets, Ascending e.entries := by
    unfold Ascending AscendingBy
    decide
  refine ⟨hsets, (mergedRight_iff byteDecoder 2 sets hsets).mpr ?_⟩
  intro n _ x y hx hy
  have hmem : ∀ z, IsCandidate byteDecoder sets n z → z.name = n ∧ (z = ⟨ascii "a", [1]⟩ ∨ z = ⟨ascii "b", [2]⟩) := by
    intro z hz
    obtain ⟨l, hl, hcopy⟩ := mem_filterMap.mp hz.1
    obtain ⟨hz, hname⟩ := copy_eq_some hcopy
    refine ⟨hname, ?_⟩
    simp only [sets, mem_cons, not_mem_nil, or_false] at hl
    rcases hl with rfl | rfl
    · exact .inl (mem_singleton.mp hz)
    · simpa using hz
  obtain ⟨hxn, hx⟩ := hmem x hx
  obtain ⟨hyn, hy⟩ := hmem y hy
  have hname : x.name = y.name := hxn.trans hyn.symm
  rcases hx with rfl | rfl <;> rcases hy with rfl | rfl
  · rfl
  · exact absurd hname (by decide)
  · exact absurd hname (by decide)
  · rfl

/-- The object is at time 1 in one set and at time 2 in the other: whichever set completes last has
its entry listed. -/
theorem mergedRight_depends_on_order : let old : SetListing := ⟨[⟨ascii "a", [1]⟩], true⟩
    let new : SetListing := ⟨[⟨ascii "a", [2]⟩], true⟩
    (∀ e ∈ [old, new], Ascending e.entries) ∧ (listPathMerge byteDecoder 1 [old, new]).1 = [⟨ascii "a", [2]⟩] ∧
      (listPathMerge byteDecoder 1 [new, old]).1 = [⟨ascii "a", [1]⟩] ∧
      ¬ MergedRight byteDecoder 1 [old, new] := by
  intro old new
  have hnew : (listPathMerge byteDecoder 1 [old, new]).1 = [⟨ascii "a", [2]⟩] := by decide
  have hold : (listPathMerge byteDecoder 1 [new, old]).1 = [⟨ascii "a", [1]⟩] := by decide
  refine ⟨by unfold Ascending AscendingBy; decide, hnew, hold, ?_⟩
  rintro ⟨merged, hmerged, -⟩
  have hsame := (hmerged [old, new] (.refl _)).trans (hmerged [new, old] (.swap _ _ _)).symm
  exact absurd hsame (by decide)

end Otterio.Listing
