import Otterio.Lib.Tally
import Otterio.Storage.FileInfo

/-!
# Quorum reads of object metadata

One object's metadata is read from `N` drives; `partsMetadata` and `errs` are the results, drive by
drive (`cmd/erasure-healing-common.go`, `cmd/erasure-metadata-utils.go`).

* `reduceErrs` elects the most frequent error, `commonTime` the most frequent modification time and,
  in a second vote, the most frequent data directory. Each vote ranges over a Go map, so each takes
  an iteration order.
* `listOnlineDisks` keeps the drives that match the elected pair, `getLatestFileInfo` returns one of
  the matching entries.
* `agrees T D`: a drive returned a valid entry with time `T` and directory `D` and no error.
  `commonTime_of_majority` says when the two votes elect the pair that more than half of the drives
  agree on; `listOnlineDisks_of_majority` and `getLatestFileInfo_of_majority` are what follows.
-/

namespace Otterio

open Err List

/-! ## Votes -/

/-- `reduceErrs`: the number of occurrences of the most frequent error that is not ignored, and
that error; `nil` is preferred. -/
def reduceErrs (o : IterOrder (Option Error × Nat)) (errs : List (Option Error))
    (ignoredErrs : List Error) : Nat × Option Error :=
  let errorCounts := tally (errs.filter fun err => !isErrIgnored err ignoredErrs)
  electBy (fun err _ => err.isNone) id (o.order errorCounts) (0, none)

def reduceQuorumErrs (o : IterOrder (Option Error × Nat)) (errs : List (Option Error))
    (ignoredErrs : List Error) (quorum : Int) (quorumErr : Error) : Option Error :=
  let r := reduceErrs o errs ignoredErrs
  if (r.1 : Int) ≥ quorum then r.2 else some quorumErr

def reduceReadQuorumErrs (o : IterOrder (Option Error × Nat)) (errs : List (Option Error))
    (ignoredErrs : List Error) (readQuorum : Int) : Option Error :=
  reduceQuorumErrs o errs ignoredErrs readQuorum errErasureReadQuorum

/-- `timeSentinel`: the beginning of Unix time. -/
def timeSentinel : Time := 0

/-- The orders in which `commonTime` ranges over its two maps. -/
structure VoteOrder where
  time : IterOrder (Int × Nat)
  dir : IterOrder (String × Nat)

/-- `commonTime`: the most frequent time other than the sentinel (the latest one of a tie) and the
most frequent non-empty data directory. -/
def commonTime (o : VoteOrder) (modTimes : List Time) (dataDirs : List String) : Time × String :=
  let timeOccurrenceMap := tally ((modTimes.filter (· != timeSentinel)).map Time.unixNano)
  let dataDirOccurrenceMap := tally (dataDirs.filter (· != ""))
  let modTime := (electBy (fun nano modTime => modTime < Time.ofUnixNano nano) Time.ofUnixNano
    (o.time.order timeOccurrenceMap) (0, Time.zero)).2
  let dataDir := (electBy (fun _ _ => false) id (o.dir.order dataDirOccurrenceMap) (0, "")).2
  (modTime, dataDir)

/-- `listObjectModtimes`: the sentinel stands for a drive that returned an error. -/
def listObjectModtimes (partsMetadata : List FileInfo) (errs : List (Option Error)) : List Time :=
  zipWith (fun fi err => if err.isSome then timeSentinel else fi.modTime) partsMetadata errs

def listDataDirs (partsMetadata : List FileInfo) (errs : List (Option Error)) : List String :=
  zipWith (fun fi err => if err.isSome then "" else fi.dataDir) partsMetadata errs

/-- The test of `listOnlineDisks` and `getLatestFileInfo` for one drive. -/
def matchesElected (modTime : Time) (dataDir : String) (fi : FileInfo) (t : Time) : Bool :=
  fi.isValid && t == modTime && fi.dataDir == dataDir

/-- `listOnlineDisks`. A `nil` disk is `none`. -/
def listOnlineDisks {Disk : Type} (o : VoteOrder) (disks : List (Option Disk)) (partsMetadata : List FileInfo)
    (errs : List (Option Error)) : List (Option Disk) × Time × String :=
  let modTimes := listObjectModtimes partsMetadata errs
  let dataDirs := listDataDirs partsMetadata errs
  let (modTime, dataDir) := commonTime o modTimes dataDirs
  let onlineDisks := zipWith
    (fun (fi, t) disk => if matchesElected modTime dataDir fi t then disk else none)
    (partsMetadata.zip modTimes) disks
  (onlineDisks, modTime, dataDir)

/-- The loop of `getLatestFileInfo`: how many entries match, and the last one. -/
def latestMatch (modTime : Time) (dataDir : String) (entries : List (FileInfo × Time)) : Nat × FileInfo :=
  entries.foldl (fun st e =>
    if matchesElected modTime dataDir e.1 e.2 then (st.1 + 1, e.1) else st) (0, {})

def getLatestFileInfo (o : VoteOrder) (oe : IterOrder (Option Error × Nat))
    (partsMetadata : List FileInfo) (errs : List (Option Error)) : Except Error FileInfo :=
  match reduceReadQuorumErrs oe errs objectOpIgnoredErrs (partsMetadata.length / 2) with
  | some reducedErr => .error reducedErr
  | none =>
    let modTimes := listObjectModtimes partsMetadata errs
    let dataDirs := listDataDirs partsMetadata errs
    let (modTime, dataDir) := commonTime o modTimes dataDirs
    let r := latestMatch modTime dataDir (partsMetadata.zip modTimes)
    if r.1 < partsMetadata.length / 2 then .error errErasureReadQuorum else .ok r.2

/-! ## One read result per drive -/

/-- The drive returned no error and a valid entry with time `T` and directory `D`. -/
def agrees (T : Time) (D : String) (r : FileInfo × Option Error) : Bool :=
  r.2.isNone && r.1.isValid && r.1.modTime == T && r.1.dataDir == D

theorem listObjectModtimes_eq_map (partsMetadata : List FileInfo) (errs : List (Option Error)) :
    listObjectModtimes partsMetadata errs = (partsMetadata.zip errs).map fun r =>
      if r.2.isSome then timeSentinel else r.1.modTime := by
  rw [listObjectModtimes, ← map_uncurry_zip_eq_zipWith]
  rfl

theorem listDataDirs_eq_map (partsMetadata : List FileInfo) (errs : List (Option Error)) :
    listDataDirs partsMetadata errs = (partsMetadata.zip errs).map fun r =>
      if r.2.isSome then "" else r.1.dataDir := by
  rw [listDataDirs, ← map_uncurry_zip_eq_zipWith]
  rfl

variable {T : Time} {D : String} {r : FileInfo × Option Error}

theorem agrees_iff :
    agrees T D r = true ↔ ((r.2 = none ∧ r.1.isValid = true) ∧ r.1.modTime = T) ∧ r.1.dataDir = D := by
  simp [agrees]

variable {α β γ : Type}

/-- `f` of the drives that pass `p` holds `y` at least as often as the drives of `q`. -/
private theorem countP_le_count_filter_map [DecidableEq β] (l : List α) (q : α → Bool) (p : β → Bool)
    (f : α → β) [DecidableEq γ] (g : β → γ) (y : γ)
    (h : ∀ x ∈ l, q x = true → p (f x) = true ∧ g (f x) = y) : l.countP q ≤ (((l.map f).filter p).map g).count y := by
  induction l with
  | nil => simp
  | cons x l ih =>
    have ih := ih fun z hz => h z (mem_cons_of_mem _ hz)
    rw [countP_cons, map_cons]
    by_cases hq : q x = true
    · obtain ⟨hp, hg⟩ := h x mem_cons_self hq
      rw [filter_cons_of_pos hp, map_cons, count_cons]
      simpa [hq, hg] using ih
    · by_cases hp : p (f x) = true
      · rw [filter_cons_of_pos hp, map_cons, count_cons]
        simp only [hq, Bool.false_eq_true, ↓reduceIte]
        omega
      · rw [filter_cons_of_neg hp]
        simpa [hq] using ih

variable {l : List α} {x : α} {n : Nat}

private theorem count_lt_of_majority [DecidableEq α] (hlen : l.length ≤ n)
    (hmaj : n < 2 * l.count x) : x ∈ l ∧ ∀ y ∈ l, y ≠ x → l.count y < l.count x := by
  refine ⟨count_pos_iff.mp (by omega), fun y _ hne => ?_⟩
  have := count_add_count_le hne l
  omega

private theorem elect_of_majority {δ : Type} [DecidableEq β] [DecidableEq γ] (o : IterOrder (γ × Nat))
    {t : γ → δ → Bool} {f : γ → δ} {q : α → Bool} (v : α → β) (p : β → Bool) (g : β → γ) (y : γ) (b : δ)
    (hmaj : l.length < 2 * l.countP q) (h : ∀ x ∈ l, q x = true → p (v x) = true ∧ g (v x) = y) :
    ∃ n, l.countP q ≤ n ∧ electBy t f (o.order (tally (((l.map v).filter p).map g))) (0, b) = (n, f y) := by
  have hcount := countP_le_count_filter_map l q p v g y h
  have hlen : (((l.map v).filter p).map g).length ≤ l.length := by
    rw [length_map, ← length_map v]
    exact length_filter_le _ _
  obtain ⟨hmem, hdom⟩ := count_lt_of_majority hlen (by omega : l.length < 2 * count y _)
  exact ⟨_, hcount, electBy_tally_of_dominant o hmem hdom b⟩

variable {z : α} {v : FileInfo → α} {rs : List (FileInfo × Option Error)}

private theorem mem_votes [DecidableEq α] :
    x ∈ (rs.map fun r => if r.2.isSome then z else v r.1).filter (· != z) ↔
      ∃ r ∈ rs, r.2 = none ∧ v r.1 ≠ z ∧ v r.1 = x := by
  simp only [mem_filter, mem_map, bne_iff_ne]
  constructor
  · rintro ⟨⟨r, hr, rfl⟩, hne⟩
    cases he : r.2 with
    | none => exact ⟨r, hr, he, by simpa [he] using hne, by simp⟩
    | some e => simp [he] at hne
  · rintro ⟨r, hr, he, hne, rfl⟩
    exact ⟨⟨r, hr, by simp [he]⟩, hne⟩

private theorem votes_eq_nil [DecidableEq α] (h : ∀ r ∈ rs, r.2 = none → v r.1 = z) :
    (rs.map fun r => if r.2.isSome then z else v r.1).filter (· != z) = [] := by
  refine eq_nil_iff_forall_not_mem.mpr fun x hx => ?_
  obtain ⟨r, hr, he, hne, -⟩ := mem_votes.mp hx
  exact hne (h r hr he)

section Majority

variable {partsMetadata : List FileInfo} {errs : List (Option Error)} {T : Time} {D : String}

/-- More than half of the `N` drives agree on `T` and `D`. -/
def Majority (T : Time) (D : String) (partsMetadata : List FileInfo) (errs : List (Option Error)) : Prop :=
  partsMetadata.length = errs.length ∧ partsMetadata.length < 2 * (partsMetadata.zip errs).countP (agrees T D)

instance : Decidable (Majority T D partsMetadata errs) := inferInstanceAs (Decidable (_ ∧ _))

private theorem Majority.lt (h : Majority T D partsMetadata errs) :
    (partsMetadata.zip errs).length < 2 * (partsMetadata.zip errs).countP (agrees T D) := by
  rw [length_zip, ← h.1, Nat.min_self]
  exact h.2

theorem commonTime_fst_of_majority (o : VoteOrder) (h : Majority T D partsMetadata errs)
    (hT : T ≠ timeSentinel) (hrep : T.Representable) :
    (commonTime o (listObjectModtimes partsMetadata errs) (listDataDirs partsMetadata errs)).1 = T := by
  rw [listObjectModtimes_eq_map]
  obtain ⟨n, -, helect⟩ := elect_of_majority o.time (fun r => if r.2.isSome then timeSentinel else r.1.modTime)
    (· != timeSentinel) Time.unixNano T Time.zero h.lt fun r _ hr => by
      obtain ⟨⟨⟨he, -⟩, rfl⟩, -⟩ := agrees_iff.mp hr
      simpa [he] using ⟨hT, hrep.unixNano_eq⟩
  exact congrArg Prod.snd helect

/-- The directory vote elects `D`: a non-empty `D` wins, an empty one only unopposed. -/
theorem commonTime_snd_of_majority (o : VoteOrder) (h : Majority T D partsMetadata errs)
    (hD : D ≠ "" ∨ ∀ r ∈ partsMetadata.zip errs, r.2 = none → r.1.dataDir = "") :
    (commonTime o (listObjectModtimes partsMetadata errs) (listDataDirs partsMetadata errs)).2 = D := by
  unfold commonTime
  rw [listDataDirs_eq_map]
  dsimp only
  by_cases hne : D = ""
  · rw [votes_eq_nil (hD.resolve_left (not_not.mpr hne)), tally_nil, IterOrder.order_nil, electBy_nil, hne]
  · obtain ⟨n, -, helect⟩ := elect_of_majority o.dir (fun r => if r.2.isSome then "" else r.1.dataDir)
      (· != "") id D "" h.lt fun r _ hr => by
        obtain ⟨⟨⟨he, -⟩, -⟩, rfl⟩ := agrees_iff.mp hr
        simpa [he] using hne
    rw [map_id] at helect
    exact congrArg Prod.snd helect

/-- A drive without an error that has a data directory keeps the vote from electing none. -/
theorem commonTime_snd_ne_empty (o : VoteOrder)
    (hr : r ∈ partsMetadata.zip errs) (he : r.2 = none) (hd : r.1.dataDir ≠ "") :
    (commonTime o (listObjectModtimes partsMetadata errs) (listDataDirs partsMetadata errs)).2 ≠ "" := by
  unfold commonTime
  rw [listDataDirs_eq_map]
  obtain ⟨x, hx, h⟩ := electBy_tally_mem (t := fun _ _ => false) (f := id) o.dir
    (ne_nil_of_mem (mem_votes.mpr ⟨r, hr, he, hd, rfl⟩)) ""
  obtain ⟨_, -, -, hne, rfl⟩ := mem_votes.mp hx
  dsimp only
  rwa [h]

/-- The elected time is the `UnixNano` of a time other than the sentinel, when a drive has one. -/
theorem commonTime_fst_mem (o : VoteOrder)
    (hr : r ∈ partsMetadata.zip errs) (he : r.2 = none) (ht : r.1.modTime ≠ timeSentinel) :
    ∃ r' ∈ partsMetadata.zip errs, r'.2 = none ∧ r'.1.modTime ≠ timeSentinel ∧
      (commonTime o (listObjectModtimes partsMetadata errs) (listDataDirs partsMetadata errs)).1 =
        r'.1.modTime.unixNano := by
  rw [listObjectModtimes_eq_map]
  obtain ⟨x, hx, h⟩ := electBy_tally_mem
    (t := fun nano modTime => decide (modTime < Time.ofUnixNano nano)) (f := Time.ofUnixNano) o.time
    (ne_nil_of_mem (mem_map_of_mem (mem_votes.mpr ⟨r, hr, he, ht, rfl⟩))) Time.zero
  obtain ⟨t, hmem, rfl⟩ := mem_map.mp hx
  obtain ⟨r', hr', he', hne, rfl⟩ := mem_votes.mp hmem
  exact ⟨r', hr', he', hne, congrArg Prod.snd h⟩

theorem commonTime_fst_eq_zero (o : VoteOrder)
    (h : ∀ r ∈ partsMetadata.zip errs, r.2 = none → r.1.modTime = timeSentinel) :
    (commonTime o (listObjectModtimes partsMetadata errs) (listDataDirs partsMetadata errs)).1 = Time.zero := by
  unfold commonTime
  dsimp only
  rw [listObjectModtimes_eq_map, votes_eq_nil h, map_nil, tally_nil, IterOrder.order_nil, electBy_nil]

end Majority

/-! ## What the votes are used for -/

theorem latestMatch_fst (T : Time) (D : String) (entries : List (FileInfo × Time)) :
    (latestMatch T D entries).1 = entries.countP fun e => matchesElected T D e.1 e.2 := by
  have h : ∀ st : Nat × FileInfo, (entries.foldl (fun st e =>
      if matchesElected T D e.1 e.2 then (st.1 + 1, e.1) else st) st).1 =
      st.1 + entries.countP fun e => matchesElected T D e.1 e.2 := by
    induction entries with
    | nil => simp
    | cons e l ih =>
      intro st
      rw [foldl_cons, ih, countP_cons]
      split
      · omega
      · simp
  simpa [latestMatch] using h (0, {})

theorem latestMatch_snd (entries : List (FileInfo × Time))
    (hpos : 0 < entries.countP fun e => matchesElected T D e.1 e.2) :
    ∃ t, ((latestMatch T D entries).2, t) ∈ entries ∧ matchesElected T D (latestMatch T D entries).2 t = true := by
  -- The last entry decides when it matches; otherwise the entries before it do.
  induction entries using reverseRecOn with
  | nil => simp at hpos
  | append_singleton l e ih =>
    have hstep : latestMatch T D (l ++ [e]) = if matchesElected T D e.1 e.2 then
        ((latestMatch T D l).1 + 1, e.1) else latestMatch T D l := by
      simp [latestMatch, foldl_append]
    by_cases hm : matchesElected T D e.1 e.2 = true
    · rw [hstep, if_pos hm]
      exact ⟨e.2, by simp, hm⟩
    · rw [hstep, if_neg hm]
      rw [countP_append, countP_singleton, if_neg hm, Nat.add_zero] at hpos
      obtain ⟨t, ht, hmt⟩ := ih hpos
      exact ⟨t, mem_append_left _ ht, hmt⟩

section Consequences

variable {partsMetadata : List FileInfo} {errs : List (Option Error)} {T : Time} {D : String}

/-- A drive matches the pair `(T, D)` exactly when it agrees on it: a drive with an error shows the
sentinel. -/
theorem matchesElected_eq_agrees (hT : T ≠ timeSentinel) (r : FileInfo × Option Error) :
    matchesElected T D r.1 (if r.2.isSome then timeSentinel else r.1.modTime) = agrees T D r := by
  unfold matchesElected agrees
  cases r.2 with
  | none => simp
  | some e => simp [Ne.symm hT]

theorem zip_listObjectModtimes (partsMetadata : List FileInfo) (errs : List (Option Error)) :
    partsMetadata.zip (listObjectModtimes partsMetadata errs) = (partsMetadata.zip errs).map fun r =>
      (r.1, if r.2.isSome then timeSentinel else r.1.modTime) := by
  rw [listObjectModtimes]
  induction partsMetadata generalizing errs with
  | nil => simp
  | cons fi l ih => cases errs with
    | nil => simp
    | cons err errs => simp [ih]

theorem reduceReadQuorumErrs_of_majority (oe : IterOrder (Option Error × Nat)) (h : Majority T D partsMetadata errs)
    (ignoredErrs : List Error) : reduceReadQuorumErrs oe errs ignoredErrs (partsMetadata.length / 2) = none := by
  unfold reduceReadQuorumErrs reduceQuorumErrs reduceErrs
  obtain ⟨n, hn, helect⟩ := elect_of_majority oe Prod.snd (fun err => !isErrIgnored err ignoredErrs) id none none h.lt
    fun r _ hr => by simp [(agrees_iff.mp hr).1.1.1]
  rw [map_id, map_snd_zip (Nat.le_of_eq h.1.symm)] at helect
  have hmaj := h.2
  rw [helect, if_pos (by omega)]
  rfl

/-- The pair `(T, D)` is the one the two votes of `commonTime` can elect: the sentinel is not
counted, a time is counted by its `UnixNano`, and an empty directory is elected only when no drive
without an error has one. -/
structure Electable (T : Time) (D : String) (partsMetadata : List FileInfo) (errs : List (Option Error)) : Prop where
  time : T ≠ timeSentinel
  nano : T.Representable
  dir : D ≠ "" ∨ ∀ r ∈ partsMetadata.zip errs, r.2 = none → r.1.dataDir = ""

theorem commonTime_of_majority (o : VoteOrder) (h : Majority T D partsMetadata errs)
    (he : Electable T D partsMetadata errs) :
    commonTime o (listObjectModtimes partsMetadata errs) (listDataDirs partsMetadata errs) = (T, D) :=
  Prod.ext (commonTime_fst_of_majority o h he.time he.nano) (commonTime_snd_of_majority o h he.dir)

/-- The votes elect the pair of a majority only if it is electable. -/
theorem electable_of_commonTime (o : VoteOrder) (h : Majority T D partsMetadata errs)
    (hrep : ∀ r ∈ partsMetadata.zip errs, r.2 = none → r.1.modTime.Representable)
    (he : commonTime o (listObjectModtimes partsMetadata errs) (listDataDirs partsMetadata errs) = (T, D)) :
    Electable T D partsMetadata errs := by
  obtain ⟨hfst, hsnd⟩ := Prod.ext_iff.mp he
  obtain ⟨r, hr, hag⟩ := countP_pos_iff.mp (by have := h.2; omega :
    0 < (partsMetadata.zip errs).countP (agrees T D))
  obtain ⟨⟨⟨hnone, -⟩, rfl⟩, rfl⟩ := agrees_iff.mp hag
  have hT : r.1.modTime ≠ timeSentinel := by
    intro hs
    by_cases hall : ∀ r' ∈ partsMetadata.zip errs, r'.2 = none → r'.1.modTime = timeSentinel
    · rw [commonTime_fst_eq_zero o hall, hs] at hfst
      exact Time.zero_ne_epoch hfst
    · push Not at hall
      obtain ⟨r₁, hr₁, he₁, ht₁⟩ := hall
      obtain ⟨r₂, hr₂, he₂, ht₂, heq⟩ := commonTime_fst_mem o hr₁ he₁ ht₁
      rw [hfst, hs, (hrep r₂ hr₂ he₂).unixNano_eq] at heq
      exact ht₂ heq.symm
  refine ⟨hT, hrep r hr hnone, or_iff_not_imp_left.mpr fun hD r' hr' he' => ?_⟩
  by_contra hne
  exact commonTime_snd_ne_empty o hr' he' hne (hsnd.trans (not_not.mp hD))

/-- The majority on `(T, D)` decides: `listOnlineDisks` elects the pair and keeps exactly the drives
that agree on it, and `getLatestFileInfo` returns the entry of one of them. -/
structure MajorityWins {Disk : Type} (o o' : VoteOrder) (oe : IterOrder (Option Error × Nat))
    (disks : List (Option Disk)) (partsMetadata : List FileInfo) (errs : List (Option Error))
    (T : Time) (D : String) : Prop where
  online : listOnlineDisks o disks partsMetadata errs =
    (zipWith (fun r disk => if agrees T D r then disk else none) (partsMetadata.zip errs) disks, T, D)
  latest : ∃ r ∈ partsMetadata.zip errs, agrees T D r = true ∧ getLatestFileInfo o' oe partsMetadata errs = .ok r.1

theorem listOnlineDisks_of_majority {Disk : Type} (o : VoteOrder) (disks : List (Option Disk))
    (h : Majority T D partsMetadata errs) (he : Electable T D partsMetadata errs) :
    listOnlineDisks o disks partsMetadata errs =
      (zipWith (fun r disk => if agrees T D r then disk else none) (partsMetadata.zip errs)
        disks, T, D) := by
  unfold listOnlineDisks
  simp only [commonTime_of_majority o h he, zip_listObjectModtimes, zipWith_map_left,
    matchesElected_eq_agrees he.time]

theorem getLatestFileInfo_of_majority (o : VoteOrder) (oe : IterOrder (Option Error × Nat))
    (h : Majority T D partsMetadata errs) (he : Electable T D partsMetadata errs) :
    ∃ r ∈ partsMetadata.zip errs, agrees T D r = true ∧ getLatestFileInfo o oe partsMetadata errs = .ok r.1 := by
  have hcount : ((partsMetadata.zip (listObjectModtimes partsMetadata errs)).countP fun e =>
      matchesElected T D e.1 e.2) = (partsMetadata.zip errs).countP (agrees T D) := by
    rw [zip_listObjectModtimes, countP_map]
    congr 1
    funext r
    exact matchesElected_eq_agrees he.time r
  have hmaj := h.2
  obtain ⟨t, hmem, hm⟩ := latestMatch_snd (T := T) (D := D)
    (partsMetadata.zip (listObjectModtimes partsMetadata errs)) (by omega)
  rw [zip_listObjectModtimes] at hmem
  obtain ⟨r, hr, heq⟩ := mem_map.mp hmem
  obtain ⟨hr₁, rfl⟩ := Prod.ext_iff.mp heq
  simp only at hr₁ hm
  rw [← zip_listObjectModtimes] at hr₁
  refine ⟨r, hr, ?_, ?_⟩
  · rw [← matchesElected_eq_agrees he.time r]
    simpa only [hr₁] using hm
  · unfold getLatestFileInfo
    simp only [reduceReadQuorumErrs_of_majority oe h, commonTime_of_majority o h he]
    rw [if_neg (by rw [latestMatch_fst, hcount]; omega), ← hr₁]

/-- Drives that all return the same valid entry decide for it. -/
theorem getLatestFileInfo_replicate (o : VoteOrder) (oe : IterOrder (Option Error × Nat)) {fi : FileInfo}
    (hn : 0 < n) (hv : fi.isValid = true) (ht : fi.modTime ≠ timeSentinel) (hrep : fi.modTime.Representable) :
    getLatestFileInfo o oe (replicate n fi) (replicate n none) = .ok fi := by
  have hzip : (replicate n fi).zip (replicate n (none : Option Error)) =
      replicate n (fi, none) := by simp
  have hag : agrees fi.modTime fi.dataDir (fi, none) = true := by simp [agrees, hv]
  have hmaj : Majority fi.modTime fi.dataDir (replicate n fi) (replicate n none) := by
    refine ⟨by simp, ?_⟩
    rw [hzip, countP_replicate, if_pos hag, length_replicate]
    omega
  have he : Electable fi.modTime fi.dataDir (replicate n fi) (replicate n none) := by
    refine ⟨ht, hrep, or_iff_not_imp_left.mpr fun hd r hr _ => ?_⟩
    rw [hzip] at hr
    rw [(mem_replicate.mp hr).2]
    exact not_not.mp hd
  obtain ⟨r, hr, -, heq⟩ := getLatestFileInfo_of_majority o oe hmaj he
  rw [hzip] at hr
  rw [heq, (mem_replicate.mp hr).2]

/-- **A majority decides a quorum read.** More than half of the drives agreeing on a time and a
directory is enough when the pair is electable, and, over times that `UnixNano` can represent, only
then. -/
theorem majorityWins_iff_electable {Disk : Type} (o o' : VoteOrder) (oe : IterOrder (Option Error × Nat))
    (disks : List (Option Disk)) (h : Majority T D partsMetadata errs) :
    (Electable T D partsMetadata errs → MajorityWins o o' oe disks partsMetadata errs T D) ∧
    ((∀ r ∈ partsMetadata.zip errs, r.2 = none → r.1.modTime.Representable) →
      MajorityWins o o' oe disks partsMetadata errs T D → Electable T D partsMetadata errs) := by
  refine ⟨fun he => ⟨listOnlineDisks_of_majority o disks h he,
    getLatestFileInfo_of_majority o' oe h he⟩, fun hrep hw => ?_⟩
  refine electable_of_commonTime o h hrep ?_
  exact congrArg Prod.snd hw.online

def deleteMarkerAt (T : Time) : FileInfo := { volume := "bucket", name := "object", deleted := true, modTime := T }

/-- A version of the object that a drive kept from before the delete marker. -/
def staleObjectAt (T : Time) : FileInfo :=
  { volume := "bucket", name := "object", modTime := T, dataDir := "dir", size := 1, erasure :=
      { algorithm := "ReedSolomon", dataBlocks := 2, parityBlocks := 1, blockSize := 1, index := 3,
        distribution := [1, 2, 3] } }

/-- Two of three drives hold the delete marker; the third, which missed it, decides the vote on the
directory, so that no entry matches. -/
theorem deleteMarker_majority_loses :
    Majority 2 "" [deleteMarkerAt 2, deleteMarkerAt 2, staleObjectAt 1] [none, none, none] ∧
    ∀ (o o' : VoteOrder) (oe : IterOrder (Option Error × Nat)) (disks : List (Option Nat)),
      ¬ MajorityWins o o' oe disks
        [deleteMarkerAt 2, deleteMarkerAt 2, staleObjectAt 1] [none, none, none] 2 "" := by
  refine ⟨by decide, fun o o' oe disks hw => ?_⟩
  have hdir := congrArg (fun p => p.2.2) hw.online
  exact commonTime_snd_ne_empty o (r := (staleObjectAt 1, none)) (by simp) rfl (by decide) hdir

/-- The same two markers decide against a drive that is offline. -/
theorem deleteMarker_majority_wins :
    MajorityWins ⟨.asListed, .reversed⟩ ⟨.reversed, .asListed⟩ .asListed [some 1, some 2, some 3]
      [deleteMarkerAt 2, {}, deleteMarkerAt 2] [none, some errDiskNotFound, none] 2 "" :=
  (majorityWins_iff_electable _ _ _ _ (by decide)).1 ⟨by decide, by decide, .inr (by decide)⟩

end Consequences

/-! ## Error quorums -/

/-- How many drives answer with `err`. -/
def frequency (errs : List (Option Error)) (err : Option Error) : Nat := errs.countP fun x => decide (x = err)

/-- What the errors of a call come to: `nil` or an error that is not ignored if it has a quorum, and otherwise the
error that says that there is none. -/
structure ErrorQuorum (errs : List (Option Error)) (ignoredErrs : List Error) (quorum : Int) (quorumErr : Error)
    (reduced : Option Error) : Prop where
  success : reduced = none ↔ quorum ≤ frequency errs none
  failure : ∀ e, isErrIgnored (some e) ignoredErrs = false → quorum ≤ frequency errs (some e) → reduced = some e
  otherwise : frequency errs none < quorum →
    (∀ e, isErrIgnored (some e) ignoredErrs = false → frequency errs (some e) < quorum) → reduced = some quorumErr

section ErrorQuorum

variable {errs : List (Option Error)} {ignoredErrs : List Error} {quorum : Int} {err : Option Error}
  (o : IterOrder (Option Error × Nat)) (quorumErr : Error)

theorem frequency_filter (herr : isErrIgnored err ignoredErrs = false) :
    frequency (errs.filter fun err => !isErrIgnored err ignoredErrs) err = frequency errs err := by
  unfold frequency
  rw [countP_filter]
  refine countP_congr fun x _ => ?_
  simp only [Bool.and_eq_true, decide_eq_true_eq, Bool.not_eq_true', and_iff_left_iff_imp]
  rintro rfl
  exact herr

theorem reduceQuorumErrs_of_quorum (hmaj : errs.length < 2 * quorum) (herr : isErrIgnored err ignoredErrs = false)
    (h : quorum ≤ frequency errs err) : reduceQuorumErrs o errs ignoredErrs quorum quorumErr = err := by
  rw [← frequency_filter herr] at h
  have hvotes : errs.length < 2 * frequency (errs.filter fun err => !isErrIgnored err ignoredErrs) err := by omega
  obtain ⟨hmem, hdom⟩ := count_lt_of_majority (length_filter_le _ _) hvotes
  unfold reduceQuorumErrs reduceErrs
  rw [electBy_tally_of_dominant o hmem hdom]
  exact if_pos h

theorem reduceQuorumErrs_of_none (hpos : 0 < quorum)
    (h : ∀ err, isErrIgnored err ignoredErrs = false → frequency errs err < quorum) :
    reduceQuorumErrs o errs ignoredErrs quorum quorumErr = some quorumErr := by
  unfold reduceQuorumErrs reduceErrs
  refine if_neg (not_le.mpr ?_)
  by_cases hnil : (errs.filter fun err => !isErrIgnored err ignoredErrs) = []
  · have hempty : o.order (tally ([] : List (Option Error))) = [] := (o.perm []).eq_nil
    simp only [hnil, hempty]
    exact hpos
  · obtain ⟨err, hmem, helect⟩ := electBy_tally_mem (t := fun err _ => err.isNone) (f := id) o hnil none
    have herr : isErrIgnored err ignoredErrs = false := by simpa using (mem_filter.mp hmem).2
    have hlt := h err herr
    rw [← frequency_filter herr] at hlt
    rw [helect]
    exact hlt

/-- A quorum of more than half of the errors is unique: the order of the map makes no difference. -/
theorem reduceQuorumErrs_cases (hmaj : errs.length < 2 * quorum) :
    (∃ err, isErrIgnored err ignoredErrs = false ∧ quorum ≤ frequency errs err ∧
      ∀ o, reduceQuorumErrs o errs ignoredErrs quorum quorumErr = err) ∨
    (∀ err, isErrIgnored err ignoredErrs = false → frequency errs err < quorum) ∧
      ∀ o, reduceQuorumErrs o errs ignoredErrs quorum quorumErr = some quorumErr := by
  by_cases h : ∃ err, isErrIgnored err ignoredErrs = false ∧ quorum ≤ frequency errs err
  · obtain ⟨err, herr, hcount⟩ := h
    exact .inl ⟨err, herr, hcount, fun o => reduceQuorumErrs_of_quorum o quorumErr hmaj herr hcount⟩
  · have hless : ∀ err, isErrIgnored err ignoredErrs = false → frequency errs err < quorum := fun err herr =>
      not_le.mp fun hcount => h ⟨err, herr, hcount⟩
    exact .inr ⟨hless, fun o => reduceQuorumErrs_of_none o quorumErr (by omega) hless⟩

end ErrorQuorum

/-- With a quorum of more than half of the errors the order of the map makes no difference. -/
theorem reduceQuorumErrs_errorQuorum (o : IterOrder (Option Error × Nat)) (errs : List (Option Error))
    (ignoredErrs : List Error) (quorum : Int) (quorumErr : Error) (hmaj : errs.length < 2 * quorum) :
    (∀ o', reduceQuorumErrs o' errs ignoredErrs quorum quorumErr =
      reduceQuorumErrs o errs ignoredErrs quorum quorumErr) ∧
    ErrorQuorum errs ignoredErrs quorum quorumErr (reduceQuorumErrs o errs ignoredErrs quorum quorumErr) := by
  have hquorum := fun {err} => @reduceQuorumErrs_of_quorum errs ignoredErrs quorum err o quorumErr hmaj
  obtain ⟨err, herr, hcount, hreduced⟩ | ⟨hless, hreduced⟩ := reduceQuorumErrs_cases quorumErr hmaj
  · refine ⟨fun o' => by rw [hreduced, hreduced], ⟨fun hnone => ?_, hquorum (isErrIgnored_none _)⟩,
      fun e => hquorum, fun hnone hrest => ?_⟩
    · rw [hreduced] at hnone
      exact hnone ▸ hcount
    · cases err with
      | none => omega
      | some e => exact absurd hcount (not_le.mpr (hrest e herr))
  · refine ⟨fun o' => by rw [hreduced, hreduced], ⟨fun hnone => ?_, hquorum (isErrIgnored_none _)⟩,
      fun e => hquorum, fun _ _ => hreduced o⟩
    rw [hreduced] at hnone
    cases hnone

/-- Two of three drives report that the file is missing. -/
theorem reduceQuorumErrs_two_of_three :
    ErrorQuorum [some errFileNotFound, none, some errFileNotFound] [] 2 errErasureReadQuorum
      (reduceQuorumErrs .reversed [some errFileNotFound, none, some errFileNotFound] [] 2 errErasureReadQuorum) :=
  (reduceQuorumErrs_errorQuorum _ _ _ _ _ (by decide)).2

end Otterio
