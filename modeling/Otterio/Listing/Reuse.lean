import Otterio.Listing.Entry

/-!
# Reuse of cached listings

A listing that is started for one request is kept and handed out to later requests
(`cmd/metacache.go`, `cmd/metacache-bucket.go`): `findCache` looks for a cached listing that `matches` the
request and starts a new one if there is none.

* `Requested o n`: the scan that a new listing for the request would start comes to it. What the request
  returns is among these (`requested_of_returns`).
* `covers_iff`: a cached scan visits all that is requested exactly if the text of its root and filter is a
  beginning of that of the request, and it is recursive or a scan of the same directory.

`matches` compares the filter the other way around, and does not look at the depth of the request when
neither of the two is recursive.
-/

namespace Otterio.Listing

open List MetaCacheEntry

/-! ## Cached listings -/

inductive ScanStatus where
  | none
  | started
  | success
  | error
deriving DecidableEq, Repr

/-- `metacache`, without the outcome of the scan. -/
structure Metacache where
  id : String
  bucket : String
  root : Bytes
  recursive : Bool
  filter : Bytes
  status : ScanStatus
  started : Time
  ended : Time
  lastUpdate : Time
  lastHandout : Time
  startedCycle : Nat
  endedCycle : Nat
  dataVersion : Nat
deriving DecidableEq, Repr

def Metacache.zero : Metacache where
  id := ""
  bucket := ""
  root := []
  recursive := false
  filter := []
  status := .none
  started := Time.zero
  ended := Time.zero
  lastUpdate := Time.zero
  lastHandout := Time.zero
  startedCycle := 0
  endedCycle := 0
  dataVersion := 0

/-- The options of a listing that have a part in the choice of a cache. A filter never contains a
slash. -/
structure ListPathOptions where
  id : String
  bucket : String
  baseDir : Bytes
  pre : Bytes
  filterPrefix : Bytes
  recursive : Bool
  separator : Bytes
  create : Bool
  currentCycle : Nat
  oldestCycle : Nat
  filter_noSlash : 47 ∉ filterPrefix

def metacacheStreamVersion : Nat := 1

/-- `metacacheMaxRunningAge`, in nanoseconds. -/
def metacacheMaxRunningAge : Int := 60000000000

def Metacache.finished (m : Metacache) : Bool := m.ended ≠ Time.zero

def Metacache.matches (m : Metacache) (o : ListPathOptions) (extend : Int) (now : Time) : Bool :=
  if m.status = .error ∨ m.status = .none ∨ m.dataVersion ≠ metacacheStreamVersion then false
  else if m.startedCycle < o.oldestCycle then false
  else if !m.root.isPrefixOf o.baseDir then false
  else if m.filter ≠ [] ∧ o.filterPrefix.isPrefixOf m.filter then false
  else if o.recursive && !m.recursive then false
  else if o.separator ≠ slashSeparator ∧ !m.recursive then false
  else if !m.finished ∧ now - m.lastUpdate > metacacheMaxRunningAge then false
  else if m.finished ∧ m.endedCycle ≤ o.oldestCycle then
    if extend ≤ 0 then false
    else if now - m.lastUpdate > metacacheMaxRunningAge + extend then false
    else true
  else true

def trimSlashes (s : Bytes) : Bytes := ((s.dropWhile (· == 47)).reverse.dropWhile (· == 47)).reverse

/-- The filter that `SetFilter` computes. -/
def filterOf (pre baseDir : Bytes) : Bytes :=
  let filter := trimSlashes (trimmed pre baseDir)
  if 47 ∈ filter then [] else filter

theorem filterOf_noSlash (pre baseDir : Bytes) : 47 ∉ filterOf pre baseDir := by
  unfold filterOf
  dsimp only
  split
  · exact not_mem_nil
  · assumption

/-- `listPathOptions.SetFilter`. The constant `metacacheSharePrefix` is false. -/
def ListPathOptions.setFilter (o : ListPathOptions) : ListPathOptions :=
  if o.currentCycle ≠ o.oldestCycle then o
  else if o.pre = o.baseDir then o
  else
    { o with
      filterPrefix := filterOf o.pre o.baseDir
      filter_noSlash := filterOf_noSlash o.pre o.baseDir }

def ListPathOptions.newMetacache (o : ListPathOptions) (now : Time) : Metacache where
  id := o.id
  bucket := o.bucket
  root := o.baseDir
  recursive := o.recursive
  filter := o.filterPrefix
  status := .started
  started := now
  ended := Time.zero
  lastUpdate := now
  lastHandout := now
  startedCycle := o.currentCycle
  endedCycle := 0
  dataVersion := metacacheStreamVersion

structure BucketMetacache where
  bucket : String
  caches : String → Option Metacache
  cachesRoot : Bytes → List String
  transient : Bool

namespace BucketMetacache

variable (pathJoin : List Bytes → Bytes)

/-- The roots that `findCache` looks for: `path.Join` of the beginnings of the base directory. -/
def roots (o : ListPathOptions) : List Bytes :=
  let rootSplit := o.baseDir.splitOn 47
  (List.range rootSplit.length).map fun i => pathJoin (rootSplit.take (i + 1))

/-- The round of the inner loop of `findCache` for an identifier. -/
def better (b : BucketMetacache) (o : ListPathOptions) (extend : Int) (now : Time) (best : Metacache)
    (id : String) : Metacache :=
  match b.caches id with
  | none => best
  | some cached =>
    if !cached.matches o extend now then best
    else if cached.started < best.started then best
    else cached

/-- The two loops of `findCache`. -/
def findBest (b : BucketMetacache) (o : ListPathOptions) (extend : Int) (now : Time) : Metacache :=
  ((roots pathJoin o).flatMap b.cachesRoot).foldl (b.better o extend now) .zero

/-- The cache without a scan that `findCache` returns when it must not create one. -/
def blank (o : ListPathOptions) : Metacache := { Metacache.zero with id := o.id, bucket := o.bucket }

def findCache (b : BucketMetacache) (o : ListPathOptions) (extend : Int) (now : Time) : Metacache × BucketMetacache :=
  if o.bucket ≠ b.bucket ∧ !b.transient then (.zero, b)
  else match b.caches o.id with
    | some c => (c, b)
    | none =>
      let fresh := o.newMetacache now
      let caches := Function.update b.caches o.id (some fresh)
      if b.transient then
        if !o.create then (blank o, b) else (fresh, { b with caches })
      else
        let best := b.findBest pathJoin o extend now
        if best.started ≠ Time.zero then
          if o.create then
            let best := { best with lastHandout := now }
            (best, { b with caches := Function.update b.caches best.id (some best) })
          else (best, b)
        else if !o.create then (blank o, b)
        else (fresh, { b with
            caches
            cachesRoot := Function.update b.cachesRoot fresh.root (b.cachesRoot fresh.root ++ [fresh.id]) })

end BucketMetacache

/-! ## What a scan visits -/

/-- A directory with the slash that its entries have after it. -/
def dirText (dir : Bytes) : Bytes :=
  if dir = [] ∨ dir.getLast? = some 47 then dir else dir ++ slashSeparator

/-- The names that a scan of a directory comes to: those with the filter after the directory and, if it is
not recursive, without a slash but at the end. -/
def InScan (dir filter : Bytes) (recursive : Bool) (n : Bytes) : Prop :=
  dirText dir ++ filter <+: n ∧ (recursive = true ∨ 47 ∉ (n.drop (dirText dir).length).dropLast)

/-- The names that the cached scan visits. -/
def Metacache.Visited (m : Metacache) (n : Bytes) : Prop := InScan m.root m.filter m.recursive n

/-- A separator other than the slash needs all entries below the directory. -/
def ListPathOptions.deep (o : ListPathOptions) : Bool := o.recursive || o.separator ≠ slashSeparator

/-- The names that a scan for the request itself visits. -/
def ListPathOptions.Requested (o : ListPathOptions) (n : Bytes) : Prop := InScan o.baseDir o.filterPrefix o.deep n

/-- The cached scan visits all that is requested. -/
def Metacache.Covers (m : Metacache) (o : ListPathOptions) : Prop := ∀ n, o.Requested n → m.Visited n

/-- The root and filter of the cached scan are a beginning of those of the request, and the scan is
recursive or one of the same directory. -/
def Metacache.Encloses (m : Metacache) (o : ListPathOptions) : Prop :=
  dirText m.root ++ m.filter <+: dirText o.baseDir ++ o.filterPrefix ∧
    (m.recursive = true ∨ dirText m.root = dirText o.baseDir)

instance (m : Metacache) (o : ListPathOptions) : Decidable (m.Encloses o) := inferInstanceAs (Decidable (_ ∧ _))

theorem dirText_cases (dir : Bytes) : dirText dir = [] ∨ ∃ d, dirText dir = d ++ [47] := by
  unfold dirText
  split
  · next h =>
    refine h.imp id fun h => ?_
    obtain ⟨d, hd⟩ := List.getLast?_eq_some_iff.mp h
    exact ⟨d, hd⟩
  · exact .inr ⟨dir, rfl⟩

variable {dir : Bytes}

theorem slash_mem_of_append {d t : Bytes} (ht : d ++ t = dirText dir) (hne : t ≠ []) : 47 ∈ t := by
  cases t using List.reverseRecOn with
  | nil => exact absurd rfl hne
  | append_singleton t c _ =>
    obtain hd | ⟨e, hd⟩ := dirText_cases dir
    · simp [hd] at ht
    · rw [hd, ← append_assoc] at ht
      obtain ⟨-, hc⟩ := append_inj' ht rfl
      obtain rfl : c = 47 := by simpa using hc
      simp

/-- A directory within the text of another one and a filter is within the directory. -/
theorem dirText_isPrefix {base filter : Bytes} (hf : 47 ∉ filter)
    (h : dirText dir <+: dirText base ++ filter) : dirText dir <+: dirText base := by
  obtain hle | ⟨t, ht⟩ := prefix_or_prefix_of_prefix h (prefix_append _ _)
  · exact hle
  · rw [← ht, prefix_append_right_inj] at h
    -- the slash at the end of the directory would be one of the filter
    by_cases hne : t = []
    · simp [← ht, hne]
    · exact absurd (h.subset (slash_mem_of_append ht hne)) hf

/-- A scan that is requested comes to every single symbol after its filter. -/
theorem ListPathOptions.requested_concat (o : ListPathOptions) (c : UInt8) :
    o.Requested (dirText o.baseDir ++ o.filterPrefix ++ [c]) := by
  refine ⟨prefix_append _ _, .inr ?_⟩
  rw [append_assoc, drop_left, dropLast_concat]
  exact o.filter_noSlash

theorem covers_iff (m : Metacache) (o : ListPathOptions) :
    m.Covers o ↔ (o.deep = true → m.recursive = true) ∧ m.Encloses o := by
  constructor
  · intro h
    have hpre : dirText m.root ++ m.filter <+: dirText o.baseDir ++ o.filterPrefix := by
      -- two requested names have no more in common than the text of the request
      have h0 := (h _ (o.requested_concat 0)).1
      have h1 := (h _ (o.requested_concat 1)).1
      rw [prefix_concat_iff] at h0 h1
      refine h0.elim (fun h0 => ?_) id
      refine h1.elim (fun h1 => ?_) id
      rw [h0] at h1
      simp at h1
    obtain ⟨t, ht⟩ := dirText_isPrefix o.filter_noSlash ((prefix_append _ _).trans hpre)
    have hrec (hnot : ¬ m.recursive = true) {n : Bytes} (hn : o.Requested n) :
        47 ∉ (n.drop (dirText m.root).length).dropLast :=
      (h n hn).2.resolve_left hnot
    refine ⟨fun hdeep => ?_, hpre, ?_⟩
    · by_contra hnot
      have := hrec hnot (n := dirText o.baseDir ++ o.filterPrefix ++ [47, 0])
        ⟨prefix_append _ _, .inl hdeep⟩
      rw [← ht] at this
      simp [append_assoc, dropLast_append_of_ne_nil] at this
    · by_contra hnot
      obtain ⟨hnot, hne⟩ := not_or.mp hnot
      have hslash := hrec hnot (o.requested_concat 0)
      rw [← ht, append_assoc, append_assoc, drop_left, ← append_assoc, dropLast_concat] at hslash
      refine hslash (mem_append_left _ ?_)
      refine slash_mem_of_append ht fun h => hne ?_
      rwa [h, append_nil] at ht
  · rintro ⟨hdeep, hpre, hrec⟩ n ⟨hn, hshallow⟩
    refine ⟨hpre.trans hn, ?_⟩
    obtain hrec | hrec := hrec
    · exact .inl hrec
    · rw [hrec]
      exact hshallow.imp hdeep id

variable {m : Metacache} {o : ListPathOptions} {extend : Int} {now : Time}

theorem recursive_of_matches
    (h : m.matches o extend now = true) (hdeep : o.deep = true) : m.recursive = true := by
  by_contra hrec
  revert h
  unfold Metacache.matches ListPathOptions.deep at *
  split_ifs <;> simp_all

theorem covers_iff_encloses
    (h : m.matches o extend now = true) : m.Covers o ↔ m.Encloses o := by
  rw [covers_iff]
  exact and_iff_right fun hdeep => recursive_of_matches h hdeep

/-! ## What a request returns -/

/-- The entries that a listing returns by their names. -/
def ListPathOptions.Returns (o : ListPathOptions) (e : MetaCacheEntry) : Prop :=
  e.hasPrefix o.pre = true ∧ (o.recursive = true ∨ e.isInDir o.pre o.separator = true)

/-- The options as `listPath` sets them: the base directory is the part of the prefix up to its last
slash, the filter a beginning of the rest, and a listing by another separator is recursive. -/
structure ListPathOptions.Prepared (o : ListPathOptions) : Prop where
  pre : ∃ rest, o.pre = dirText o.baseDir ++ rest ∧ 47 ∉ rest ∧ o.filterPrefix <+: rest
  separator : o.separator = slashSeparator ∨ o.recursive = true

theorem not_mem_take_of_indexOf {s : Bytes} {k : Nat} (h : indexOf slashSeparator s = some k) : 47 ∉ s.take k := by
  induction s generalizing k with
  | nil => simp
  | cons a s ih =>
    rw [indexOf] at h
    split at h
    · cases h
      simp
    · next hne =>
      obtain ⟨k, hk, rfl⟩ := Option.map_eq_some_iff.mp h
      rw [take_succ_cons, mem_cons, not_or]
      refine ⟨?_, ih hk⟩
      rintro rfl
      exact hne ⟨s, rfl⟩

theorem not_mem_dropLast_of_endsIn {ext : Bytes} (h : endsIn ext slashSeparator = true) :
    47 ∉ ext.dropLast := by
  unfold endsIn at h
  cases hk : indexOf slashSeparator ext with
  | none =>
    intro hmem
    obtain ⟨u, v, huv⟩ := append_of_mem (dropLast_subset ext hmem)
    exact indexOf_eq_none.mp hk ⟨u, v, by rw [huv, append_assoc]; rfl⟩
  | some k =>
    rw [hk] at h
    have hlen : k + 1 = ext.length := of_decide_eq_true h
    rw [dropLast_eq_take, ← hlen]
    exact not_mem_take_of_indexOf hk

theorem requested_of_returns {e : MetaCacheEntry} (ho : o.Prepared)
    (h : o.Returns e) : o.Requested e.name := by
  obtain ⟨rest, hpre, hrest, hfilter⟩ := ho.pre
  obtain ⟨hbegins, hdir⟩ := h
  obtain ⟨ext, hext⟩ := List.isPrefixOf_iff_prefix.mp hbegins
  have hname : e.name = dirText o.baseDir ++ (rest ++ ext) := by rw [← hext, hpre, append_assoc]
  refine ⟨?_, ?_⟩
  · rw [hname, prefix_append_right_inj]
    exact hfilter.trans (prefix_append _ _)
  · by_cases hrec : o.recursive = true
    · exact .inl (by simp [ListPathOptions.deep, hrec])
    · have hdir := hdir.resolve_left hrec
      rw [ho.separator.resolve_right hrec] at hdir
      have hends : endsIn ext slashSeparator = true := by
        unfold isInDir trimmed at hdir
        by_cases hnil : o.pre = []
        · simpa [hnil, ← hext] using hdir
        · have hlen : ¬ o.pre.length = 0 := fun h => hnil (length_eq_zero_iff.mp h)
          have hp : o.pre.isPrefixOf (o.pre ++ ext) = true := hext ▸ hbegins
          simp only [← hext, if_neg hlen, if_pos hp, drop_left, length_append] at hdir
          rwa [if_pos (show ext.length ≠ o.pre.length + ext.length by omega)] at hdir
      right
      rw [hname, drop_left]
      intro hmem
      by_cases hnil : ext = []
      · rw [hnil, append_nil] at hmem
        exact hrest (dropLast_subset _ hmem)
      · rw [dropLast_append_of_ne_nil hnil, mem_append] at hmem
        exact hmem.elim hrest (not_mem_dropLast_of_endsIn hends)

/-- A cache that matches a request covers it if and only if its root and filter enclose those of the
request; and then every entry that the request returns is one the cached scan visits. -/
theorem matching_cache_covers_iff (m : Metacache) (o : ListPathOptions) (extend : Int) (now : Time)
    (h : m.matches o extend now = true) :
    (m.Covers o ↔ m.Encloses o) ∧ (m.Encloses o → o.Prepared → ∀ e, o.Returns e → m.Visited e.name) := by
  refine ⟨covers_iff_encloses h, fun hm ho e he => ?_⟩
  exact (covers_iff_encloses h).mpr hm e.name (requested_of_returns ho he)

/-- The options of a listing of a bucket by a prefix of its names. The bloom filter is not clean, so that
the prefix becomes the filter. -/
def listing (id : String) (pre : Bytes) (baseDir : Bytes) : ListPathOptions :=
  ListPathOptions.setFilter
    { id, bucket := "photos", baseDir, pre, filterPrefix := [], recursive := false,
      separator := slashSeparator, create := true, currentCycle := 5, oldestCycle := 5,
      filter_noSlash := not_mem_nil }

def noCaches : BucketMetacache where
  bucket := "photos"
  caches _ := none
  cachesRoot _ := []
  transient := false

/-- `path.Join` of names without slashes and dots. -/
def joinNames (parts : List Bytes) : Bytes := slashSeparator.intercalate (parts.filter (· ≠ []))

/-- The listing of a photo is answered from that of all photos of its directory. -/
theorem listing_within :
    let m := { listing "1" (ascii "2021/") (ascii "2021/") with recursive := true }.newMetacache 7
    let o := listing "2" (ascii "2021/ab") (ascii "2021/")
    m.matches o 0 8 = true ∧ m.Covers o := by
  have hm : ({ listing "1" (ascii "2021/") (ascii "2021/") with recursive := true }.newMetacache 7).matches
      (listing "2" (ascii "2021/ab") (ascii "2021/")) 0 8 = true := by
    decide +kernel
  exact ⟨hm, (matching_cache_covers_iff _ _ 0 8 hm).1.mpr (by decide +kernel)⟩

/-- After a listing of the names with `ab`, a listing of those with `xy` gets its cache, in which there
are none of them. A listing of a directory matches one of its parent that did not come into it. -/
theorem reused_cache_hides_names : let b := (noCaches.findCache joinNames (listing "1" (ascii "ab") []) 0 7).2
    let o := listing "2" (ascii "xy") []
    let m := (b.findCache joinNames o 0 8).1
    let parent := (listing "1" [] []).newMetacache 7
    let below := listing "2" (ascii "a/") (ascii "a/")
    (m.id = "1" ∧ m.matches o 0 8 = true ∧ ¬ m.Covers o) ∧
      (parent.matches below 0 8 = true ∧ ¬ parent.Covers below) := by
  simp only [covers_iff]
  decide +kernel

end Otterio.Listing
