import Otterio.Lib.Go
import Otterio.Lib.Totals

/-!
# Merging data usage caches

`cmd/data-usage-cache.go`: a cache is a map from the hashes of paths to entries, which name their children.
`flatten` adds up the entries below an entry, `merge` adds another cache to this one.

* The counters of an entry are its `Usage`. Size is an `int64` and the others `uint64`; the addition is that
  of 64-bit words for both.
* `dataUsageEntry.merge` adds all counters but the four thresholds (`counted`).
* `flatten_eq`: on an acyclic cache `flatten` ends and gives the total of the tree.
* `foldl_childSet`, `foldl_weight`: the entries after the loop of `merge`. The entry of the root only gets
  children.
-/

open Function

namespace Otterio.DataUsage

open List

/-! ## Entries -/

def dataUsageBucketLen : Nat := 7

inductive Counter where
  | size
  | objects
  | objSizes (i : Fin dataUsageBucketLen)
  | pendingSize
  | replicatedSize
  | failedSize
  | replicaSize
  | failedCount
  | pendingCount
  | missedThresholdSize
  | afterThresholdSize
  | missedThresholdCount
  | afterThresholdCount
deriving DecidableEq

abbrev Usage := Counter → BitVec 64

/-- The counters that `merge` adds up. -/
def Counter.merged : Counter → Bool
  | missedThresholdSize | afterThresholdSize | missedThresholdCount | afterThresholdCount => false
  | _ => true

def Usage.merge (e other : Usage) : Usage := fun c => if c.merged then e c + other c else e c

/-- `dataUsageEntry`. The children are a set, ranged over in any order. -/
structure DataUsageEntry where
  children : List String
  nodup : children.Nodup
  usage : Usage

namespace DataUsageEntry

def zero : DataUsageEntry := ⟨[], nodup_nil, 0⟩

def addChild (e : DataUsageEntry) (hash : String) : DataUsageEntry :=
  if h : hash ∈ e.children then e
  else { e with
    children := e.children ++ [hash]
    nodup := nodup_append.mpr ⟨e.nodup, nodup_singleton _, by
      intro a ha b hb
      rw [mem_singleton.mp hb]
      exact fun heq => h (heq ▸ ha)⟩ }

/-- `merge`, excluding children. -/
def merge (e : DataUsageEntry) (other : Usage) : DataUsageEntry := { e with usage := e.usage.merge other }

end DataUsageEntry

/-! ## Caches -/

abbrev Entries := String → Option DataUsageEntry

/-- `d.Cache[key]`, the zero value if there is none. -/
def Entries.get (entries : Entries) (key : String) : DataUsageEntry := (entries key).getD .zero

structure DataUsageCache where
  name : String
  lastUpdate : Time
  cache : Entries

/-- `flatten`: the usage of the entry with everything below it, or `none` if the fuel is used up. -/
def flatten (cache : Entries) : Nat → DataUsageEntry → Option Usage
  | 0, _ => none
  | fuel + 1, root => root.children.foldlM (fun usage id => do
      let e := cache.get id
      let flat ← if e.children.length > 0 then flatten cache fuel e else some e.usage
      return usage.merge flat) root.usage

section Merge

variable (hashPath : String → String)

def DataUsageCache.root (d : DataUsageCache) : Option DataUsageEntry := d.cache (hashPath d.name)

/-- `replaceHashed`, with a parent. -/
def replaceHashed (cache : Entries) (hash parent : String) (e : DataUsageEntry) : Entries :=
  let cache : Entries := update cache hash (some e)
  update cache parent (some ((cache.get parent).addChild hash))

/-- `merge`, or `none` if the fuel does not suffice for `flatten`. -/
def DataUsageCache.merge (fuel : Nat) (d other : DataUsageCache) : Option DataUsageCache :=
  match d.root hashPath, other.root hashPath with
  | _, none => some d
  | none, some _ => some other
  | some _, some otherRoot => do
    let lastUpdate := if other.lastUpdate > d.lastUpdate then other.lastUpdate else d.lastUpdate
    -- `existingRoot.merge(*otherRoot)` changes a copy of the root that nobody reads.
    let cache ← otherRoot.children.foldlM (fun cache key => do
      let flat ← flatten other.cache fuel (other.cache.get key)
      return replaceHashed cache key (hashPath d.name) ((Entries.get cache key).merge flat)) d.cache
    return { d with lastUpdate, cache }

end Merge

/-! ## Totals -/

/-- What `dataUsageEntry.merge` takes from the other entry. -/
def counted : Usage →+ Usage where
  toFun u c := if c.merged then u c else 0
  map_zero' := by
    funext c
    exact ite_self _
  map_add' u v := by
    funext c
    show _ = (if c.merged = true then u c else 0) + if c.merged = true then v c else 0
    split_ifs
    · rfl
    · rw [add_zero]

theorem counted_idem (u : Usage) : counted (counted u) = counted u := by
  funext c
  show (if c.merged = true then (if c.merged = true then u c else 0) else 0) = if c.merged = true then u c else 0
  split_ifs <;> rfl

theorem Usage.merge_eq (u v : Usage) : u.merge v = u + counted v := by
  funext c
  show (if c.merged = true then u c + v c else u c) = u c + if c.merged = true then v c else 0
  split_ifs
  · rfl
  · rw [add_zero]

variable {cache : Entries}

def childSet (cache : Entries) (k : String) : Finset String := (cache.get k).children.toFinset

/-- The usage of an entry without its children. -/
def weight (cache : Entries) (k : String) : Usage := (cache.get k).usage

variable {k c : String}

theorem mem_childSet : c ∈ childSet cache k ↔ c ∈ (cache.get k).children := mem_toFinset

def Ranked (cache : Entries) (rank : String → Nat) : Prop := ∀ p, ∀ c ∈ childSet cache p, rank c < rank p

variable {α : Type}

theorem foldlM_eq_some {β : Type} {f : β → α → Option β} {g : β → α → β} {l : List α}
    (h : ∀ x ∈ l, ∀ b, f b x = some (g b x)) (b : β) : l.foldlM f b = some (l.foldl g b) := by
  induction l generalizing b with
  | nil => rfl
  | cons x l ih =>
    rw [foldlM_cons, h x (.head _) b, foldl_cons]
    exact ih (fun y hy => h y (.tail _ hy)) _

theorem foldl_add_sum (f : α → Usage) (l : List α) (u : Usage) :
    l.foldl (fun u x => u + f x) u = u + (l.map f).sum := by
  induction l generalizing u with
  | nil => simp
  | cons x l ih => rw [foldl_cons, ih, map_cons, sum_cons, add_assoc]

variable {rank : String → Nat} {fuel : Nat}

/-- On an acyclic cache `flatten` gives the total, with any fuel beyond the rank. -/
theorem flatten_eq {t : String → Usage} (ht : Totals counted (childSet cache) (weight cache) t) (hrank : Ranked cache rank) (hfuel : rank k < fuel) :
    flatten cache fuel (cache.get k) = some (t k) := by
  induction fuel generalizing k with
  | zero => cases hfuel
  | succ fuel ih =>
    have hchild : ∀ id ∈ (cache.get k).children, ∀ usage : Usage,
        (do
          let e := cache.get id
          let flat ← if e.children.length > 0 then flatten cache fuel e else some e.usage
          return usage.merge flat) = some (usage + counted (t id)) := by
      intro id hid usage
      have hlt : rank id < fuel := by
        have := hrank k id (mem_childSet.mpr hid)
        omega
      dsimp only
      split_ifs with hlen
      · rw [ih hlt]
        exact congrArg some (Usage.merge_eq _ _)
      · -- An entry without children is its own total.
        have hempty : childSet cache id = ∅ := by
          have hnil : (cache.get id).children = [] := eq_nil_of_length_eq_zero (by omega)
          rw [childSet, hnil]
          rfl
        have hown : t id = (cache.get id).usage := by
          rw [ht id, hempty, Finset.sum_empty, add_zero]
          rfl
        rw [hown]
        exact congrArg some (Usage.merge_eq _ _)
    rw [flatten, foldlM_eq_some hchild, foldl_add_sum, ht k, childSet, sum_toFinset _ (cache.get k).nodup]
    rfl

/-! ## The loop of `merge` -/

section Loop

variable {root : String} (flat : String → Usage)

def mergeStep (root : String) (flat : String → Usage) (cache : Entries) (key : String) : Entries :=
  replaceHashed cache key root ((cache.get key).merge (flat key))

section

variable {key : String} (hne : key ≠ root) (k : String)
include hne

theorem mergeStep_get : (mergeStep root flat cache key).get k =
      if k = root then (cache.get root).addChild key
      else if k = key then (cache.get key).merge (flat key) else cache.get k := by
  unfold mergeStep replaceHashed Entries.get
  by_cases hk : k = root
  · subst hk
    rw [update_self, update_of_ne hne.symm, if_pos rfl]
    rfl
  · rw [update_of_ne hk, if_neg hk]
    by_cases hk' : k = key
    · subst hk'
      rw [update_self, if_pos rfl]
      rfl
    · rw [update_of_ne hk', if_neg hk']

theorem mergeStep_childSet :
    childSet (mergeStep root flat cache key) k =
      if k = root then insert key (childSet cache root) else childSet cache k := by
  rw [childSet, mergeStep_get flat hne]
  split_ifs with hk hk'
  · unfold DataUsageEntry.addChild
    split_ifs with hmem
    · exact (Finset.insert_eq_of_mem (mem_childSet.mpr hmem)).symm
    · rw [toFinset_append, Finset.union_comm]
      rfl
  · subst hk'
    rfl
  · rfl

theorem mergeStep_weight : weight (mergeStep root flat cache key) k =
      if k = key then weight cache k + counted (flat k) else weight cache k := by
  rw [weight, mergeStep_get flat hne]
  by_cases hk : k = root
  · subst hk
    rw [if_pos rfl, if_neg hne.symm]
    unfold DataUsageEntry.addChild
    split_ifs <;> rfl
  · split_ifs with hk'
    · subst hk'
      exact Usage.merge_eq _ _
    · rfl

end

variable {keys : List String}

theorem foldl_childSet (hroot : root ∉ keys) (cache : Entries) (k : String) :
    childSet (keys.foldl (mergeStep root flat) cache) k =
      if k = root then childSet cache root ∪ keys.toFinset else childSet cache k := by
  induction keys generalizing cache with
  | nil =>
    split_ifs with hk
    · rw [hk]
      simp
    · rfl
  | cons key keys ih =>
    rw [mem_cons, not_or] at hroot
    rw [foldl_cons, ih hroot.2, mergeStep_childSet flat (Ne.symm hroot.1), if_pos rfl,
      mergeStep_childSet flat (Ne.symm hroot.1)]
    split_ifs
    · rw [toFinset_cons, Finset.insert_union, Finset.union_insert]
    · rfl

theorem foldl_weight (hroot : root ∉ keys) (hnodup : keys.Nodup) (cache : Entries) (k : String) :
    weight (keys.foldl (mergeStep root flat) cache) k =
      if k ∈ keys.toFinset then weight cache k + counted (flat k) else weight cache k := by
  induction keys generalizing cache with
  | nil => simp
  | cons key keys ih =>
    rw [mem_cons, not_or] at hroot
    obtain ⟨hnot, hnodup⟩ := nodup_cons.mp hnodup
    rw [foldl_cons, ih hroot.2 hnodup, mergeStep_weight flat (Ne.symm hroot.1)]
    by_cases hk : k = key
    · subst hk
      simp [hnot]
    · simp [hk]

end Loop

/-! ## The merged cache -/

section Additive

variable (hashPath : String → String)

/-- The child references of a cache are trees. -/
structure IsTree (d : DataUsageCache) : Prop where
  acyclic : ∃ rank, Ranked d.cache rank
  closed : ∀ p, ∀ c ∈ childSet d.cache p, (d.cache c).isSome
  parent : ∀ p q c, c ∈ childSet d.cache p → c ∈ childSet d.cache q → p = q
  root : ∀ p, hashPath d.name ∉ childSet d.cache p

/-- What the caches share, apart from the root, are children of the root: a child of the other root that is
in `d` is one of the root of `d`. -/
def Shares (d other : DataUsageCache) : Prop :=
  ∀ k ∈ childSet other.cache (hashPath other.name), (d.cache k).isSome → k ∈ childSet d.cache (hashPath d.name)

/-- The flattened root; a cache without a root holds nothing. -/
def FlattensTo (d : DataUsageCache) (usage : Usage) : Prop :=
  ∃ enough, ∀ fuel ≥ enough, flatten d.cache fuel (d.cache.get (hashPath d.name)) = some usage

variable {hashPath} {d other : DataUsageCache}

theorem flattensTo_of_totals {t : String → Usage} (hrank : Ranked d.cache rank)
    (ht : Totals counted (childSet d.cache) (weight d.cache) t) : FlattensTo hashPath d (t (hashPath d.name)) :=
  ⟨rank (hashPath d.name) + 1, fun _ hfuel => flatten_eq ht hrank hfuel⟩

theorem get_of_none (h : d.cache k = none) : d.cache.get k = .zero := by
  rw [Entries.get, h]
  rfl

theorem total_of_no_root {t : String → Usage} (ht : Totals counted (childSet d.cache) (weight d.cache) t)
    (h : d.root hashPath = none) : t (hashPath d.name) = 0 := by
  have hget : d.cache.get (hashPath d.name) = .zero := get_of_none h
  exact ht.eq_zero (by rw [weight, hget]; rfl) (by rw [childSet, hget]; rfl)

/-- The cache after the loop, if both caches have a root: its totals, and that it has no cycle. -/
theorem merged_totals (hname : d.name = other.name) (hd : IsTree hashPath d) (ho : IsTree hashPath other)
    (hshare : Shares hashPath d other) {t flat : String → Usage}
    (ht : Totals counted (childSet d.cache) (weight d.cache) t) {keys : List String} (hnodup : keys.Nodup)
    (hkeys : keys.toFinset = childSet other.cache (hashPath other.name)) :
    ∃ rank t', Ranked (keys.foldl (mergeStep (hashPath d.name) flat) d.cache) rank ∧
      Totals counted (childSet (keys.foldl (mergeStep (hashPath d.name) flat) d.cache))
        (weight (keys.foldl (mergeStep (hashPath d.name) flat) d.cache)) t' ∧
      t' (hashPath d.name) = t (hashPath d.name) + ∑ k ∈ keys.toFinset, counted (flat k) := by
  obtain ⟨rank, hrank⟩ := hd.acyclic
  have hroot : hashPath d.name ∉ keys.toFinset := by
    rw [hkeys, hname]
    exact ho.root _
  have hnew : ∀ k ∈ keys.toFinset, k ∉ childSet d.cache (hashPath d.name) → d.cache.get k = .zero := by
    intro k hk hnot
    apply get_of_none
    rw [← Option.not_isSome_iff_eq_none]
    exact fun hsome => hnot (hshare k (hkeys ▸ hk) hsome)
  have hparent : ∀ p, p ≠ hashPath d.name → Disjoint (childSet d.cache p) keys.toFinset := by
    intro p hp
    rw [Finset.disjoint_left]
    intro c hc hk
    exact hp (hd.parent p _ c hc (hshare c (hkeys ▸ hk) (hd.closed p c hc)))
  have hchildren := funext (foldl_childSet flat (fun h => hroot (mem_toFinset.mpr h)) d.cache)
  have hweight := funext (foldl_weight flat (fun h => hroot (mem_toFinset.mpr h)) hnodup d.cache)
  -- The new children are leaves, so they get the lowest rank.
  refine ⟨fun k => if k ∈ keys.toFinset ∧ k ∉ childSet d.cache (hashPath d.name) then 0 else rank k + 1,
    fun k => if k = hashPath d.name then t (hashPath d.name) + ∑ g ∈ keys.toFinset, counted (flat g)
      else if k ∈ keys.toFinset then t k + counted (flat k) else t k, ?_, ?_, if_pos rfl⟩
  · intro p c hc
    rw [hchildren] at hc
    dsimp only at hc
    have hpnew : ¬ (p ∈ keys.toFinset ∧ p ∉ childSet d.cache (hashPath d.name)) := by
      rintro ⟨hp, hpnot⟩
      have hp' : p ≠ hashPath d.name := fun h => hroot (h ▸ hp)
      rw [if_neg hp', mem_childSet, hnew p hp hpnot] at hc
      exact not_mem_nil hc
    dsimp only
    split_ifs with hcnew
    · omega
    · have hlt : c ∈ childSet d.cache p → rank c < rank p := hrank p c
      split_ifs at hc with hp
      · rcases Finset.mem_union.mp hc with hc | hc
        · have := hlt (hp ▸ hc)
          omega
        · have := hlt (hp ▸ by_contra fun hnot => hcnew ⟨hc, hnot⟩)
          omega
      · have := hlt hc
        omega
  · rw [hchildren, hweight]
    refine ht.graft counted_idem hroot (hd.root _) (fun k hk hnot => ?_) fun p hp => ⟨hd.root p, hparent p hp⟩
    rw [weight, childSet, hnew k hk hnot]
    exact ⟨rfl, rfl⟩

theorem merge_eq {root otherRoot : DataUsageEntry} {t rank : String → _}
    (hroot : d.root hashPath = some root) (hother : other.root hashPath = some otherRoot)
    (hrank : Ranked other.cache rank) (ht : Totals counted (childSet other.cache) (weight other.cache) t)
    (hfuel : rank (hashPath other.name) < fuel) :
    d.merge hashPath fuel other = some { d with
      lastUpdate := if other.lastUpdate > d.lastUpdate then other.lastUpdate else d.lastUpdate
      cache := otherRoot.children.foldl (mergeStep (hashPath d.name) t) d.cache } := by
  have hget : other.cache.get (hashPath other.name) = otherRoot := by
    rw [Entries.get, show other.cache (hashPath other.name) = some otherRoot from hother]
    rfl
  have hround : ∀ key ∈ otherRoot.children, ∀ cache : Entries,
      (do
        let flat ← flatten other.cache fuel (other.cache.get key)
        return replaceHashed cache key (hashPath d.name) ((cache.get key).merge flat)) =
      some (mergeStep (hashPath d.name) t cache key) := by
    intro key hkey cache
    have hlt : rank key < rank (hashPath other.name) := hrank _ _ (mem_childSet.mpr (hget ▸ hkey))
    rw [flatten_eq ht hrank (hlt.trans hfuel)]
    rfl
  unfold DataUsageCache.merge
  rw [hroot, hother]
  dsimp only
  rw [foldlM_eq_some hround]
  rfl

/-- Both caches and the merged one have a flattened root, and the last is the sum of the others if and
only if the other root holds nothing itself, or there was no root to add it to. -/
theorem merge_additive_iff (hashPath : String → String) (d other : DataUsageCache) (hname : d.name = other.name)
    (hd : IsTree hashPath d) (ho : IsTree hashPath other) (hshare : Shares hashPath d other) :
    ∃ usage otherUsage mergedUsage merged, FlattensTo hashPath d usage ∧ FlattensTo hashPath other otherUsage ∧
      (∃ enough, ∀ fuel ≥ enough, d.merge hashPath fuel other = some merged) ∧
      FlattensTo hashPath merged mergedUsage ∧
      (mergedUsage = usage + otherUsage ↔
        ((d.root hashPath).isSome → weight other.cache (hashPath other.name) = 0)) := by
  obtain ⟨rank, hrank⟩ := hd.acyclic
  obtain ⟨t, ht⟩ := Totals.exists_of_rank (φ := counted) rank hrank (weight d.cache)
  obtain ⟨rank', hrank'⟩ := ho.acyclic
  obtain ⟨t', ht'⟩ := Totals.exists_of_rank (φ := counted) rank' hrank' (weight other.cache)
  have hflat : FlattensTo hashPath d (t (hashPath d.name)) := flattensTo_of_totals hrank ht
  have hflat' : FlattensTo hashPath other (t' (hashPath other.name)) := flattensTo_of_totals hrank' ht'
  cases hother : other.root hashPath with
  | none =>
    refine ⟨_, _, _, d, hflat, hflat', ⟨0, fun fuel _ => ?_⟩, hflat, ?_⟩
    · unfold DataUsageCache.merge
      rw [hother]
    · rw [total_of_no_root ht' hother, add_zero]
      have hzero : weight other.cache (hashPath other.name) = 0 := by
        rw [weight, get_of_none hother]
        rfl
      exact iff_of_true rfl fun _ => hzero
  | some otherRoot =>
    cases hroot : d.root hashPath with
    | none =>
      refine ⟨_, _, _, other, hflat, hflat', ⟨0, fun fuel _ => ?_⟩, hflat', ?_⟩
      · unfold DataUsageCache.merge
        rw [hother, hroot]
      · rw [total_of_no_root ht hroot, zero_add]
        exact iff_of_true rfl fun h => by cases h
    | some root =>
      have hget : other.cache.get (hashPath other.name) = otherRoot := by
        rw [Entries.get, show other.cache (hashPath other.name) = some otherRoot from hother]
        rfl
      have hkeys : otherRoot.children.toFinset = childSet other.cache (hashPath other.name) := by
        rw [childSet, hget]
      obtain ⟨mrank, mt, hmrank, hmt, hsum⟩ := @merged_totals hashPath d other hname hd ho hshare t t' ht
        otherRoot.children otherRoot.nodup hkeys
      refine ⟨_, _, _, _, hflat, hflat',
        ⟨rank' (hashPath other.name) + 1, fun fuel hfuel => merge_eq hroot hother hrank' ht' hfuel⟩,
        flattensTo_of_totals hmrank hmt, ?_⟩
      rw [hsum, ht' (hashPath other.name), hkeys, ← add_assoc, add_left_inj, left_eq_add]
      simp

/-- A cache with the root `/`, which has `own` objects, and one bucket with `inBucket` objects. -/
def oneBucket (own inBucket : BitVec 64) : DataUsageCache where
  name := "/"
  lastUpdate := 0
  cache k :=
    if k = "/" then some ⟨["bucket"], by decide, fun c => if c = .objects then own else 0⟩
    else if k = "bucket" then some ⟨[], by decide, fun c => if c = .objects then inBucket else 0⟩
    else none

theorem mem_childSet_oneBucket {own inBucket : BitVec 64} {p : String} :
    c ∈ childSet (oneBucket own inBucket).cache p ↔ p = "/" ∧ c = "bucket" := by
  rw [mem_childSet, Entries.get, oneBucket]
  by_cases hp : p = "/"
  · simp [hp]
  · by_cases hp' : p = "bucket"
    · simp [hp']
    · simp [hp, hp', DataUsageEntry.zero]

theorem isTree_oneBucket (own inBucket : BitVec 64) : IsTree id (oneBucket own inBucket) where
  acyclic := by
    refine ⟨fun k => if k = "/" then 1 else 0, fun p c hc => ?_⟩
    obtain ⟨rfl, rfl⟩ := mem_childSet_oneBucket.mp hc
    decide
  closed p c hc := by
    obtain ⟨rfl, rfl⟩ := mem_childSet_oneBucket.mp hc
    rfl
  parent p q c hp hq := (mem_childSet_oneBucket.mp hp).1.trans (mem_childSet_oneBucket.mp hq).1.symm
  root p hp := absurd (mem_childSet_oneBucket.mp hp).2 (show "/" ≠ "bucket" by decide)

theorem merge_additive_oneBucket : ∃ usage otherUsage mergedUsage merged, FlattensTo id (oneBucket 1 2) usage ∧
      FlattensTo id (oneBucket 0 3) otherUsage ∧
      (∃ enough, ∀ fuel ≥ enough, (oneBucket 1 2).merge id fuel (oneBucket 0 3) = some merged) ∧
      FlattensTo id merged mergedUsage ∧ mergedUsage = usage + otherUsage := by
  have hshare : Shares id (oneBucket 1 2) (oneBucket 0 3) := fun k hk _ =>
    mem_childSet_oneBucket.mpr ⟨rfl, (mem_childSet_oneBucket.mp hk).2⟩
  obtain ⟨usage, otherUsage, mergedUsage, merged, h1, h2, h3, h4, hiff⟩ :=
    merge_additive_iff id (oneBucket 1 2) (oneBucket 0 3) rfl (isTree_oneBucket 1 2)
      (isTree_oneBucket 0 3) hshare
  refine ⟨usage, otherUsage, mergedUsage, merged, h1, h2, h3, h4, hiff.mpr fun _ => ?_⟩
  funext c
  exact ite_self _

/-- The objects that the other root holds itself are lost. -/
theorem merge_loses_root :
    (flatten (oneBucket 1 2).cache 2 ((oneBucket 1 2).cache.get "/")).map (· .objects) = some 3 ∧
      (flatten (oneBucket 5 4).cache 2 ((oneBucket 5 4).cache.get "/")).map (· .objects) = some 9 ∧
      (((oneBucket 1 2).merge id 2 (oneBucket 5 4)).bind fun merged =>
        (flatten merged.cache 2 (merged.cache.get "/")).map (· .objects)) = some 7 := by
  decide

end Additive

end Otterio.DataUsage
